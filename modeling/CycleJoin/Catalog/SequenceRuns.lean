import CycleJoin.Catalog.Sequence

/-!
# Sequences and transactions

A draw changes the sequence at once. `nextKVal` puts an undo record with the state before the draw into the
transaction, but only after all values have been drawn, and a rollback sets the sequence to the states of
its records, the oldest last (`storage/undo_buffer.cpp`, `transaction/transaction.cpp`).

* `rollback_alone_iff`: a transaction that rolls back with no other one involved leaves the sequence as it
  was iff its first draw takes all its values or none.
* `Inv.step`: what each step preserves if a transaction only rolls back while all later draws are its own or
  have been rolled back.
* `sequence_atomic_when`: both for whole runs.
-/

namespace CycleJoin

open List Function

/-- Where a transaction is. The undo records are in the order in which they were pushed; a transaction
whose draw has thrown can only roll back. -/
inductive SequenceTxn where
  | notStarted
  | active (undo : List SequenceState) (failed : Bool)
  | committed
  | rolledBack
  deriving DecidableEq, Repr

def SequenceTxn.isActive : SequenceTxn → Bool
  | .active _ _ => true
  | _ => false

/-- The sequence, the transactions by their IDs, and the values that were handed out, the oldest first. -/
structure SequenceSystem where
  lastTransactionID : Nat
  sequence : SequenceState
  txn : Nat → SequenceTxn
  handed : List (Nat × Int)

inductive SequenceStep where
  | begin
  | draw (id count : Nat)
  | commit (id : Nat)
  | rollback (id : Nat)
  deriving DecidableEq, Repr

namespace SequenceSystem

variable (info : SequenceInfo) (enableMultiWrites : Bool)

def init : SequenceSystem := ⟨0, info.initial, fun _ => .notStarted, []⟩

variable (s : SequenceSystem)

/-- `hasActiveWriteTransactionNoLock`. -/
def hasActive : Bool := (range (s.lastTransactionID + 1)).any fun id => (s.txn id).isActive

/-- `UndoBuffer::rollback`: the records in reverse order, each of which sets the state. -/
def restore (undo : List SequenceState) : SequenceState :=
  undo.reverse.foldl (fun _ record => record) s.sequence

/-- One step; `none` if it is not possible. -/
def step : SequenceStep → Option SequenceSystem
  | .begin =>
    if !enableMultiWrites && s.hasActive then none
    else
      let id := s.lastTransactionID + 1
      some { s with lastTransactionID := id, txn := update s.txn id (.active [] false) }
  | .draw id count =>
    match s.txn id with
    | .active undo false =>
      if count = 0 then none
      else
        match info.nextKVal count s.sequence with
        | (sequence, some values) =>
          some { s with
            sequence := sequence
            txn := update s.txn id (.active (undo ++ [s.sequence]) false)
            handed := s.handed ++ values.map (id, ·) }
        | (sequence, none) =>
          some { s with sequence := sequence, txn := update s.txn id (.active undo true) }
    | _ => none
  | .commit id =>
    match s.txn id with
    | .active _ false => some { s with txn := update s.txn id .committed }
    | _ => none
  | .rollback id =>
    match s.txn id with
    | .active undo _ =>
      some { s with sequence := s.restore undo, txn := update s.txn id .rolledBack }
    | _ => none

def run : SequenceSystem → List SequenceStep → Option SequenceSystem
  | s, [] => some s
  | s, next :: steps => (s.step info enableMultiWrites next).bind fun s => run s steps

/-- No value that was handed to a committed transaction has been handed out again. -/
def NoReuse : Prop := s.handed.Pairwise fun e e' => s.txn e.1 = .committed → e.2 ≠ e'.2

/-- A transaction rolls back only if all that was handed out since its first draw is its own or has been
rolled back. -/
def Allowed : SequenceStep → Prop
  | .rollback id => ∀ e ∈ s.handed.dropWhile (·.1 ≠ id), e.1 = id ∨ s.txn e.1 = .rolledBack
  | _ => True

def AllAllowed : SequenceSystem → List SequenceStep → Prop
  | _, [] => True
  | s, next :: steps =>
    s.Allowed next ∧ ∀ s', s.step info enableMultiWrites next = some s' → AllAllowed s' steps

theorem restore_eq (undo : List SequenceState) : s.restore undo = undo.head?.getD s.sequence := by
  unfold restore
  cases undo with
  | nil => rfl
  | cons record undo => simp

/-! ## A transaction alone -/

/-- The steps of the next transaction when no other one is involved and it rolls back. -/
def alone (counts : List Nat) : List SequenceStep :=
  let id := s.lastTransactionID + 1
  .begin :: (counts.map (.draw id) ++ [.rollback id])

/-- The first draw of a transaction takes all its values or none. -/
def WholeDraws (sequence : SequenceState) (counts : List Nat) : Prop :=
  info.cycle = true ∨ info.numValues - sequence.usageCount = 0 ∨
    ∀ count, counts.head? = some count → count ≤ info.numValues - sequence.usageCount

section Alone

variable {info enableMultiWrites s} {s' : SequenceSystem} {id : Nat}

theorem run_rollback {undo : List SequenceState} {failed : Bool} (htxn : s.txn id = .active undo failed)
    (hrun : run info enableMultiWrites s [.rollback id] = some s') :
    s'.sequence = undo.head?.getD s.sequence := by
  simp only [run, step, htxn, Option.bind_some, Option.some.injEq] at hrun
  rw [← hrun, ← restore_eq]

/-- A transaction with an undo record sets the sequence to the state of the first one. -/
theorem run_of_record {record : SequenceState} {undo : List SequenceState} {failed : Bool}
    {counts : List Nat} (htxn : s.txn id = .active (record :: undo) failed)
    (hrun : run info enableMultiWrites s (counts.map (.draw id) ++ [.rollback id]) = some s') :
    s'.sequence = record := by
  induction counts generalizing s undo failed with
  | nil => exact run_rollback htxn hrun
  | cons count counts ih =>
    obtain ⟨s₁, hstep, hrun⟩ := Option.bind_eq_some_iff.mp hrun
    cases failed with
    | true =>
      simp only [step, htxn] at hstep
      cases hstep
    | false =>
      simp only [step, htxn] at hstep
      split at hstep
      · cases hstep
      split at hstep
      all_goals
        cases hstep
        refine ih (update_self ..) hrun

/-- What a transaction alone leaves: the state before it, or where its first draw has thrown. -/
theorem run_alone {counts : List Nat} (hrun : run info enableMultiWrites s (s.alone counts) = some s') :
    (∃ count, counts.head? = some count ∧ (info.nextKVal count s.sequence).2 = none ∧
      s'.sequence = (info.nextKVal count s.sequence).1) ∨
    ((∀ count, counts.head? = some count → (info.nextKVal count s.sequence).2 ≠ none) ∧
      s'.sequence = s.sequence) := by
  obtain ⟨s₀, hbegin, hrun⟩ := Option.bind_eq_some_iff.mp hrun
  have hs₀ : s₀.sequence = s.sequence ∧ s₀.txn (s.lastTransactionID + 1) = .active [] false := by
    simp only [step] at hbegin
    split at hbegin
    · cases hbegin
    · cases hbegin
      exact ⟨rfl, update_self ..⟩
  obtain ⟨hseq, htxn⟩ := hs₀
  cases counts with
  | nil =>
    refine .inr ⟨?_, (run_rollback htxn hrun).trans hseq⟩
    rintro _ ⟨⟩
  | cons count counts =>
    obtain ⟨s₁, hstep, hrun⟩ := Option.bind_eq_some_iff.mp hrun
    simp only [step, htxn, hseq] at hstep
    split at hstep
    · cases hstep
    split at hstep
    · next sequence values hdraw =>
      cases hstep
      refine .inr ⟨?_, run_of_record (update_self ..) hrun⟩
      simp [hdraw]
    · next sequence hthrows =>
      cases hstep
      -- A transaction whose draw has thrown can only roll back, and it has no record.
      refine .inl ⟨count, rfl, by rw [hthrows], ?_⟩
      cases counts with
      | nil =>
        rw [hthrows]
        exact run_rollback (update_self ..) hrun
      | cons count' counts =>
        obtain ⟨s₂, hstep₂, -⟩ := Option.bind_eq_some_iff.mp hrun
        simp only [step, update_self] at hstep₂
        cases hstep₂

end Alone

/-! ## Runs -/

section Runs

variable {info enableMultiWrites s} {s' : SequenceSystem}

/-- The value is one of the first values of the sequence. -/
def Drawn (info : SequenceInfo) (p : Nat) (value : Int) : Prop := ∃ j < p, value = info.valueAt j

/-- A transaction that draws has values from the time of its first undo record on. What was handed out
before that and has not been rolled back comes before the position of the record. -/
def RecordInv (info : SequenceInfo) (s : SequenceSystem) (id : Nat) : List SequenceState → Prop
  | [] => ∀ e ∈ s.handed, e.1 ≠ id
  | record :: _ => (∃ e ∈ s.handed, e.1 = id) ∧ ∃ p ≤ info.numValues, record = info.stateAt p ∧
      ∀ e ∈ s.handed.takeWhile (·.1 ≠ id), s.txn e.1 ≠ .rolledBack → Drawn info p e.2

/-- What holds in a run with allowed steps only, for a sequence that does not cycle. -/
structure Inv (info : SequenceInfo) (s : SequenceSystem) : Prop where
  /-- The sequence is at a position, and what has not been rolled back comes before it. -/
  position : ∃ p ≤ info.numValues, s.sequence = info.stateAt p ∧
    ∀ e ∈ s.handed, s.txn e.1 ≠ .rolledBack → Drawn info p e.2
  fresh : s.handed.Pairwise fun e e' => s.txn e.1 ≠ .rolledBack → e.2 ≠ e'.2
  record : ∀ id undo failed, s.txn id = .active undo failed → RecordInv info s id undo
  started : ∀ e ∈ s.handed, e.1 ≤ s.lastTransactionID
  notStarted : ∀ id > s.lastTransactionID, s.txn id = .notStarted

theorem Drawn.mono {p q : Nat} (h : p ≤ q) {value : Int} : Drawn info p value → Drawn info q value
  | ⟨j, hj, hvalue⟩ => ⟨j, by omega, hvalue⟩

theorem inv_init (info : SequenceInfo) : Inv info (init info) where
  position := ⟨0, Nat.zero_le _, info.initial_eq, fun _ he => nomatch he⟩
  fresh := .nil
  record _ _ _ h := nomatch h
  started _ he := nomatch he
  notStarted _ _ := rfl

/-- The step changes the state of one transaction only, which had not been rolled back, and hands out
nothing. -/
structure OnlyTxn (s s' : SequenceSystem) (id : Nat) (t : SequenceTxn) : Prop where
  notRolledBack : s.txn id ≠ .rolledBack
  txn : s'.txn = update s.txn id t
  handed : s'.handed = s.handed

variable {t : SequenceTxn}

theorem OnlyTxn.kept {id id' : Nat} (h : OnlyTxn s s' id t)
    (hne : s'.txn id' ≠ .rolledBack) : s.txn id' ≠ .rolledBack := by
  rw [h.txn] at hne
  by_cases hid : id' = id
  · exact hid ▸ h.notRolledBack
  · rwa [update_of_ne hid] at hne

variable {undo : List SequenceState}

theorem RecordInv.onlyTxn {id id' : Nat}
    (h : RecordInv info s id' undo) (honly : OnlyTxn s s' id t) : RecordInv info s' id' undo := by
  cases undo with
  | nil => exact fun e he => h e (honly.handed ▸ he)
  | cons record undo =>
    obtain ⟨hmem, p, hp, hrecord, hbefore⟩ := h
    refine ⟨honly.handed ▸ hmem, p, hp, hrecord, fun e he hne => ?_⟩
    rw [honly.handed] at he
    exact hbefore e he (honly.kept hne)

variable {id : Nat}

section
variable (h : Inv info s)
include h

/-- Such a step keeps the invariant if the sequence is still at a position after what has not been rolled
back. -/
theorem Inv.onlyTxn (honly : OnlyTxn s s' id t) (hposition : ∃ p ≤ info.numValues, s'.sequence = info.stateAt p ∧
      ∀ e ∈ s.handed, s'.txn e.1 ≠ .rolledBack → Drawn info p e.2)
    (hrecord : ∀ undo failed, t = .active undo failed → RecordInv info s id undo)
    (hlast : s.lastTransactionID ≤ s'.lastTransactionID) (hid : id ≤ s'.lastTransactionID) :
    Inv info s' where
  position := by rwa [honly.handed]
  fresh := by
    rw [honly.handed]
    exact h.fresh.imp fun hfresh hne => hfresh (honly.kept hne)
  record id' undo failed hactive := by
    refine RecordInv.onlyTxn ?_ honly
    rw [honly.txn] at hactive
    by_cases hid' : id' = id
    · subst hid'
      rw [update_self] at hactive
      exact hrecord undo failed hactive
    · rw [update_of_ne hid'] at hactive
      exact h.record id' undo failed hactive
  started e he := (h.started e (honly.handed ▸ he)).trans hlast
  notStarted id' hid' := by
    rw [honly.txn, update_of_ne (by omega)]
    exact h.notStarted id' (by omega)

theorem Inv.le_last {failed : Bool} (hid : s.txn id = .active undo failed) : id ≤ s.lastTransactionID := by
  refine not_lt.mp fun hlt => ?_
  rw [h.notStarted id hlt] at hid
  cases hid

theorem Inv.begin (hstep : s.step info enableMultiWrites .begin = some s') : Inv info s' := by
  simp only [step] at hstep
  split at hstep
  · cases hstep
  cases hstep
  have honly : OnlyTxn s { s with
      lastTransactionID := s.lastTransactionID + 1
      txn := update s.txn (s.lastTransactionID + 1) (.active [] false) }
      (s.lastTransactionID + 1) (.active [] false) :=
    ⟨by simp [h.notStarted _ (Nat.lt_succ_self _)], rfl, rfl⟩
  obtain ⟨p, hp, hseq, hdrawn⟩ := h.position
  refine h.onlyTxn honly ⟨p, hp, hseq, fun e he hne => hdrawn e he (honly.kept hne)⟩ ?_ (Nat.le_succ _) le_rfl
  -- Nothing was handed to the new transaction.
  rintro undo failed ⟨⟩ e he heq
  have := h.started e he
  omega

theorem Inv.commit (hstep : s.step info enableMultiWrites (.commit id) = some s') : Inv info s' := by
  simp only [step] at hstep
  split at hstep
  · next undo hid =>
    cases hstep
    have honly : OnlyTxn s { s with txn := update s.txn id .committed } id .committed := ⟨by simp [hid], rfl, rfl⟩
    obtain ⟨p, hp, hseq, hdrawn⟩ := h.position
    exact h.onlyTxn honly ⟨p, hp, hseq, fun e he hne => hdrawn e he (honly.kept hne)⟩
      (fun _ _ hactive => nomatch hactive) le_rfl (h.le_last hid)
  · cases hstep

theorem Inv.rollback (hallowed : s.Allowed (.rollback id))
    (hstep : s.step info enableMultiWrites (.rollback id) = some s') : Inv info s' := by
  simp only [step] at hstep
  split at hstep
  · next undo failed hid =>
    cases hstep
    have honly : OnlyTxn s { s with
        sequence := s.restore undo, txn := update s.txn id .rolledBack } id .rolledBack :=
      ⟨by simp [hid], rfl, rfl⟩
    refine h.onlyTxn honly ?_ (fun _ _ hactive => nomatch hactive) le_rfl (h.le_last hid)
    simp only [restore_eq]
    have hrecord := h.record id undo failed hid
    cases undo with
    | nil =>
      obtain ⟨p, hp, hseq, hdrawn⟩ := h.position
      exact ⟨p, hp, hseq, fun e he hne => hdrawn e he (honly.kept hne)⟩
    | cons record undo =>
      obtain ⟨-, p, hp, rfl, hbefore⟩ := hrecord
      refine ⟨p, hp, rfl, fun e he hne => ?_⟩
      -- What was handed out since the first draw has been rolled back.
      rw [← takeWhile_append_dropWhile (p := fun e => decide (e.1 ≠ id)) (l := s.handed)] at he
      obtain he | he := mem_append.mp he
      · exact hbefore e he (honly.kept hne)
      · obtain hcontra | hcontra := hallowed e he
        · rw [hcontra, update_self] at hne
          exact absurd rfl hne
        · exact absurd hcontra (honly.kept hne)
  · cases hstep

/-- A draw that throws has gone to the end of the sequence. -/
theorem Inv.throw (hid : s.txn id = .active undo false) : Inv info { s with
      sequence := info.stateAt info.numValues, txn := update s.txn id (.active undo true) } := by
  have honly : OnlyTxn s { s with
      sequence := info.stateAt info.numValues, txn := update s.txn id (.active undo true) }
      id (.active undo true) := ⟨by simp [hid], rfl, rfl⟩
  refine h.onlyTxn honly ⟨info.numValues, le_rfl, rfl, fun e he hne => ?_⟩ ?_ le_rfl (h.le_last hid)
  · obtain ⟨p, hp, -, hdrawn⟩ := h.position
    exact (hdrawn e he (honly.kept hne)).mono hp
  · rintro undo failed ⟨⟩
    exact h.record id _ false hid

end

theorem takeWhile_append_of_mem {l l' : List (Nat × Int)} (h : ∃ e ∈ l, e.1 = id) :
    (l ++ l').takeWhile (·.1 ≠ id) = l.takeWhile (·.1 ≠ id) := by
  obtain ⟨e, he, hid⟩ := h
  rw [takeWhile_append, if_neg]
  intro hlen
  have hall := takeWhile_eq_self_iff.mp ((takeWhile_sublist _).eq_of_length hlen) e he
  simp [hid] at hall

/-- Values that are handed to another transaction, or to one with a record, keep a record as it is. -/
theorem RecordInv.hand {new : List (Nat × Int)} (h : RecordInv info s id undo) (hhanded : s'.handed = s.handed ++ new)
    (hnil : undo = [] → ∀ e ∈ new, e.1 ≠ id)
    (hkept : ∀ id', s'.txn id' ≠ .rolledBack → s.txn id' ≠ .rolledBack) : RecordInv info s' id undo := by
  cases undo with
  | nil =>
    intro e he
    obtain he | he := mem_append.mp (hhanded ▸ he)
    · exact h e he
    · exact hnil rfl e he
  | cons record undo =>
    obtain ⟨⟨e₀, he₀, hid⟩, p, hp, hrecord, hbefore⟩ := h
    refine ⟨⟨e₀, hhanded ▸ mem_append_left _ he₀, hid⟩, p, hp, hrecord, fun e he hne => ?_⟩
    rw [hhanded, takeWhile_append_of_mem ⟨e₀, he₀, hid⟩] at he
    exact hbefore e he (hkept _ hne)

/-- A draw hands out the next values. -/
theorem Inv.hand {id p count : Nat} {new : List (Nat × Int)} (h : Inv info s)
    (hid : s.txn id = .active undo false) (hseq : s.sequence = info.stateAt p)
    (hcount : count ≠ 0) (hle : p + count ≤ info.numValues)
    (hdrawn : ∀ e ∈ s.handed, s.txn e.1 ≠ .rolledBack → Drawn info p e.2)
    (hnew : new = (range' p count).map fun j => (id, info.valueAt j))
    (hlast : s'.lastTransactionID = s.lastTransactionID) (hseq' : s'.sequence = info.stateAt (p + count))
    (htxn : s'.txn = update s.txn id (.active (undo ++ [s.sequence]) false))
    (hhanded : s'.handed = s.handed ++ new) : Inv info s' := by
  have hkept (id' : Nat) (hne : s'.txn id' ≠ .rolledBack) : s.txn id' ≠ .rolledBack := by
    rw [htxn] at hne
    by_cases hid' : id' = id
    · simp [hid', hid]
    · rwa [update_of_ne hid'] at hne
  have hentry (e : Nat × Int) (he : e ∈ new) : e.1 = id ∧ ∃ j, p ≤ j ∧ j < p + count ∧ e.2 = info.valueAt j := by
    rw [hnew] at he
    obtain ⟨j, hj, rfl⟩ := mem_map.mp he
    obtain ⟨hpj, hj⟩ := mem_range'_1.mp hj
    exact ⟨rfl, j, hpj, hj, rfl⟩
  refine ⟨⟨p + count, hle, hseq', fun e he hne => ?_⟩, ?_, fun id' undo' failed hactive => ?_,
    fun e he => ?_, fun id' hid' => ?_⟩
  · obtain he | he := mem_append.mp (hhanded ▸ he)
    · exact (hdrawn e he (hkept _ hne)).mono (Nat.le_add_right _ _)
    · obtain ⟨-, j, -, hj, hvalue⟩ := hentry e he
      exact ⟨j, hj, hvalue⟩
  · rw [hhanded]
    refine pairwise_append.mpr ⟨h.fresh.imp fun hfresh hne => hfresh (hkept _ hne), ?_, ?_⟩
    · rw [hnew, pairwise_map]
      refine Pairwise.imp (fun {i j} hlt => ?_) pairwise_lt_range'
      exact fun _ heq => absurd (info.valueAt_injective heq) (by omega)
    · -- What has not been rolled back comes before the position.
      intro e he e' he' hne heq
      obtain ⟨i, hi, hvalue⟩ := hdrawn e he (hkept _ hne)
      obtain ⟨-, j, hj, -, hvalue'⟩ := hentry e' he'
      have := info.valueAt_injective (hvalue.symm.trans (heq.trans hvalue'))
      omega
  · rw [htxn] at hactive
    by_cases hid' : id' = id
    · subst hid'
      rw [update_self] at hactive
      cases hactive
      have hrecord := h.record id' undo false hid
      cases undo with
      | nil =>
        -- The first draw: all that was handed out before is not from this transaction.
        have hfirst : ∃ e ∈ new, e.1 = id' := by
          rw [hnew]
          exact ⟨_, mem_map.mpr ⟨p, mem_range'_1.mpr (by omega), rfl⟩, rfl⟩
        obtain ⟨e₀, he₀, hid₀⟩ := hfirst
        refine ⟨⟨e₀, hhanded ▸ mem_append_right _ he₀, hid₀⟩, p, by omega, hseq, fun e he hne => ?_⟩
        have hall : ∀ e ∈ new, e.1 = id' := fun e he => (hentry e he).1
        have he : e ∈ s.handed := by
          have hne' : e.1 ≠ id' := by simpa using mem_takeWhile_imp he
          obtain he | he := mem_append.mp (hhanded ▸ ( takeWhile_prefix _).subset he)
          · exact he
          · exact absurd (hall e he) hne'
        exact hdrawn e he (hkept _ hne)
      | cons record undo => exact hrecord.hand hhanded (fun hnil => nomatch hnil) hkept
    · rw [update_of_ne hid'] at hactive
      refine (h.record id' undo' failed hactive).hand hhanded (fun _ e he heq => hid' ?_) hkept
      exact heq.symm.trans (hentry e he).1
  · rw [hlast]
    obtain he | he := mem_append.mp (hhanded ▸ he)
    · exact h.started e he
    · rw [(hentry e he).1]
      exact h.le_last hid
  · rw [hlast] at hid'
    rw [htxn, update_of_ne]
    · exact h.notStarted id' hid'
    · have := h.le_last hid
      omega

theorem Inv.step {next : SequenceStep} (hcycle : info.cycle = false) (hsmall : info.numValues < 2 ^ 64)
    (h : Inv info s) (hallowed : s.Allowed next)
    (hstep : s.step info enableMultiWrites next = some s') : Inv info s' := by
  cases next with
  | begin => exact h.begin hstep
  | commit id => exact h.commit hstep
  | rollback id => exact h.rollback hallowed hstep
  | draw id count =>
    obtain ⟨p, hp, hseq, hdrawn⟩ := h.position
    simp only [SequenceSystem.step] at hstep
    split at hstep
    · next undo hid =>
      split at hstep
      · cases hstep
      next hcount =>
      rw [hseq, SequenceInfo.nextKVal_stateAt hcycle hsmall count hp] at hstep
      split at hstep
      · next sequence values heq =>
        cases hstep
        split at heq
        · next hle =>
          cases heq
          refine h.hand hid hseq hcount hle hdrawn ?_ rfl rfl ?_ rfl
          · rw [map_map]
            rfl
          · rw [hseq]
        · cases heq
      · next sequence heq =>
        cases hstep
        split at heq
        · cases heq
        · cases heq
          exact h.throw hid
    · cases hstep

theorem Inv.run (hcycle : info.cycle = false) (hsmall : info.numValues < 2 ^ 64)
    {steps : List SequenceStep} (h : Inv info s) (hallowed : AllAllowed info enableMultiWrites s steps)
    (hrun : run info enableMultiWrites s steps = some s') : Inv info s' := by
  induction steps generalizing s with
  | nil =>
    cases hrun
    exact h
  | cons next steps ih =>
    obtain ⟨s₁, hstep, hrun⟩ := Option.bind_eq_some_iff.mp hrun
    exact ih (h.step hcycle hsmall hallowed.1 hstep) (hallowed.2 s₁ hstep) hrun

/-- In any run of a sequence that does not cycle, the sequence and the undo records are at positions. -/
def AtPositions (info : SequenceInfo) (s : SequenceSystem) : Prop :=
  (∃ p ≤ info.numValues, s.sequence = info.stateAt p) ∧
    ∀ id undo failed, s.txn id = .active undo failed →
      ∀ record ∈ undo, ∃ p ≤ info.numValues, record = info.stateAt p

theorem AtPositions.step {next : SequenceStep} (hcycle : info.cycle = false)
    (hsmall : info.numValues < 2 ^ 64) (h : AtPositions info s)
    (hstep : s.step info enableMultiWrites next = some s') : AtPositions info s' := by
  obtain ⟨⟨p, hp, hseq⟩, hrecords⟩ := h
  -- The records of the other transactions stay.
  have hupdate {txn : Nat → SequenceTxn} {id : Nat} {t : SequenceTxn} (htxn : txn = update s.txn id t)
      (hnew : ∀ undo failed, t = .active undo failed →
        ∀ record ∈ undo, ∃ p ≤ info.numValues, record = info.stateAt p) (id' : Nat)
      (undo : List SequenceState) (failed : Bool) (hactive : txn id' = .active undo failed) :
      ∀ record ∈ undo, ∃ p ≤ info.numValues, record = info.stateAt p := by
    rw [htxn] at hactive
    by_cases hid' : id' = id
    · subst hid'
      rw [update_self] at hactive
      exact hnew undo failed hactive
    · rw [update_of_ne hid'] at hactive
      exact hrecords id' undo failed hactive
  cases next with
  | begin =>
    simp only [SequenceSystem.step] at hstep
    split at hstep
    · cases hstep
    cases hstep
    refine ⟨⟨p, hp, hseq⟩, hupdate rfl ?_⟩
    rintro undo failed ⟨⟩ record hrecord
    cases hrecord
  | commit id =>
    simp only [SequenceSystem.step] at hstep
    split at hstep
    · cases hstep
      exact ⟨⟨p, hp, hseq⟩, hupdate rfl fun _ _ hcontra => nomatch hcontra⟩
    · cases hstep
  | rollback id =>
    simp only [SequenceSystem.step] at hstep
    split at hstep
    · next undo failed hid =>
      cases hstep
      refine ⟨?_, hupdate rfl fun _ _ hcontra => nomatch hcontra⟩
      simp only [restore_eq]
      cases undo with
      | nil => exact ⟨p, hp, hseq⟩
      | cons record undo => exact hrecords id _ failed hid record mem_cons_self
    · cases hstep
  | draw id count =>
    simp only [SequenceSystem.step] at hstep
    split at hstep
    · next undo hid =>
      split at hstep
      · cases hstep
      rw [hseq, SequenceInfo.nextKVal_stateAt hcycle hsmall count hp] at hstep
      split at hstep
      · next sequence values heq =>
        cases hstep
        split at heq
        · next hle =>
          cases heq
          refine ⟨⟨p + count, hle, rfl⟩, hupdate rfl ?_⟩
          rintro _ failed ⟨⟩ record hrecord
          obtain hrecord | hrecord := mem_append.mp hrecord
          · exact hrecords id undo false hid record hrecord
          · exact ⟨p, hp, mem_singleton.mp hrecord⟩
        · cases heq
      · next sequence heq =>
        cases hstep
        split at heq
        · cases heq
        · cases heq
          refine ⟨⟨info.numValues, le_rfl, rfl⟩, hupdate rfl ?_⟩
          rintro _ failed ⟨⟩
          exact hrecords id undo false hid
    · cases hstep

theorem AtPositions.run (hcycle : info.cycle = false) (hsmall : info.numValues < 2 ^ 64)
    {steps : List SequenceStep} (h : AtPositions info s)
    (hrun : run info enableMultiWrites s steps = some s') : AtPositions info s' := by
  induction steps generalizing s with
  | nil =>
    cases hrun
    exact h
  | cons next steps ih =>
    obtain ⟨s₁, hstep, hrun⟩ := Option.bind_eq_some_iff.mp hrun
    exact ih (h.step hcycle hsmall hstep) hrun

theorem atPositions_init (info : SequenceInfo) : AtPositions info (init info) :=
  ⟨⟨0, Nat.zero_le _, info.initial_eq⟩, fun _ _ _ h => nomatch h⟩

theorem rollback_alone_iff (hsmall : info.cycle = true ∨ info.numValues < 2 ^ 64)
    (hposition : info.cycle = false → AtPositions info s) {counts : List Nat}
    (hrun : run info enableMultiWrites s (s.alone counts) = some s') :
    s'.sequence = s.sequence ↔ WholeDraws info s.sequence counts := by
  have hdraw := run_alone hrun
  by_cases hcycle : info.cycle = true
  · refine iff_of_true ?_ (.inl hcycle)
    obtain ⟨count, -, hnone, -⟩ | ⟨-, hsame⟩ := hdraw
    · have := info.nextKVal_isSome_of_cycle hcycle count s.sequence
      rw [hnone] at this
      cases this
    · exact hsame
  have hcycle : info.cycle = false := by simpa using hcycle
  have hsmall : info.numValues < 2 ^ 64 := hsmall.resolve_left (by simp [hcycle])
  obtain ⟨⟨p, hp, hseq⟩, -⟩ := hposition hcycle
  have hroom : info.numValues - s.sequence.usageCount = info.numValues - p := by
    rw [hseq]
    rfl
  unfold WholeDraws
  rw [hroom]
  simp only [hseq, SequenceInfo.nextKVal_stateAt hcycle hsmall _ hp] at hdraw ⊢
  obtain ⟨count, hhead, hnone, hend⟩ | ⟨hdrawn, hsame⟩ := hdraw
  · -- The first draw throws at the end of the sequence.
    have hmore : ¬ p + count ≤ info.numValues := fun hle => by simp [hle] at hnone
    rw [if_neg hmore] at hend
    rw [hend]
    constructor
    · intro heq
      have : info.numValues = p := congrArg SequenceState.usageCount heq
      exact .inr (.inl (by omega))
    · rintro (hcontra | hzero | hwhole)
      · rw [hcycle] at hcontra
        cases hcontra
      · rw [show info.numValues = p by omega]
      · have := hwhole count hhead
        omega
  · refine iff_of_true hsame (.inr (.inr fun count hhead => ?_))
    have hle : p + count ≤ info.numValues := by
      by_contra hnot
      exact hdrawn count hhead (by simp [hnot])
    omega

end Runs

end SequenceSystem

open SequenceSystem

/-- In any run, a transaction that rolls back with no other one involved leaves the sequence as it was iff
its first draw takes all its values or none. In a run of a sequence that does not cycle in which a
transaction only rolls back while all that was handed out since its first draw is its own or has been rolled
back, no value of a committed transaction is handed out again. -/
theorem sequence_atomic_when (info : SequenceInfo) (enableMultiWrites : Bool)
    (hsmall : info.cycle = true ∨ info.numValues < 2 ^ 64) (steps : List SequenceStep) (s : SequenceSystem)
    (hrun : run info enableMultiWrites (init info) steps = some s) :
    (∀ counts s', run info enableMultiWrites s (s.alone counts) = some s' →
      (s'.sequence = s.sequence ↔ WholeDraws info s.sequence counts)) ∧
    (info.cycle = false → AllAllowed info enableMultiWrites (init info) steps → s.NoReuse) := by
  refine ⟨fun counts s' hrun' => ?_, fun hcycle hallowed => ?_⟩
  · refine rollback_alone_iff hsmall (fun hcycle => ?_) hrun'
    exact (atPositions_init info).run hcycle (hsmall.resolve_left (by simp [hcycle])) hrun
  · have hinv := (inv_init info).run hcycle (hsmall.resolve_left (by simp [hcycle])) hallowed hrun
    refine hinv.fresh.imp fun hfresh hcommitted => hfresh ?_
    rw [hcommitted]
    exact fun hcontra => nomatch hcontra

/-- The sequence from 1 to 3. -/
def oneToThree : SequenceInfo where
  startWith := 1
  increment := 1
  minValue := 1
  maxValue := 3
  cycle := false
  increment_ne_zero := by decide
  min_le_start := by decide
  start_le_max := by decide
  int64_min := by decide
  int64_max := by decide

/-- Two transactions draw one value each; the second one rolls back, and the first one commits. -/
def twoWriters : List SequenceStep :=
  [.begin, .begin, .draw 1 1, .draw 2 1, .rollback 2, .commit 1]

/-- Where the two transactions lead. -/
def afterTwoWriters : SequenceSystem :=
  (run oneToThree true (init oneToThree) twoWriters).getD (init oneToThree)

theorem sequence_atomic_twoWriters :
    (run oneToThree true (init oneToThree) twoWriters).isSome ∧ afterTwoWriters.NoReuse ∧
      ∀ s', run oneToThree true afterTwoWriters (afterTwoWriters.alone [2, 5]) = some s' →
        s'.sequence = afterTwoWriters.sequence := by
  have hatomic := sequence_atomic_when oneToThree true (.inr (by decide)) twoWriters afterTwoWriters rfl
  refine ⟨rfl, hatomic.2 rfl ?_, fun s' hrun => (hatomic.1 [2, 5] s' hrun).mpr ?_⟩
  · refine ⟨trivial, ?_⟩
    rintro _ ⟨⟩
    refine ⟨trivial, ?_⟩
    rintro _ ⟨⟩
    refine ⟨trivial, ?_⟩
    rintro _ ⟨⟩
    refine ⟨trivial, ?_⟩
    rintro _ ⟨⟩
    -- Only the second transaction has drawn since its first draw.
    refine ⟨by unfold Allowed; decide, ?_⟩
    rintro _ ⟨⟩
    exact ⟨trivial, fun _ _ => trivial⟩
  · refine .inr (.inr ?_)
    decide

/-- A draw of more values than there are is not taken back. A rollback takes back what another transaction
has drawn and committed since. -/
theorem sequence_not_atomic :
    (run oneToThree false (init oneToThree) ((init oneToThree).alone [5])).map (·.sequence) =
      some ⟨3, 3⟩ ∧
    (init oneToThree).sequence = ⟨0, 1⟩ ∧
    ∃ s, run oneToThree true (init oneToThree)
      [.begin, .begin, .draw 1 1, .draw 2 1, .commit 2, .rollback 1, .begin, .draw 3 2] = some s ∧
        s.handed = [(1, 1), (2, 2), (3, 1), (3, 2)] ∧ s.txn 2 = .committed ∧ ¬ s.NoReuse := by
  unfold NoReuse
  decide

end CycleJoin
