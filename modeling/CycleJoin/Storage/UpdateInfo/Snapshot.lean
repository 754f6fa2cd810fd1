import CycleJoin.Storage.UpdateInfo.Chain

/-!
# Snapshots of concurrent writers

With `enableMultiWrites` several write transactions are active at once. Each should read its own
updates over the state at its start, and an update should fail if and only if another transaction
has changed the row in the meantime. A new version is a copy of the newest one, whoever wrote it, and
only the newest version is searched for conflicts, so this needs writers that take turns on a vector.

* `Traced`: a run with a log of what was written and committed. `snapshotRead` and `Conflicting`
  say from the log what a transaction should read and when its update should fail.
* `TakesTurns`: the condition on a step.
* `SnapshotInv`: the versions of a chain are the states after the commits of the log, with at most one
  uncommitted version on top.
* `SnapshotInv.reads`, `SnapshotInv.throws_iff`: with the invariant, reads and conflicts are right.
-/

namespace CycleJoin

open List

variable {V : Type}

/-! ## Rows of a version -/

theorem VectorUpdateInfo.hasRow_iff {x : VectorUpdateInfo V} {row : Nat} :
    x.hasRow row = true ↔ (x.lookup row).isSome := by
  simp [hasRow, lookup]

theorem find?_writeRow (row r : Nat) (value : V) (rows : List (Nat × V)) :
    ((writeRow row value rows).find? (·.1 = r)).map (·.2) =
      if r = row then some value else (rows.find? (·.1 = r)).map (·.2) := by
  induction rows with
  | nil => by_cases h : row = r <;> simp [writeRow, eq_comm]
  | cons head rows ih =>
    obtain ⟨r', v⟩ := head
    by_cases hr' : r' = row
    · subst hr'
      by_cases h : r' = r
      · simp [writeRow, h]
      · simp [writeRow, h, Ne.symm h]
    · rw [writeRow, if_neg hr']
      by_cases h : r' = r
      · subst h
        simp [hr']
      · simpa [h] using ih

/-! ## The log of a run -/

/-- A logged update. -/
structure LoggedWrite (V : Type) where
  vectorIdx : Nat
  row : Nat
  value : V

/-- The updates of a committed transaction, the last one first. -/
structure LoggedCommit (V : Type) where
  commitTS : Nat
  writes : List (LoggedWrite V)

/-- The last value that is written to a row. -/
def lastWrite (writes : List (LoggedWrite V)) (v row : Nat) : Option V :=
  (writes.find? fun w => w.vectorIdx = v ∧ w.row = row).map (·.value)

/-- The value of a row after the commits up to a timestamp, for commits from the last to the first. -/
def committedRead (ts v row : Nat) : List (LoggedCommit V) → Option V
  | [] => none
  | c :: cs =>
    if c.commitTS ≤ ts then (lastWrite c.writes v row).or (committedRead ts v row cs)
    else committedRead ts v row cs

/-- A system with a log: the updates of each active transaction and the commits, the last ones
first. -/
structure Traced (V : Type) where
  sys : UpdateSystem V
  writes : Nat → List (LoggedWrite V)
  committed : List (LoggedCommit V)

namespace Traced

def init : Traced V := ⟨.init, fun _ => [], []⟩

section
variable (tr : Traced V) (t : Transaction) (v row : Nat)

/-- What a transaction should read: its own last update of the row, or else the value after the
commits up to its start. -/
def snapshotRead : Option V :=
  (lastWrite (tr.writes t.id) v row).or (committedRead t.startTS v row tr.committed)

/-- Another transaction, uncommitted or committed after the start of `t`, has written the row. -/
def Conflicting : Prop :=
  (∃ t' ∈ tr.sys.activeTransactions, t'.id ≠ t.id ∧ (lastWrite (tr.writes t'.id) v row).isSome) ∨
  ∃ c ∈ tr.committed, t.startTS < c.commitTS ∧ (lastWrite c.writes v row).isSome

/-- The update throws a write-write conflict. -/
def Throws (value : V) : Prop :=
  tr.sys.info.update t v row value = some (.error writeWriteConflict)

end

/-- Logs an event of an active transaction, which leads to the state `s`. -/
def log (tr : Traced V) (s : UpdateSystem V) (t : ActiveTransaction) : UpdateEvent V → Traced V
  | .begin => { tr with sys := s }
  | .update id v row value =>
    match tr.sys.info.update t.toTransaction v row value with
    | some (.ok _) =>
      { tr with sys := s, writes := Function.update tr.writes id (⟨v, row, value⟩ :: tr.writes id) }
    | _ => { tr with sys := s }
  | .commit id =>
    ⟨s, Function.update tr.writes id [], ⟨s.lastTimestamp, tr.writes id⟩ :: tr.committed⟩
  | .rollback id => { tr with sys := s, writes := Function.update tr.writes id [] }

def eventID : UpdateEvent V → Option Nat
  | .begin => none
  | .update id _ _ _ => some id
  | .commit id => some id
  | .rollback id => some id

/-- A step with concurrent writers, logged. -/
def step (tr : Traced V) (e : UpdateEvent V) : Option (Traced V) :=
  (tr.sys.step true e).map fun s =>
    match (eventID e).bind tr.sys.active? with
    | some t => tr.log s t e
    | none => { tr with sys := s }

/-- A step at which the writers of a vector take turns: an update that does not conflict finds no
version of another transaction that is not visible to it, and no pointer to a rolled back version.
Timestamps stay below the IDs. -/
def TakesTurns (tr : Traced V) : UpdateEvent V → Prop
  | .update id v row _ => ∀ t, tr.sys.active? id = some t →
      tr.Conflicting t.toTransaction v row ∨ ∀ x ∈ (tr.sys.info.vectorsInfo v).head?,
          x.version = t.id ∨ (x.version ≤ t.startTS ∧ x.next = none)
  | .commit _ => tr.sys.lastTimestamp + 1 < startTransactionID
  | _ => True

/-- Every active transaction reads its snapshot. -/
def ReadsSnapshots (tr : Traced V) : Prop :=
  ∀ t ∈ tr.sys.activeTransactions, ∀ v row,
    tr.sys.info.read t.toTransaction v row = tr.snapshotRead t.toTransaction v row

/-- An update throws if and only if it conflicts. -/
def ThrowsIffConflicting (tr : Traced V) : UpdateEvent V → Prop
  | .update id v row value => ∀ t, tr.sys.active? id = some t →
      (tr.Throws t.toTransaction v row value ↔ tr.Conflicting t.toTransaction v row)
  | _ => True

/-! ## Reading the log -/

section Reads

variable {cs : List (LoggedCommit V)} {v row a b : Nat}

theorem committedRead_congr (h : ∀ c ∈ cs, (lastWrite c.writes v row).isSome →
    (c.commitTS ≤ a ↔ c.commitTS ≤ b)) : committedRead a v row cs = committedRead b v row cs := by
  induction cs with
  | nil => rfl
  | cons c cs ih =>
    have ih := ih fun c' hc' => h c' (mem_cons_of_mem c hc')
    cases hw : lastWrite c.writes v row with
    | none => simp [committedRead, hw, ih]
    | some value => simp [committedRead, ih, h c mem_cons_self (by simp [hw])]

theorem committedRead_isSome {c : LoggedCommit V} (hc : c ∈ cs) (hts : c.commitTS ≤ a)
    (hw : (lastWrite c.writes v row).isSome) : (committedRead a v row cs).isSome := by
  induction cs with
  | nil => cases hc
  | cons c' cs ih =>
    rw [committedRead]
    rcases mem_cons.mp hc with rfl | hc
    · simp [hts, hw]
    · split <;> simp [ih hc]

theorem committedRead_eq_none (h : ∀ c ∈ cs, ¬ (c.commitTS ≤ a ∧ (lastWrite c.writes v row).isSome)) :
    committedRead a v row cs = none := by
  induction cs with
  | nil => rfl
  | cons c cs ih =>
    have hc := h c mem_cons_self
    rw [committedRead, ih fun c' hc' => h c' (mem_cons_of_mem c hc')]
    split
    · next hts => simpa [hts] using hc
    · rfl

theorem committedRead_cons_of_lt {c : LoggedCommit V} (h : a < c.commitTS) :
    committedRead a v row (c :: cs) = committedRead a v row cs := if_neg (by omega)

end Reads

/-! ## The invariant -/

/-- The committed versions of a vector: each is the state after the commits up to it, and each commit
that has written the vector has one. -/
structure Settled (tr : Traced V) (v : Nat) (chain : Chain V) : Prop where
  le : ∀ x ∈ chain, x.version ≤ tr.sys.lastTimestamp
  sorted : chain.Pairwise fun x y => y.version < x.version
  lookup : ∀ x ∈ chain, ∀ row, x.lookup row = committedRead x.version v row tr.committed
  complete : ∀ c ∈ tr.committed, ∀ row, (lastWrite c.writes v row).isSome →
    ∃ x ∈ chain, x.version = c.commitTS

/-- The transaction has not updated the vector. -/
structure Untouched (tr : Traced V) (t : ActiveTransaction) (v : Nat) : Prop where
  writes : ∀ row, lastWrite (tr.writes t.id) v row = none
  records : ∀ r ∈ t.undoBuffer, r.vectorIdx ≠ v

/-- The version of an active transaction over the committed ones. -/
structure OnTop (tr : Traced V) (v : Nat) (t : ActiveTransaction) (x : VectorUpdateInfo V)
    (chain : Chain V) : Prop where
  version : x.version = t.id
  next : x.next = none
  le : ∀ y ∈ chain, y.version ≤ t.startTS
  lookup : ∀ row, x.lookup row = tr.snapshotRead t.toTransaction v row
  recorded : ∃ r ∈ t.undoBuffer, r.vectorIdx = v
  records : ∀ r ∈ t.undoBuffer, r.vectorIdx = v → r.vectorUpdateInfo = x.addr

/-- The versions of a vector are committed, except for the newest one, which may be of the one active
transaction that has updated the vector. -/
inductive VectorInv (tr : Traced V) (v : Nat) : Prop
  | settled (h : Settled tr v (tr.sys.info.vectorsInfo v))
      (hu : ∀ t ∈ tr.sys.activeTransactions, Untouched tr t v)
  | written (x : VectorUpdateInfo V) (chain : Chain V) (t : ActiveTransaction)
      (ht : t ∈ tr.sys.activeTransactions) (hc : tr.sys.info.vectorsInfo v = x :: chain)
      (h : Settled tr v chain) (htop : OnTop tr v t x chain)
      (hu : ∀ t' ∈ tr.sys.activeTransactions, t'.id ≠ t.id → Untouched tr t' v)

/-- What holds between the steps of concurrent writers that take turns. -/
structure SnapshotInv (tr : Traced V) : Prop where
  distinct : ∀ v, (tr.sys.info.vectorsInfo v).Distinct
  fresh : ∀ v, ∀ x ∈ tr.sys.info.vectorsInfo v, x.addr < tr.sys.info.nextAddr
  ids : (tr.sys.activeTransactions.map (·.id)).Nodup
  lt_id : ∀ t ∈ tr.sys.activeTransactions, startTransactionID < t.id
  id_le : ∀ t ∈ tr.sys.activeTransactions, t.id ≤ tr.sys.lastTransactionID
  startTS_le : ∀ t ∈ tr.sys.activeTransactions, t.startTS ≤ tr.sys.lastTimestamp
  lt_start : tr.sys.lastTimestamp < startTransactionID
  start_le : startTransactionID ≤ tr.sys.lastTransactionID
  commitTS_le : ∀ c ∈ tr.committed, c.commitTS ≤ tr.sys.lastTimestamp
  writes_new : ∀ id, tr.sys.lastTransactionID < id → tr.writes id = []
  vector : ∀ v, VectorInv tr v

theorem snapshotInv_init : SnapshotInv (init : Traced V) := by
  have hchain (v : Nat) : (init : Traced V).sys.info.vectorsInfo v = [] := rfl
  have hact : (init : Traced V).sys.activeTransactions = [] := rfl
  have hcomm : (init : Traced V).committed = [] := rfl
  refine ⟨fun v => nodup_nil, fun v x hx => ?_, nodup_nil, ?_, ?_, ?_, ?_, ?_,
    ?_, fun _ _ => rfl, fun v => .settled ⟨?_, ?_, ?_, ?_⟩ ?_⟩
  · simp [hchain] at hx
  case refine_5 => exact (by decide : 1 < startTransactionID)
  case refine_6 => exact Nat.le_refl startTransactionID
  all_goals simp [hchain, hact, hcomm]

/-! ## Reads -/

variable {tr : Traced V} {v : Nat} {t : ActiveTransaction}

/-- The newest committed version up to a timestamp has the rows as they were then. -/
theorem Settled.find? {chain : Chain V} (h : Settled tr v chain) (ts row : Nat) :
    (chain.find? (·.version ≤ ts)).bind (·.lookup row) = committedRead ts v row tr.committed := by
  cases hx : chain.find? (·.version ≤ ts) with
  | none =>
    rw [find?_eq_none] at hx
    refine (committedRead_eq_none fun c hc hcw => ?_).symm
    obtain ⟨x, hx', heq⟩ := h.complete c hc row hcw.2
    exact hx x hx' (by simpa [heq] using hcw.1)
  | some x =>
    obtain ⟨hle, l, l', rfl, hl⟩ := find?_eq_some_iff_append.mp hx
    have hle : x.version ≤ ts := by simpa using hle
    rw [Option.bind_some, h.lookup x (by simp)]
    refine committedRead_congr fun c hc hw => ⟨fun hcx => hcx.trans hle, fun hcts => ?_⟩
    -- a commit up to the timestamp has a version, which comes at `x` or after it
    obtain ⟨y, hy, heq⟩ := h.complete c hc row hw
    rw [← heq] at hcts ⊢
    rcases mem_append.mp hy with hy | hy
    · exact absurd hcts (by simpa using hl y hy)
    · rcases mem_cons.mp hy with rfl | hy
      · exact Nat.le_refl _
      · exact (rel_of_pairwise_cons (pairwise_append.mp h.sorted).2.1 hy).le

theorem SnapshotInv.getVectorInfo_settled (h : SnapshotInv tr) (ht : t ∈ tr.sys.activeTransactions)
    {chain : Chain V} (hs : Settled tr v chain) :
    chain.getVectorInfo t.toTransaction = chain.find? (·.version ≤ t.startTS) := by
  refine find?_congr fun x hx => ?_
  have h1 := hs.le x hx
  have h2 := h.lt_start
  have h3 := h.lt_id t ht
  simp only [decide_eq_decide]
  omega

theorem SnapshotInv.reads (h : SnapshotInv tr) : tr.ReadsSnapshots := by
  intro t ht v row
  rw [UpdateInfo.read]
  have huntouched (hu : Untouched tr t v) : tr.snapshotRead t.toTransaction v row =
      committedRead t.startTS v row tr.committed := by
    rw [snapshotRead, hu.writes, Option.none_or]
  cases h.vector v with
  | settled hs hu => rw [h.getVectorInfo_settled ht hs, hs.find?, huntouched (hu t ht)]
  | written x chain t' ht' hc hs htop hu =>
    rw [hc]
    by_cases hid : t'.id = t.id
    · have heq : t' = t := inj_on_of_nodup_map h.ids ht' ht hid
      subst heq
      simp [Chain.getVectorInfo, htop.version, htop.lookup]
    · have h1 := h.startTS_le t ht
      have h2 := h.lt_start
      have h3 := h.lt_id t' ht'
      have hskip : Chain.getVectorInfo t.toTransaction (x :: chain) = chain.getVectorInfo t.toTransaction := by
        refine find?_cons_of_neg ?_
        rw [htop.version]
        simp only [decide_eq_true_eq]
        omega
      rw [hskip, h.getVectorInfo_settled ht hs, hs.find?, huntouched (hu t ht (Ne.symm hid))]

/-! ## Updates -/

theorem lastWrite_cons (w : LoggedWrite V) (ws : List (LoggedWrite V)) (v row : Nat) : lastWrite (w :: ws) v row =
      if w.vectorIdx = v ∧ w.row = row then some w.value else lastWrite ws v row := by
  simp only [lastWrite]
  split <;> simp_all

/-- What an update does, when the writers take turns: it conflicts and throws, writes to its version
on top, or puts a version on top of versions that are all visible to it. -/
inductive UpdateOutcome (tr : Traced V) (t : ActiveTransaction) (v row : Nat) (value : V) : Prop
  | conflict (hc : tr.Conflicting t.toTransaction v row)
      (hu : tr.Throws t.toTransaction v row value)
  | own (hc : ¬ tr.Conflicting t.toTransaction v row) (x : VectorUpdateInfo V) (chain : Chain V)
      (hchain : tr.sys.info.vectorsInfo v = x :: chain) (h : Settled tr v chain)
      (htop : OnTop tr v t x chain)
      (hothers : ∀ t' ∈ tr.sys.activeTransactions, t'.id ≠ t.id → Untouched tr t' v)
      (hu : tr.sys.info.update t.toTransaction v row value = some (.ok
        ({ tr.sys.info.setChain v (x.write row value :: chain) with
            nextAddr := tr.sys.info.nextAddr + 1 }, x.addr)))
  | push (hc : ¬ tr.Conflicting t.toTransaction v row)
      (h : Settled tr v (tr.sys.info.vectorsInfo v))
      (hle : ∀ x ∈ tr.sys.info.vectorsInfo v, x.version ≤ t.startTS)
      (hothers : ∀ t' ∈ tr.sys.activeTransactions, Untouched tr t' v)
      (hu : tr.sys.info.update t.toTransaction v row value = some (.ok ({ tr.sys.info.setChain v
            (⟨tr.sys.info.nextAddr, t.id, writeRow row value (tr.sys.info.vectorsInfo v).topRows,
              none⟩ :: (tr.sys.info.vectorsInfo v).relink tr.sys.info.nextAddr) with
            nextAddr := tr.sys.info.nextAddr + 1 }, tr.sys.info.nextAddr)))

/-- A conflict at the newest version. -/
theorem throws_of_head {x : VectorUpdateInfo V} {chain : Chain V} {row : Nat} (value : V)
    (hc : tr.sys.info.vectorsInfo v = x :: chain) (hid : x.version ≠ t.id)
    (hts : t.startTS < x.version) (hr : (x.lookup row).isSome) :
    tr.Throws t.toTransaction v row value := by
  have hrow := VectorUpdateInfo.hasRow_iff.mpr hr
  simp [Throws, UpdateInfo.update, hc, Chain.getOrCreate_conflict hid hts hrow]

/-- The newest committed version is the last. -/
theorem Settled.le_head {x y : VectorUpdateInfo V} {chain : Chain V} (h : Settled tr v (x :: chain))
    (hy : y ∈ x :: chain) : y.version ≤ x.version := by
  rcases mem_cons.mp hy with rfl | hy
  · exact Nat.le_refl _
  · exact (rel_of_pairwise_cons h.sorted hy).le

theorem SnapshotInv.update_outcome (h : SnapshotInv tr) (ht : t ∈ tr.sys.activeTransactions)
    (v row : Nat) (value : V) (hturn : tr.Conflicting t.toTransaction v row ∨ ∀ x ∈ (tr.sys.info.vectorsInfo v).head?,
        x.version = t.id ∨ (x.version ≤ t.startTS ∧ x.next = none)) :
    UpdateOutcome tr t v row value := by
  have hts := h.startTS_le t ht
  have hlast := h.lt_start
  have hid := h.lt_id t ht
  cases h.vector v with
  | settled hs hu =>
    by_cases hconf : tr.Conflicting t.toTransaction v row
    · refine .conflict hconf ?_
      rcases hconf with ⟨t', ht', -, hw⟩ | ⟨c, hc, hlt, hw⟩
      · simp [(hu t' ht').writes] at hw
      · obtain ⟨y, hy, heq⟩ := hs.complete c hc row hw
        cases hchain : tr.sys.info.vectorsInfo v with
        | nil => simp [hchain] at hy
        | cons x chain =>
          rw [hchain] at hs hy
          have hle := hs.le_head hy
          have hx := hs.le x mem_cons_self
          refine throws_of_head value hchain (by omega) (by omega) ?_
          rw [hs.lookup x mem_cons_self]
          exact committedRead_isSome hc (by omega) hw
    · have hvis : ∀ x ∈ (tr.sys.info.vectorsInfo v).head?, x.version ≤ t.startTS ∧ x.next = none := by
        intro x hx
        have hle := hs.le x (mem_of_mem_head? hx)
        exact (hturn.resolve_left hconf x hx).resolve_left (by omega)
      rcases tr.sys.info.update_cases t.toTransaction v row value (h.distinct v) (h.fresh v)
        fun x hx => (hvis x hx).2 with ⟨-, x, chain, hchain, -, hgt, -⟩ | ⟨x, chain, hchain, hv, -⟩ | ⟨-, hu'⟩
      · have := (hvis x (by simp [hchain])).1
        omega
      · have := (hvis x (by simp [hchain])).1
        omega
      · refine .push hconf hs (fun x hx => ?_) hu hu'
        cases hchain : tr.sys.info.vectorsInfo v with
        | nil => simp [hchain] at hx
        | cons y chain =>
          rw [hchain] at hs hx hvis
          exact (hs.le_head hx).trans (hvis y rfl).1
  | written x chain t' ht' hchain hs htop hu =>
    have hid' := h.lt_id t' ht'
    by_cases heq : t'.id = t.id
    · have heq : t' = t := inj_on_of_nodup_map h.ids ht' ht heq
      subst heq
      have hconf : ¬ tr.Conflicting t'.toTransaction v row := by
        rintro (⟨t, ht, hne, hw⟩ | ⟨c, hc, hlt, hw⟩)
        · simp [(hu t ht hne).writes] at hw
        · obtain ⟨y, hy, heq⟩ := hs.complete c hc row hw
          have := htop.le y hy
          omega
      rcases tr.sys.info.update_cases t'.toTransaction v row value (h.distinct v) (h.fresh v)
        (by simp [hchain, htop.next]) with ⟨-, y, rest, hy, hne, -⟩ | ⟨y, rest, hy, -, hu'⟩ | ⟨hne, -⟩
      · rw [hchain] at hy
        cases hy
        exact absurd htop.version hne
      · rw [hchain] at hy
        cases hy
        exact .own hconf x chain hchain hs htop hu hu'
      · exact absurd htop.version (hne x (by simp [hchain])).1
    · have hver := htop.version
      have hconf := hturn.resolve_right fun hvis => by
        rcases hvis x (by simp [hchain]) with hv | ⟨hv, -⟩ <;> omega
      refine .conflict hconf (throws_of_head value hchain (by omega) (by omega) ?_)
      rw [htop.lookup, snapshotRead]
      rcases hconf with ⟨t'', ht'', hne, hw⟩ | ⟨c, hc, hlt, hw⟩
      · by_cases hid'' : t''.id = t'.id
        · rw [hid''] at hw
          simp [hw]
        · simp [(hu t'' ht'' hid'').writes] at hw
      · obtain ⟨y, hy, heq⟩ := hs.complete c hc row hw
        have := htop.le y hy
        simp [committedRead_isSome hc (by omega : c.commitTS ≤ t'.startTS) hw]

theorem SnapshotInv.throws_iff (h : SnapshotInv tr) (e : UpdateEvent V) (hturn : tr.TakesTurns e) :
    tr.ThrowsIffConflicting e := by
  cases e with
  | update id v row value =>
    intro t ht
    have hmem := mem_of_find?_eq_some ht
    cases h.update_outcome hmem v row value (hturn t ht) with
    | conflict hc hu => exact iff_of_true hu hc
    | own hc x chain _ _ _ _ hu => exact iff_of_false (by simp [Throws, hu]) hc
    | push hc _ _ _ hu => exact iff_of_false (by simp [Throws, hu]) hc
  | _ => trivial

end Traced
end CycleJoin
