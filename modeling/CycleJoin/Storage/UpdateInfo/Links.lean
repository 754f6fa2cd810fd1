import CycleJoin.Storage.UpdateInfo.Chain

/-!
# The links of a chain

With one write transaction at a time, the chains should stay doubly linked lists. A rollback that
removes the newest version of a chain does not reset `next` of the version below it, which then points
to a freed version.

* `Linked`, `WellLinked`: the chain is a doubly linked list.
* `step_linked`: a step keeps the links, if a rollback only removes versions that are alone in their
  chains.
* `staysLinked_iff`: the links are right after every step if and only if all rollbacks are such.
-/

namespace CycleJoin

open List Option

variable {V : Type}

namespace Chain

/-- The head's `next` is null, `next` of each `prev` points back, and `next` points to live versions
only. -/
structure WellLinked (chain : Chain V) : Prop where
  head_next : ∀ x, chain[0]? = some x → x.next = none
  prev_next : ∀ i x y, chain[i]? = some x → chain[i + 1]? = some y → y.next = some x.addr
  next_live : ∀ x ∈ chain, ∀ a, x.next = some a → ∃ y ∈ chain, y.addr = a

/-- The chain is linked below a version at the address `above`. -/
def Linked (above : Option Nat) : Chain V → Prop
  | [] => True
  | x :: rest => x.next = above ∧ Linked (some x.addr) rest

variable {x : VectorUpdateInfo V} {rest chain : Chain V} {above : Option Nat}

theorem Linked.getElem? (h : Linked above chain) (i : Nat) (x y : VectorUpdateInfo V)
    (hx : chain[i]? = some x) (hy : chain[i + 1]? = some y) : y.next = some x.addr := by
  induction chain generalizing above i with
  | nil => cases hx
  | cons z rest ih =>
    cases i with
    | zero =>
      cases hx
      cases rest with
      | nil => cases hy
      | cons w rest =>
        cases hy
        exact h.2.1
    | succ i => exact ih h.2 i hx hy

theorem Linked.next_live (h : Linked above chain) (hx : x ∈ chain) {a : Nat}
    (ha : x.next = some a) : some a = above ∨ ∃ y ∈ chain, y.addr = a := by
  induction chain generalizing above with
  | nil => cases hx
  | cons z rest ih =>
    rcases mem_cons.mp hx with rfl | hx
    · exact .inl (ha.symm.trans h.1)
    · rcases ih h.2 hx with heq | ⟨y, hy, heq⟩
      · exact .inr ⟨z, mem_cons_self, (some.inj heq).symm⟩
      · exact .inr ⟨y, mem_cons_of_mem z hy, heq⟩

theorem linked_of_prev_next (hhead : ∀ x, chain[0]? = some x → x.next = above)
    (h : ∀ i x y, chain[i]? = some x → chain[i + 1]? = some y → y.next = some x.addr) :
    Linked above chain := by
  induction chain generalizing above with
  | nil => trivial
  | cons z rest ih =>
    refine ⟨hhead z rfl, ih (fun y hy => ?_) fun i x y hx hy => h (i + 1) x y hx hy⟩
    exact h 0 z y rfl hy

theorem wellLinked_iff : WellLinked chain ↔ Linked none chain := by
  constructor
  · exact fun h => linked_of_prev_next h.head_next h.prev_next
  · intro h
    refine ⟨fun x hx => ?_, h.getElem?, fun x hx a ha => ?_⟩
    · cases chain with
      | nil => cases hx
      | cons y rest =>
        cases hx
        exact h.1
    · rcases h.next_live hx ha with heq | hy
      · cases heq
      · exact hy

theorem Linked.relink (h : Linked above chain) (addr : Nat) : Linked (some addr) (chain.relink addr) := by
  cases chain with
  | nil => trivial
  | cons x rest => exact ⟨rfl, h.2⟩

theorem Linked.stampHead (h : Linked above chain) (ts : Nat) : Linked above (chain.stampHead ts) := by
  cases chain with
  | nil => trivial
  | cons x rest => exact h

end Chain

namespace UpdateSystem

open Chain

/-- What holds between the steps of one write transaction at a time. -/
structure LinkInv (s : UpdateSystem V) : Prop where
  distinct : ∀ v, (s.info.vectorsInfo v).Distinct
  fresh : ∀ v, ∀ x ∈ s.info.vectorsInfo v, x.addr < s.info.nextAddr
  linked : ∀ v, Linked none (s.info.vectorsInfo v)
  single : s.activeTransactions.length ≤ 1
  own : ∀ t ∈ s.activeTransactions, ∀ r ∈ t.undoBuffer,
    OwnTop t.toTransaction r.vectorUpdateInfo (s.info.vectorsInfo r.vectorIdx)

theorem LinkInv.init : LinkInv (init : UpdateSystem V) := by
  constructor <;> simp [UpdateSystem.init, UpdateInfo.empty, Distinct, Linked]

variable {s : UpdateSystem V} {id : Nat} {t : ActiveTransaction}

section
variable (h : LinkInv s)
include h

theorem LinkInv.active_eq (ht : s.active? id = some t) : s.activeTransactions = [t] ∧ t.id = id := by
  have hmem := mem_of_find?_eq_some ht
  have hid := find?_some ht
  have hlen := h.single
  match hact : s.activeTransactions with
  | [] => simp [hact] at hmem
  | [t'] => exact ⟨by simpa [hact, eq_comm] using hmem, by simpa using hid⟩
  | _ :: _ :: _ => simp [hact] at hlen

theorem LinkInv.next_eq_none (v : Nat) : ∀ x ∈ (s.info.vectorsInfo v).head?, x.next = none := by
  intro x hx
  have hl := h.linked v
  cases hc : s.info.vectorsInfo v with
  | nil => simp [hc] at hx
  | cons y rest =>
    rw [hc] at hx hl
    cases hx
    exact hl.1

theorem LinkInv.begin : LinkInv (s.beginTransaction false) := by
  unfold beginTransaction
  split
  · exact h
  · next hact =>
    have hact : s.activeTransactions = [] := by simpa using hact
    constructor
    · exact h.distinct
    · exact h.fresh
    · exact h.linked
    · simp [hact]
    · simp [hact]

theorem LinkInv.replace (hact : s.activeTransactions = [t]) {v : Nat}
    {x : VectorUpdateInfo V} {rest : Chain V} (hd : Distinct (x :: rest))
    (hf : ∀ y ∈ x :: rest, y.addr < s.info.nextAddr + 1) (hl : Linked none (x :: rest))
    (hv : x.version = t.id) (hold : ∀ r ∈ t.undoBuffer, r.vectorIdx = v → r.vectorUpdateInfo = x.addr) :
    LinkInv (pushRecord { s with info :=
      { s.info.setChain v (x :: rest) with nextAddr := s.info.nextAddr + 1 } } t.id ⟨v, x.addr⟩) := by
  have hchain (w : Nat) : (s.info.setChain v (x :: rest)).vectorsInfo w =
      if w = v then x :: rest else s.info.vectorsInfo w := by
    simp [Function.update_apply]
  constructor
  · intro w
    simp only [pushRecord, hchain]
    split
    · exact hd
    · exact h.distinct w
  · intro w
    simp only [pushRecord, hchain]
    split
    · exact hf
    · exact fun y hy => Nat.lt_succ_of_lt (h.fresh w y hy)
  · intro w
    simp only [pushRecord, hchain]
    split
    · exact hl
    · exact h.linked w
  · simp [pushRecord, hact]
  · have hown : OwnTop t.toTransaction x.addr (x :: rest) := ⟨x, rest, rfl, rfl, hv, hl.1⟩
    simp only [pushRecord, hact, map_cons, map_nil, if_true, mem_singleton, forall_eq, mem_append, hchain]
    rintro r (hr | rfl)
    · split
      · next hw => rwa [hold r hr hw]
      · exact h.own t (by simp [hact]) r hr
    · rwa [if_pos rfl]

theorem LinkInv.update (id v row : Nat) (value : V) :
    ∃ s', s.step false (.update id v row value) = some s' ∧ LinkInv s' := by
  cases ht : s.active? id with
  | none => exact ⟨s, by simp [step, ht], h⟩
  | some t =>
    obtain ⟨hact, rfl⟩ := h.active_eq ht
    have hl := h.linked v
    have hd := h.distinct v
    have hf := h.fresh v
    have hown := fun r hr => h.own t (by simp [hact]) r hr
    rcases s.info.update_cases t.toTransaction v row value hd hf (h.next_eq_none v) with
      ⟨hu, -⟩ | ⟨x, rest, hc, hv, hu⟩ | ⟨hne, hu⟩
    · exact ⟨s, by simp [step, ht, hu], h⟩
    · refine ⟨_, by simp only [step, ht, hu]; rfl, ?_⟩
      rw [hc] at hl hd hf
      refine h.replace hact (x := x.write row value) hd (fun y hy => ?_) hl hv fun r hr hw => ?_
      · exact Nat.lt_succ_of_lt (addr_lt_of_map_eq hf hy rfl)
      · obtain ⟨y, rest', heq, hy, -⟩ := hown r hr
        rw [hw, hc] at heq
        cases heq
        exact hy.symm
    · refine ⟨_, by simp only [step, ht, hu]; rfl, ?_⟩
      have hdp : Distinct _ := UpdateInfo.distinct_push (t := t.toTransaction) hd hf
      rw [push_eq] at hdp
      refine h.replace hact hdp (fun y hy => ?_) ⟨rfl, hl.relink _⟩ rfl fun r hr hw => ?_
      · rcases mem_cons.mp hy with rfl | hy
        · exact Nat.lt_succ_self _
        · exact Nat.lt_succ_of_lt (addr_lt_of_map_eq hf hy (map_addr_relink ..))
      · -- a transaction that has a record of the vector owns its newest version
        obtain ⟨y, rest', heq, -, hver, -⟩ := hown r hr
        rw [hw] at heq
        exact absurd hver (hne y (by simp [heq])).1

theorem LinkInv.commit (id : Nat) : ∃ s', s.step false (.commit id) = some s' ∧ LinkInv s' := by
  cases ht : s.active? id with
  | none => exact ⟨s, by simp [step, ht], h⟩
  | some t =>
    obtain ⟨hact, rfl⟩ := h.active_eq ht
    have hspec := UpdateInfo.commit_spec (s.lastTimestamp + 1) t.undoBuffer s.info h.distinct
      fun r hr => (h.own t (by simp [hact]) r hr).topAt
    refine ⟨_, by simp only [step, ht, hspec]; rfl, ?_⟩
    constructor
    · intro v
      simp only [clearTransaction]
      split
      · simpa only [Distinct, map_addr_stampHead] using h.distinct v
      · exact h.distinct v
    · intro v x hx
      simp only [clearTransaction] at hx ⊢
      split at hx
      · exact addr_lt_of_map_eq (h.fresh v) hx (map_addr_stampHead ..)
      · exact h.fresh v x hx
    · intro v
      simp only [clearTransaction]
      split
      · exact (h.linked v).stampHead _
      · exact h.linked v
    · simp [clearTransaction, hact]
    · simp [clearTransaction, hact]

theorem LinkInv.rollback_spec (ht : s.active? id = some t) :
    ∃ s', s.step false (.rollback id) = some s' ∧ s'.activeTransactions = [] ∧
      s'.info.nextAddr = s.info.nextAddr ∧ ∀ v, ((∃ r ∈ t.undoBuffer, r.vectorIdx = v) →
          s'.info.vectorsInfo v = (s.info.vectorsInfo v).tail) ∧
        ((¬ ∃ r ∈ t.undoBuffer, r.vectorIdx = v) → s'.info.vectorsInfo v = s.info.vectorsInfo v) := by
  obtain ⟨hact, rfl⟩ := h.active_eq ht
  have hown := fun r hr => h.own t (by simp [hact]) r hr
  obtain ⟨u, hu, hnext, hall⟩ := UpdateInfo.rollback_spec (t := t.toTransaction)
    t.undoBuffer.reverse s.info h.distinct fun r hr => .inl (hown r (mem_reverse.mp hr))
  refine ⟨_, by simp only [step, ht, hu]; rfl, by simp [clearTransaction, hact], hnext, fun v => ⟨?_, fun hno => ?_⟩⟩
  · rintro ⟨r, hr, rfl⟩
    exact (hall r.vectorIdx).1 ⟨r, mem_reverse.mpr hr, rfl, hown r hr⟩
  · exact (hall v).2 fun ⟨r, hr, hv, _⟩ => hno ⟨r, mem_reverse.mp hr, hv⟩

end

/-- A rollback only removes versions that are alone in their chains. -/
def RemovesAlone (s : UpdateSystem V) : UpdateEvent V → Prop
  | .rollback id => ∀ t, s.active? id = some t → ∀ r ∈ t.undoBuffer,
      (s.info.vectorsInfo r.vectorIdx).length = 1
  | _ => True

/-- The chains of all vectors are doubly linked lists. -/
def WellLinked (s : UpdateSystem V) : Prop := ∀ v, (s.info.vectorsInfo v).WellLinked

theorem LinkInv.wellLinked (h : LinkInv s) : s.WellLinked := fun v =>
  wellLinked_iff.mpr (h.linked v)

theorem LinkInv.rollback (h : LinkInv s) (id : Nat) (ha : s.RemovesAlone (.rollback id)) :
    ∃ s', s.step false (.rollback id) = some s' ∧ LinkInv s' := by
  cases ht : s.active? id with
  | none => exact ⟨s, by simp [step, ht], h⟩
  | some t =>
    obtain ⟨s', hs', hact, hnext, hall⟩ := h.rollback_spec ht
    have hchain (v : Nat) : s'.info.vectorsInfo v = [] ∨ s'.info.vectorsInfo v = s.info.vectorsInfo v := by
      by_cases hv : ∃ r ∈ t.undoBuffer, r.vectorIdx = v
      · obtain ⟨r, hr, rfl⟩ := hv
        have hlen := ha t ht r hr
        rw [(hall r.vectorIdx).1 ⟨r, hr, rfl⟩]
        exact .inl (eq_nil_of_length_eq_zero (by rw [length_tail, hlen]))
      · exact .inr ((hall v).2 hv)
    refine ⟨s', hs', ?_⟩
    constructor
    · intro v
      rcases hchain v with hv | hv <;> rw [hv]
      · exact nodup_nil
      · exact h.distinct v
    · intro v
      rw [hnext]
      rcases hchain v with hv | hv <;> rw [hv]
      · simp
      · exact h.fresh v
    · intro v
      rcases hchain v with hv | hv <;> rw [hv]
      · trivial
      · exact h.linked v
    · simp [hact]
    · simp [hact]

theorem step_linked (h : LinkInv s) (e : UpdateEvent V) (ha : s.RemovesAlone e) :
    ∃ s', s.step false e = some s' ∧ LinkInv s' := by
  cases e with
  | begin => exact ⟨_, rfl, h.begin⟩
  | update id v row value => exact h.update id v row value
  | commit id => exact h.commit id
  | rollback id => exact h.rollback id ha

/-- A rollback that removes a version from a longer chain leaves a pointer to it. -/
theorem step_not_linked (h : LinkInv s) (e : UpdateEvent V) (ha : ¬ s.RemovesAlone e) :
    ∃ s', s.step false e = some s' ∧ ¬ s'.WellLinked := by
  cases e with
  | rollback id =>
    simp only [RemovesAlone, not_forall] at ha
    obtain ⟨t, ht, r, hr, hlen⟩ := ha
    obtain ⟨s', hs', -, -, hall⟩ := h.rollback_spec ht
    refine ⟨s', hs', fun hw => ?_⟩
    have hl := h.linked r.vectorIdx
    have hl' := wellLinked_iff.mp (hw r.vectorIdx)
    rw [(hall r.vectorIdx).1 ⟨r, hr, rfl⟩] at hl'
    obtain ⟨x, rest, hc, -⟩ := h.own t (by simp [(h.active_eq ht).1]) r hr
    rw [hc] at hl hl' hlen
    cases rest with
    | nil => exact hlen rfl
    | cons y rest => exact absurd (hl'.1.symm.trans hl.2.1) (by simp)
  | _ => exact absurd trivial ha

/-! ## Whole runs -/

/-- The run has a result, and the chains are doubly linked lists before and after every step. -/
def StaysLinked (s : UpdateSystem V) : List (UpdateEvent V) → Prop
  | [] => s.WellLinked
  | e :: es => s.WellLinked ∧ ∃ s', s.step false e = some s' ∧ StaysLinked s' es

/-- All rollbacks of the run only remove versions that are alone in their chains. -/
def AlwaysRemovesAlone (s : UpdateSystem V) : List (UpdateEvent V) → Prop
  | [] => True
  | e :: es => s.RemovesAlone e ∧ ∀ s', s.step false e = some s' → AlwaysRemovesAlone s' es

theorem LinkInv.linked_iff (h : LinkInv s) (es : List (UpdateEvent V)) :
    s.StaysLinked es ↔ s.AlwaysRemovesAlone es := by
  induction es generalizing s with
  | nil => exact iff_of_true h.wellLinked trivial
  | cons e es ih =>
    by_cases ha : s.RemovesAlone e
    · obtain ⟨s', hs', h'⟩ := step_linked h e ha
      simp [StaysLinked, AlwaysRemovesAlone, hs', ha, h.wellLinked, ih h']
    · obtain ⟨s', hs', hw⟩ := step_not_linked h e ha
      refine iff_of_false ?_ fun hrun => ha hrun.1
      rintro ⟨-, s'', hs'', hrun⟩
      rw [hs'] at hs''
      cases hs''
      cases es with
      | nil => exact hw hrun
      | cons e es => exact hw hrun.1

/-- With one write transaction at a time, the chains are doubly linked lists after every step, and no
step follows a pointer to a freed version, if and only if each rollback only removes versions that
are alone in their chains. -/
theorem staysLinked_iff (es : List (UpdateEvent V)) :
    (init : UpdateSystem V).StaysLinked es ↔ (init : UpdateSystem V).AlwaysRemovesAlone es :=
  LinkInv.init.linked_iff es

theorem StaysLinked.run {es : List (UpdateEvent V)} (h : s.StaysLinked es) :
    ∃ s', s.run false es = some s' ∧ s'.WellLinked := by
  induction es generalizing s with
  | nil => exact ⟨s, rfl, h⟩
  | cons e es ih =>
    obtain ⟨-, s₁, hs₁, hrun⟩ := h
    obtain ⟨s', hs', hw⟩ := ih hrun
    exact ⟨s', by rw [run, hs₁, bind_some, hs'], hw⟩

/-- A transaction updates row 0 and commits, a second one updates it and rolls back. -/
def updateThenRollback : List (UpdateEvent Nat) :=
  [.begin, .update (startTransactionID + 1) 0 0 7, .commit (startTransactionID + 1),
    .begin, .update (startTransactionID + 2) 0 0 8, .rollback (startTransactionID + 2)]

/-- The version of the first transaction is left with a pointer to the freed version, and the update
of a third transaction follows it. -/
theorem updateThenRollback_not_linked : ¬ (init : UpdateSystem Nat).StaysLinked updateThenRollback ∧
      (init : UpdateSystem Nat).run false
        (updateThenRollback ++ [.begin, .update (startTransactionID + 3) 0 1 9]) = none := by
  refine ⟨fun h => ?_, isNone_iff_eq_none.mp (by decide +kernel)⟩
  obtain ⟨s, hs, hw⟩ := h.run
  have hnext : ((init : UpdateSystem Nat).run false updateThenRollback).map (fun s =>
      (s.info.vectorsInfo 0).map (·.next)) = some [some 1] := by decide +kernel
  rw [hs, map_some, some.injEq] at hnext
  obtain ⟨x, hx, hx'⟩ := map_eq_singleton_iff.mp hnext
  exact absurd ((hw 0).head_next x (by simp [hx])) (by simp [hx'])

end UpdateSystem
end CycleJoin
