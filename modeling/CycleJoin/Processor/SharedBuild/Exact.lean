import CycleJoin.Processor.SharedBuild.Run

/-!
# When the shared build is exact

The shared hash table should hold, for each bound node and each path, every end node of the path once
for each way to it. A probe whose neighbour has several tuples in its hash table makes the probes
above it ship their end nodes again.

* `ends`: the end nodes of a path.
* `count_total`: how often each end node is shipped.
* `storesExactly_iff`: the table is exact for a bound node when a path has no end node, or no probe
  that ships several times is below one that ships end nodes in the same step; and only then.
-/

namespace CycleJoin

open List

namespace SharedBuild

variable {n : Nat} {pl : Pipeline n} {bound : BoundNode n}

/-! ## The end nodes of a path -/

section
variable (pl : Pipeline n)

/-- The end nodes that the hash table of a path holds for a neighbour. -/
def endsOf (i : Fin n) (x : InternalID) : List InternalID :=
  ((pl.hashTable i).tuplesOf x).flatMap (·.payload)

/-- The end nodes of a path from a bound node, once for each way to them. -/
def ends (bound : BoundNode n) (i : Fin n) : List InternalID :=
  if pl.flattenScans i then (bound.batches i).flatten.flatMap (endsOf pl i)
  else (bound.batches i).flatten

/-- What the shared hash table should hold for a bound node: the end nodes of all paths, or nothing
if a path has no end node. -/
def StoresExactly (table : List (SharedTuple n)) (bound : BoundNode n) : Prop :=
  ((∃ i, ends pl bound i = []) → ∀ t ∈ table, t.key ≠ bound.key) ∧
  ((∀ i, ends pl bound i ≠ []) → ∀ i,
    ((table.filter (·.key = bound.key)).flatMap (·.payload i)).Perm (ends pl bound i))

/-- When two probes work on the `t`-th neighbours of the bound node, the lower one on one with
several tuples, the upper one has no end node. -/
def NoReplay (bound : BoundNode n) : Prop :=
  pl.probes.Pairwise fun j i => ∀ (t : Nat) (x y : InternalID),
    (bound.batches i).flatten[t]? = some x → (bound.batches j).flatten[t]? = some y →
      2 ≤ ((pl.hashTable i).tuplesOf x).length → endsOf pl j y = []

/-! ## What is shipped in a step -/

/-- The selections of the `t`-th step. -/
def selAt (bound : BoundNode n) (t : Nat) (i : Fin n) : List InternalID :=
  (itemsOf (pl.flattenScans i) (bound.batches i)).getD t []

end

theorem selAt_flat {i : Fin n} (hi : pl.flattenScans i = true) (t : Nat) :
    selAt pl bound t i = (bound.batches i).flatten[t]?.toList := by
  rw [selAt, hi, itemsOf, if_pos rfl, getD_eq_getElem?_getD, getElem?_map]
  cases (bound.batches i).flatten[t]? <;> rfl

/-- The end nodes of the `t`-th neighbour. -/
def endsAt (pl : Pipeline n) (bound : BoundNode n) (j : Fin n) (t : Nat) : List InternalID :=
  (bound.batches j).flatten[t]?.toList.flatMap (endsOf pl j)

theorem flatten_outsOf {j : Fin n} (hj : pl.flattenScans j = true) (t : Nat) :
    (outsOf pl (selAt pl bound t) j).flatten.Perm (endsAt pl bound j t) := by
  rw [outsOf, selAt_flat hj, endsAt]
  cases (bound.batches j).flatten[t]? with
  | none => exact .refl _
  | some y =>
    simp only [Option.toList_some, probeEmissions, flatten_emissions, probe_cons, flatMap_singleton]
    exact (reverse_perm _).flatMap_right _

/-- A probe ships once if its neighbour has at most one tuple. -/
theorem length_outsOf {i : Fin n} (hi : pl.flattenScans i = true) (t : Nat) :
    (outsOf pl (selAt pl bound t) i).length = 1 ↔
      ∀ x, (bound.batches i).flatten[t]? = some x → ((pl.hashTable i).tuplesOf x).length ≤ 1 := by
  rw [outsOf, selAt_flat hi]
  cases (bound.batches i).flatten[t]? with
  | none => simp [probeEmissions]
  | some y => simp [probeEmissions, length_emissions_eq_one_iff, probe_cons]

/-! ## All that is shipped -/

theorem flatMap_range_getD {α β : Type} (l : List α) (f : Option α → List β) (hf : f none = [])
    {m : Nat} (hm : l.length ≤ m) :
    (range m).flatMap (fun t => f l[t]?) = l.flatMap fun x => f (some x) := by
  induction l generalizing m with
  | nil => simp [hf]
  | cons x l ih =>
    obtain ⟨m, rfl⟩ : ∃ k, m = k + 1 := ⟨m - 1, by simp at hm; omega⟩
    rw [range_succ_eq_map, flatMap_cons, flatMap_map, flatMap_cons]
    simp only [getElem?_cons_zero, getElem?_cons_succ]
    rw [ih (by simpa using hm)]

theorem flatten_itemsOf_false (batches : List (List InternalID)) :
    (itemsOf false batches).flatten = batches.flatten := by
  induction batches with
  | nil => rfl
  | cons batch batches ih =>
    rw [itemsOf] at ih ⊢
    cases batch with
    | nil => simpa using ih
    | cons x batch => simpa using ih

/-- A path of one hop ships its neighbours. -/
theorem total_direct {total : Fin n → List InternalID} (h : Total pl bound total) {j : Fin n}
    (hj : pl.flattenScans j = false) : total j = ends pl bound j := by
  obtain ⟨m, hlen, rfl⟩ := h
  have hlen := hlen j
  have hmem : j ∉ pl.probes := by
    rw [pl.mem_probes, hj]
    simp
  have hstep (t : Nat) : collect j (stepWrites pl (selAt pl bound t)) =
      (itemsOf false (bound.batches j))[t]?.getD [] := by
    rw [stepWrites, collect_chainWrites_of_not_mem _ _ _ hmem, if_neg (by simp [hj]),
      Option.getD_some, selAt, hj, getD_eq_getElem?_getD]
  rw [hj] at hlen
  rw [ends, hj, ← flatten_itemsOf_false, flatten_eq_flatMap]
  exact (flatMap_congr fun t _ => hstep t).trans (flatMap_range_getD _ (fun item => item.getD []) rfl hlen)

section Flat

variable {total : Fin n → List InternalID} {j : Fin n} {above below : List (Fin n)} {m : Nat}

theorem length_itemsOf_flat (hj : pl.flattenScans j = true) :
    (itemsOf (pl.flattenScans j) (bound.batches j)).length = (bound.batches j).flatten.length := by
  rw [hj, itemsOf, if_pos rfl, length_map]

/-- A path of two hops ships the end nodes of a step once for every call of the chain below. -/
theorem count_total (hsplit : pl.probes = above ++ j :: below) (x : InternalID) :
    (shippedIn pl (fun i => itemsOf (pl.flattenScans i) (bound.batches i)) m j).count x =
      ∑ t ∈ Finset.range m, copies pl (selAt pl bound t) below * (endsAt pl bound j t).count x := by
  have hnd := pl.nodup
  have hj : pl.flattenScans j = true := by
    rw [← pl.mem_probes, hsplit]
    simp
  rw [hsplit] at hnd
  have hnot : j ∉ above := fun hmem => (nodup_append.mp hnd).2.2 j hmem j mem_cons_self rfl
  have hstep (t : Nat) : (collect j (stepWrites pl (selAt pl bound t))).count x =
      copies pl (selAt pl bound t) below * (endsAt pl bound j t).count x := by
    rw [stepWrites, hsplit, count_chainWrites_of_mem _ _ _ hnot, (flatten_outsOf hj t).count_eq]
  rw [shippedIn, count_flatMap]
  exact congrArg sum (map_congr_left fun t _ => hstep t)

theorem count_ends (hj : pl.flattenScans j = true) (hm : (bound.batches j).flatten.length ≤ m) (x : InternalID) :
    (ends pl bound j).count x = ∑ t ∈ Finset.range m, (endsAt pl bound j t).count x := by
  have hends : ends pl bound j = (range m).flatMap (endsAt pl bound j) := by
    rw [ends, if_pos hj]
    exact ((flatMap_range_getD _ (fun y => y.toList.flatMap (endsOf pl j)) rfl hm).trans (by simp)).symm
  rw [hends, count_flatMap]
  rfl

/-- The end nodes are shipped exactly once when, in each step, the chain below ships once or there
are no end nodes. -/
theorem perm_total_iff (hsplit : pl.probes = above ++ j :: below) (hm : (bound.batches j).flatten.length ≤ m) :
    (shippedIn pl (fun i => itemsOf (pl.flattenScans i) (bound.batches i)) m j).Perm (ends pl bound j) ↔
      ∀ t, copies pl (selAt pl bound t) below = 1 ∨ endsAt pl bound j t = [] := by
  have hj : pl.flattenScans j = true := by
    rw [← pl.mem_probes, hsplit]
    simp
  -- a term of the sum is never smaller than the term it should be
  have hle (x : InternalID) (t : Nat) : (endsAt pl bound j t).count x ≤
      copies pl (selAt pl bound t) below * (endsAt pl bound j t).count x :=
    Nat.le_mul_of_pos_left _ (copies_pos pl _ _)
  rw [perm_iff_count]
  simp only [count_total hsplit, count_ends hj hm]
  constructor
  · intro hsum t
    by_contra hboth
    push Not at hboth
    obtain ⟨hcopies, hne⟩ := hboth
    obtain ⟨x, rest, hx⟩ := exists_cons_of_ne_nil hne
    have hpos : 0 < (endsAt pl bound j t).count x := by simp [hx]
    have ht : t ∈ Finset.range m := by
      rw [Finset.mem_range]
      by_contra hge
      rw [endsAt, getElem?_eq_none (by omega)] at hne
      exact hne rfl
    have heq := (Finset.sum_eq_sum_iff_of_le fun t _ => hle x t).mp (hsum x).symm t ht
    exact hcopies (Nat.eq_of_mul_eq_mul_right hpos (by rw [← heq, one_mul]))
  · intro hstep x
    refine Finset.sum_congr rfl fun t _ => ?_
    rcases hstep t with h | h
    · rw [h, one_mul]
    · rw [h, count_nil, mul_zero]

/-- A path ships nothing if and only if it has no end node. -/
theorem total_eq_nil_iff (h : Total pl bound total) (j : Fin n) : total j = [] ↔ ends pl bound j = [] := by
  by_cases hj : pl.flattenScans j = true
  · obtain ⟨m, hlen, rfl⟩ := h
    obtain ⟨above, below, hsplit⟩ := append_of_mem ((pl.mem_probes j).mpr hj)
    have hm := hlen j
    rw [length_itemsOf_flat hj] at hm
    have hmem (x : InternalID) : (shippedIn pl
        (fun i => itemsOf (pl.flattenScans i) (bound.batches i)) m j).count x = 0 ↔
          (ends pl bound j).count x = 0 := by
      rw [count_total hsplit, count_ends hj hm, Finset.sum_eq_zero_iff, Finset.sum_eq_zero_iff]
      refine forall₂_congr fun t _ => ?_
      rw [mul_eq_zero, or_iff_right (copies_pos pl _ _).ne']
    simp only [count_eq_zero] at hmem
    rw [eq_nil_iff_forall_not_mem, eq_nil_iff_forall_not_mem]
    exact forall_congr' hmem
  · rw [total_direct h (by simpa using hj)]

end Flat

/-! ## The hash table -/

theorem pairwise_iff_split {α : Type} {R : α → α → Prop} {l : List α} :
    l.Pairwise R ↔ ∀ above j below, l = above ++ j :: below → ∀ i ∈ below, R j i := by
  induction l with
  | nil => simp
  | cons x l ih =>
    rw [pairwise_cons, ih]
    constructor
    · rintro ⟨hx, hl⟩ (_ | ⟨y, above⟩) j below ⟨⟩
      exacts [hx, hl above j below rfl]
    · intro h
      exact ⟨h [] x l rfl, fun above j below heq => h (x :: above) j below (by rw [heq]; rfl)⟩

/-- All paths ship exactly their end nodes if and only if nothing is replayed. -/
theorem forall_perm_iff {total : Fin n → List InternalID} (h : Total pl bound total) :
    (∀ j, (total j).Perm (ends pl bound j)) ↔ NoReplay pl bound := by
  rw [NoReplay, pairwise_iff_split]
  have hsteps (above : List (Fin n)) (j : Fin n) (below : List (Fin n))
      (hsplit : pl.probes = above ++ j :: below) : (total j).Perm (ends pl bound j) ↔
        ∀ i ∈ below, ∀ (t : Nat) (x y : InternalID), (bound.batches i).flatten[t]? = some x →
          (bound.batches j).flatten[t]? = some y → 2 ≤ ((pl.hashTable i).tuplesOf x).length → endsOf pl j y = [] := by
    have hflat (i : Fin n) (hi : i ∈ j :: below) : pl.flattenScans i = true := by
      rw [← pl.mem_probes, hsplit]
      exact mem_append_right _ hi
    obtain ⟨m, hlen, rfl⟩ := h
    have hm := hlen j
    rw [length_itemsOf_flat (hflat j mem_cons_self)] at hm
    rw [perm_total_iff hsplit hm]
    simp only [copies_eq_one_iff, endsAt]
    constructor
    · intro hstep i hi t x y hx hy hlen
      rcases hstep t with hone | hnil
      · have := (length_outsOf (hflat i (mem_cons_of_mem _ hi)) t).mp (hone i hi) x hx
        omega
      · simpa [hy] using hnil
    · intro hno t
      cases hy : (bound.batches j).flatten[t]? with
      | none => exact .inr rfl
      | some y =>
        by_cases hnil : endsOf pl j y = []
        · exact .inr (by simpa using hnil)
        · refine .inl fun i hi => (length_outsOf (hflat i (mem_cons_of_mem _ hi)) t).mpr ?_
          intro x hx
          by_contra hgt
          exact hnil (hno i hi t x y hx hy (by omega))
  constructor
  · intro hall above j below hsplit
    exact (hsteps above j below hsplit).mp (hall j)
  · intro hno j
    by_cases hj : pl.flattenScans j = true
    · obtain ⟨above, below, hsplit⟩ := append_of_mem ((pl.mem_probes j).mpr hj)
      exact (hsteps above j below hsplit).mpr (hno above j below hsplit)
    · rw [total_direct h (by simpa using hj)]

theorem StoredFor.key_eq {tuples : List (SharedTuple n)} (h : StoredFor pl bound tuples) :
    ∀ t ∈ tuples, t.key = bound.key := by
  obtain ⟨total, -, hstores⟩ := h
  exact hstores.1

section
variable {child : List (BoundNode n)} {tss : List (List (SharedTuple n))}
  (h : Forall₂ (StoredFor pl) child tss)
include h

theorem key_mem {t : SharedTuple n} (ht : t ∈ tss.flatten) : t.key ∈ child.map (·.key) := by
  induction h with
  | nil => cases ht
  | cons hst _ ih =>
    rcases mem_append.mp ht with ht | ht
    · rw [hst.key_eq t ht]
      exact mem_cons_self
    · exact mem_cons_of_mem _ (ih ht)

/-- The tuples with the key of a bound node are those that are stored for it. -/
theorem filter_flatten (hnd : (child.map (·.key)).Nodup)
    (hbound : bound ∈ child) : StoredFor pl bound (tss.flatten.filter (·.key = bound.key)) := by
  induction h with
  | nil => cases hbound
  | @cons b ts child tss hst hrest ih =>
    obtain ⟨hfresh, hnd⟩ := nodup_cons.mp hnd
    rw [flatten_cons, filter_append]
    rcases mem_cons.mp hbound with rfl | hbound
    · -- no later bound node has the key
      have hother : tss.flatten.filter (·.key = bound.key) = [] := by
        rw [filter_eq_nil_iff]
        intro t ht
        rw [decide_eq_true_eq]
        intro heq
        have hmem := key_mem hrest ht
        rw [heq] at hmem
        exact hfresh hmem
      rw [hother, append_nil, filter_eq_self.mpr fun t ht => by simpa using hst.key_eq t ht]
      exact hst
    · have hnone : ts.filter (·.key = bound.key) = [] := by
        rw [filter_eq_nil_iff]
        intro t ht
        rw [hst.key_eq t ht, decide_eq_true_eq]
        exact fun heq => hfresh (mem_map.mpr ⟨bound, hbound, heq.symm⟩)
      rw [hnone]
      exact ih hnd hbound

end

/-- The tuples that are stored for a bound node are exact if and only if a path has no end node or
nothing is replayed. -/
theorem storesExactly_of_storedFor {table : List (SharedTuple n)}
    (h : StoredFor pl bound (table.filter (·.key = bound.key))) :
    StoresExactly pl table bound ↔ (∃ i, ends pl bound i = []) ∨ NoReplay pl bound := by
  obtain ⟨total, htotal, -, hskip, hstored⟩ := h
  by_cases hnil : ∃ i, ends pl bound i = []
  · refine iff_of_true ⟨fun _ t ht heq => ?_, fun hall => ?_⟩ (.inl hnil)
    · obtain ⟨i, hi⟩ := hnil
      have hempty := hskip ⟨i, (total_eq_nil_iff htotal i).mpr hi⟩
      exact filter_eq_nil_iff.mp hempty t ht (by simpa using heq)
    · obtain ⟨i, hi⟩ := hnil
      exact absurd hi (hall i)
  · have hall : ∀ i, ends pl bound i ≠ [] := fun i hi => hnil ⟨i, hi⟩
    have hperm := hstored fun i hi => hall i ((total_eq_nil_iff htotal i).mp hi)
    rw [or_iff_right hnil, ← forall_perm_iff htotal]
    constructor
    · exact fun hexact i => (hperm i).symm.trans (hexact.2 hall i)
    · exact fun hall' => ⟨fun h => absurd h hnil, fun _ i => (hperm i).trans (hall' i)⟩

/-- The build ends, and for each bound node the shared hash table is exact if and only if a path has
no end node, or no probe ships end nodes in a step in which a probe below it ships several times. The dump
loop is that of the code below `2 ^ 32` vectors per column (`SharedBuild.Dump`). -/
theorem storesExactly_iff (pl : Pipeline n) {child : List (BoundNode n)}
    (hnd : (child.map (·.key)).Nodup) :
    ∃ fuel table, executeInternal pl fuel (.init child) = some table ∧
      ∀ bound ∈ child, StoresExactly pl table bound ↔
        (∃ i, ends pl bound i = []) ∨ NoReplay pl bound := by
  obtain ⟨fuel, tss, hrun, htss⟩ := execute_spec pl hnd
  exact ⟨fuel, tss.flatten, hrun, fun bound hbound =>
    storesExactly_of_storedFor (filter_flatten htss hnd hbound)⟩

/-- Two paths of two hops, the probe of path 1 above that of path 0. The hash table of path 0 holds
the end nodes 20 and 21 of neighbour 10 in two tuples, that of path 1 the end node 22. -/
def twoHops : Pipeline 2 where
  flattenScans := fun _ => true
  hashTable := fun i =>
    { hash := fun _ => 0
      maxNumHashSlots := 1
      tuples := if i = 0 then [⟨⟨10, 0⟩, [⟨20, 0⟩]⟩, ⟨⟨10, 0⟩, [⟨21, 0⟩]⟩]
        else [⟨⟨11, 0⟩, [⟨22, 0⟩]⟩] }
  probes := [1, 0]
  nodup := by decide
  mem_probes := by decide

/-- A node with the neighbour 10 on path 0 and 11 on path 1. -/
def twoTupleNode : BoundNode 2 := ⟨⟨1, 0⟩, fun i => if i = 0 then [[⟨10, 0⟩]] else [[⟨11, 0⟩]]⟩

/-- A node with a neighbour on path 1 only. -/
def onePathNode : BoundNode 2 := ⟨⟨2, 0⟩, fun i => if i = 0 then [] else [[⟨11, 0⟩]]⟩

theorem twoHops_iff : ([twoTupleNode, onePathNode].map (·.key)).Nodup ∧
    ∃ fuel table, executeInternal twoHops fuel (.init [twoTupleNode, onePathNode]) = some table ∧
      ∀ bound ∈ [twoTupleNode, onePathNode], StoresExactly twoHops table bound ↔
        (∃ i, ends twoHops bound i = []) ∨ NoReplay twoHops bound :=
  ⟨by decide, storesExactly_iff twoHops (by decide)⟩

/-- The end node 22 is stored twice, since the probe of path 0 ships twice. -/
theorem twoTupleNode_not_exact : ∃ fuel table,
    executeInternal twoHops fuel (.init [twoTupleNode]) = some table ∧
      (table.flatMap (·.payload 1) = [⟨22, 0⟩, ⟨22, 0⟩] ∧ ends twoHops twoTupleNode 1 = [⟨22, 0⟩]) ∧
      ¬ StoresExactly twoHops table twoTupleNode := by
  have hrun : (executeInternal twoHops 4 (.init [twoTupleNode])).map (fun table =>
      ((table.filter (·.key = twoTupleNode.key)).flatMap (·.payload 1),
        table.flatMap (·.payload 1))) = some ([⟨22, 0⟩, ⟨22, 0⟩], [⟨22, 0⟩, ⟨22, 0⟩]) := by
    decide +kernel
  obtain ⟨table, hrun, heq⟩ := Option.map_eq_some_iff.mp hrun
  obtain ⟨hkey, hall⟩ := Prod.mk.inj heq
  refine ⟨4, table, hrun, ⟨hall, by decide⟩, fun hexact => ?_⟩
  have hperm := hexact.2 (by decide) 1
  rw [hkey] at hperm
  exact absurd hperm.length_eq (by decide)

end SharedBuild
end CycleJoin
