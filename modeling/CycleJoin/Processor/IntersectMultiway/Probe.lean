import CycleJoin.Processor.IntersectMultiway.Merge

/-!
# What the probe finds

`probeHTs` walks the chain of every left node's key. It succeeds exactly if every connected pair
`(i, j)` has a non-empty list stored under the key of `i`, and then `probedIds[i][j]` holds these
lists in the order in which they were inserted: the chain lists them backwards, and the operator
reverses them.
-/

namespace CycleJoin

open List

namespace IntersectMultiway

variable (info : IntersectMultiwayDataInfo)

/-- The lists for `(i, j)` that the hash table of `i` stores under the probed key, in order. -/
def storedLists (sharedHTs : Nat → SharedHT) (probeKeys : Nat → InternalID) (i j : Nat) :
    List (List InternalID) :=
  ((sharedHTs i).tuplesOf (probeKeys i)).map (·.payload (info.keyOffsetInTuple i j))

/-- The lists that have an element. -/
def nonEmpty (ls : List (List InternalID)) : List (List InternalID) := ls.filter (· ≠ [])

theorem nonEmpty_cons (l : List InternalID) (ls : List (List InternalID)) :
    nonEmpty (l :: ls) = (if l.length = 0 then [] else [l]) ++ nonEmpty ls := by
  cases l <;> simp [nonEmpty]

theorem nonEmpty_reverse (ls : List (List InternalID)) : nonEmpty ls.reverse = (nonEmpty ls).reverse := filter_reverse

theorem nodup_left2rightIdx (i : Nat) : (info.left2rightIdx i).Nodup := nodup_range.filter _

variable {info}

/-- `pushLists` appends the list of `t` for every connected right node, unless it is empty. -/
theorem pushLists_apply (i : Nat) (t : ListTuple) (row : Nat → List (List InternalID)) {j : Nat}
    (hj : j ∈ info.left2rightIdx i) :
    pushLists info i t row j = row j ++ nonEmpty [t.payload (info.keyOffsetInTuple i j)] := by
  have hfold (js : List Nat) (hnd : js.Nodup) (row : Nat → List (List InternalID)) : js.foldl (fun row j =>
          if (t.payload (info.keyOffsetInTuple i j)).length = 0 then row
          else Function.update row j (row j ++ [t.payload (info.keyOffsetInTuple i j)])) row j =
        row j ++ if j ∈ js then nonEmpty [t.payload (info.keyOffsetInTuple i j)] else [] := by
    induction js generalizing row with
    | nil => simp
    | cons k js ih =>
      obtain ⟨hk, hnd⟩ := nodup_cons.mp hnd
      rw [foldl_cons, ih hnd]
      by_cases hjk : j = k
      · subst hjk
        rw [nonEmpty_cons]
        split <;> simp [nonEmpty]
      · split <;> simp [hjk]
  rw [pushLists, hfold _ (nodup_left2rightIdx info i) row, if_pos hj]

/-- Walking a chain appends the non-empty lists of its tuples with the key, in chain order. -/
theorem walkChain_apply (i : Nat) (key : InternalID) (chain : List ListTuple) (hasMatch : Bool)
    (row : Nat → List (List InternalID)) {j : Nat} (hj : j ∈ info.left2rightIdx i) :
    (walkChain info i key chain hasMatch row).2 j =
      row j ++ nonEmpty ((chain.filter (·.key = key)).map (·.payload (info.keyOffsetInTuple i j))) := by
  induction chain generalizing hasMatch row with
  | nil => simp [walkChain, nonEmpty]
  | cons t chain ih =>
    rw [walkChain]
    split
    · rename_i hk
      rw [ih, pushLists_apply i t row hj, filter_cons_of_pos (by simpa using hk),
        map_cons, nonEmpty_cons, nonEmpty_cons]
      simp [nonEmpty]
    · rename_i hk
      rw [ih, filter_cons_of_neg (by simpa using hk)]

theorem walkChain_hasMatch (info : IntersectMultiwayDataInfo) (i : Nat) (key : InternalID) (chain : List ListTuple) (hasMatch : Bool)
    (row : Nat → List (List InternalID)) :
    (walkChain info i key chain hasMatch row).1 = (hasMatch || chain.any (·.key = key)) := by
  induction chain generalizing hasMatch row with
  | nil => simp [walkChain]
  | cons t chain ih =>
    rw [walkChain]
    split <;> rename_i hk <;> simp [ih, hk]

/-- The reversing loop fails exactly if a list of lists is empty. -/
theorem reverseLists_spec {js : List Nat} (hnd : js.Nodup) (row : Nat → List (List InternalID)) :
    ((reverseLists js row).1 = true ↔ ∀ j ∈ js, row j ≠ []) ∧
    ((reverseLists js row).1 = true → ∀ j,
      (reverseLists js row).2 j = if j ∈ js then (row j).reverse else row j) := by
  induction js generalizing row with
  | nil => simp [reverseLists]
  | cons k js ih =>
    obtain ⟨hk, hnd⟩ := nodup_cons.mp hnd
    rw [reverseLists]
    split
    · rename_i h0
      simp [length_eq_zero_iff.mp h0]
    · rename_i h0
      obtain ⟨h1, h2⟩ := ih hnd (Function.update row k (row k).reverse)
      constructor
      · rw [h1, forall_mem_cons]
        have hrow : row k ≠ [] := fun h => h0 (by simp [h])
        simp only [ne_eq, hrow, not_false_eq_true, true_and]
        refine forall₂_congr fun j hj => ?_
        rw [Function.update_of_ne (by rintro rfl; exact hk hj)]
      · intro ht j
        rw [h2 ht j]
        by_cases hjk : j = k
        · subst hjk
          simp [hk]
        · simp [hjk]

section Probe

variable {sharedHTs : Nat → SharedHT} {probeKeys : Nat → InternalID}

/-- Every connected right node of `i` has a non-empty list stored under the key of `i`. -/
def Matches (info : IntersectMultiwayDataInfo) (sharedHTs : Nat → SharedHT)
    (probeKeys : Nat → InternalID) (i : Nat) : Prop :=
  ∀ j ∈ info.left2rightIdx i, nonEmpty (storedLists info sharedHTs probeKeys i j) ≠ []

section
variable {i j : Nat} (h : nonEmpty (storedLists info sharedHTs probeKeys i j) ≠ [])
include h

/-- A left node with a list for some right node has an entry with its key. -/
theorem any_key_of_nonEmpty : ((sharedHTs i).getTupleForHash ((sharedHTs i).hash (probeKeys i))).any
      (·.key = probeKeys i) = true := by
  have hne : (sharedHTs i).tuplesOf (probeKeys i) ≠ [] := by
    intro hnil
    simp [storedLists, hnil, nonEmpty] at h
  rw [← reverse_ne_nil_iff, ← JoinHashTable.filter_getTupleForHash] at hne
  obtain ⟨t, ht⟩ := exists_mem_of_ne_nil _ hne
  rw [mem_filter] at ht
  exact any_eq_true.mpr ⟨t, ht⟩

theorem getNumEntries_ne_zero : (sharedHTs i).getNumEntries ≠ 0 := by
  intro h0
  rw [JoinHashTable.getNumEntries, length_eq_zero_iff] at h0
  simp [storedLists, JoinHashTable.tuplesOf, h0, nonEmpty] at h

end

theorem probeHT_spec (sharedHTs : Nat → SharedHT) (probeKeys : Nat → InternalID) {i : Nat}
    (hi : info.left2rightIdx i ≠ []) (row : Nat → List (List InternalID)) :
    ((probeHT info (sharedHTs i) (probeKeys i) i row).1 = true ↔ Matches info sharedHTs probeKeys i) ∧
    ((probeHT info (sharedHTs i) (probeKeys i) i row).1 = true → ∀ j ∈ info.left2rightIdx i,
      (probeHT info (sharedHTs i) (probeKeys i) i row).2 j =
        nonEmpty (storedLists info sharedHTs probeKeys i j)) := by
  obtain ⟨j₀, hj₀⟩ := exists_mem_of_ne_nil _ hi
  simp only [probeHT]
  split
  · rename_i h0
    simp only [Bool.false_eq_true, false_iff, false_implies, and_true]
    exact fun hm => getNumEntries_ne_zero (hm j₀ hj₀) h0
  · have hwalk (j : Nat) (hj : j ∈ info.left2rightIdx i) := walkChain_apply i (probeKeys i)
      ((sharedHTs i).getTupleForHash ((sharedHTs i).hash (probeKeys i))) false
      (fun j => if j < info.numRightNodes then [] else row j) hj
    have hmatch := walkChain_hasMatch info i (probeKeys i)
      ((sharedHTs i).getTupleForHash ((sharedHTs i).hash (probeKeys i))) false
      (fun j => if j < info.numRightNodes then [] else row j)
    generalize walkChain info i _ _ _ _ = w at hwalk hmatch ⊢
    obtain ⟨hasMatch, row'⟩ := w
    -- the lists in chain order are the stored lists backwards
    have hrow (j : Nat) (hj : j ∈ info.left2rightIdx i) :
        row' j = (nonEmpty (storedLists info sharedHTs probeKeys i j)).reverse := by
      have hlt : j < info.numRightNodes := mem_range.mp (mem_of_mem_filter hj)
      refine (hwalk j hj).trans ?_
      rw [if_pos hlt, JoinHashTable.filter_getTupleForHash, map_reverse, nonEmpty_reverse]
      rfl
    obtain ⟨h1, h2⟩ := reverseLists_spec (nodup_left2rightIdx info i) row'
    simp only [Bool.and_eq_true] at hmatch ⊢
    constructor
    · rw [h1]
      constructor
      · rintro ⟨hne, -⟩ j hj
        simpa [hrow j hj] using hne j hj
      · intro hm
        refine ⟨fun j hj => ?_, hmatch ▸ any_key_of_nonEmpty (hm j₀ hj₀)⟩
        simpa [hrow j hj] using hm j hj
    · rintro ⟨hok, -⟩ j hj
      rw [h2 hok j, if_pos hj, hrow j hj, reverse_reverse]

/-- `probeHTs` succeeds if and only if every left node of the list matches; it then leaves the
stored lists in their order of insertion. -/
theorem probeHTsFrom_spec (sharedHTs : Nat → SharedHT) (probeKeys : Nat → InternalID)
    {is : List Nat} (hnd : is.Nodup) (hdeg : ∀ i ∈ is, info.left2rightIdx i ≠ []) (ids : ProbedIds) :
    ((probeHTsFrom info sharedHTs probeKeys is ids).1 = true ↔ ∀ i ∈ is, Matches info sharedHTs probeKeys i) ∧
    ((probeHTsFrom info sharedHTs probeKeys is ids).1 = true →
      (∀ i ∈ is, ∀ j ∈ info.left2rightIdx i, (probeHTsFrom info sharedHTs probeKeys is ids).2 i j =
          nonEmpty (storedLists info sharedHTs probeKeys i j)) ∧
      ∀ i ∉ is, (probeHTsFrom info sharedHTs probeKeys is ids).2 i = ids i) := by
  induction is generalizing ids with
  | nil => simp [probeHTsFrom]
  | cons k is ih =>
    obtain ⟨hk, hnd⟩ := nodup_cons.mp hnd
    obtain ⟨hkdeg, hdeg⟩ := forall_mem_cons.mp hdeg
    obtain ⟨h1, h2⟩ := probeHT_spec sharedHTs probeKeys hkdeg (ids k)
    rw [probeHTsFrom]
    generalize probeHT info (sharedHTs k) (probeKeys k) k (ids k) = r at h1 h2
    obtain ⟨found, row⟩ := r
    cases found with
    | false =>
      simp only [Bool.false_eq_true, false_iff, if_false, false_implies, and_true] at h1 ⊢
      exact fun hm => h1 (hm k mem_cons_self)
    | true =>
      simp only [true_iff, if_true, true_implies] at h1 h2 ⊢
      obtain ⟨h3, h4⟩ := ih hnd hdeg (Function.update ids k row)
      refine ⟨h3.trans ⟨fun h => forall_mem_cons.mpr ⟨h1, h⟩, fun h i hi =>
        h i (mem_cons_of_mem _ hi)⟩, fun hok => ?_⟩
      obtain ⟨h5, h6⟩ := h4 hok
      constructor
      · rintro i hi j hj
        rcases mem_cons.mp hi with rfl | hi
        · rw [h6 i hk, Function.update_self]
          exact h2 j hj
        · exact h5 i hi j hj
      · intro i hi
        rw [mem_cons, not_or] at hi
        rw [h6 i hi.2, Function.update_of_ne hi.1]

end Probe
end IntersectMultiway
end CycleJoin
