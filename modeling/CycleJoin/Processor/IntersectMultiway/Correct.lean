import CycleJoin.Processor.IntersectMultiway.Probe

/-!
# The intersections of one probe tuple

What the operator is for: for every right node `j`, each ID once for every way to pick one
occurrence of it from the stored lists of every connected left node (`expectedCount`). The tuple is
skipped if this is nothing for some `j`.

The operator sorts every list on its own and by offset only, while the merge needs the
concatenation to be ascending in the order of internal IDs. `intersectProbeTuple_exact_iff` says
when the result is still exact: some right node has no common ID at all, or every common ID stands
together and after smaller IDs only in the concatenated lists (`Leapfrog.Gathered`), its number
of combinations fits a `size_t`, and right nodes whose output vectors are in one data chunk have
equally long first vectors: the merges of such nodes write to one selection size, and the last one
decides how much of all first vectors is read. Otherwise the order of the right nodes plays no role.
-/

namespace CycleJoin

open List Leapfrog Function

namespace IntersectMultiway

section

variable (info : IntersectMultiwayDataInfo) (srt : OffsetSort) (sharedHTs : Nat → SharedHT)
  (probeKeys : Nat → InternalID)

/-- How often `x` belongs to the result for right node `j`. -/
def expectedCount (j : Nat) (x : InternalID) : Nat :=
  ((info.right2leftIdx j).map fun i =>
    (storedLists info sharedHTs probeKeys i j).flatten.count x).prod

/-- The stored lists for `(i, j)`, each sorted by offset, one after the other. -/
def sortedChunks (i j : Nat) : List InternalID :=
  (storedLists info sharedHTs probeKeys i j).flatMap srt.sort

/-- Some right node has no common ID. -/
def NoResult : Prop :=
  ∃ j < info.numRightNodes, ∀ x, expectedCount info sharedHTs probeKeys j x = 0

/-- The common IDs of every right node are gathered in the lists, and their counts do not wrap. -/
def AllGathered : Prop :=
  ∀ j < info.numRightNodes, ∀ x, 0 < expectedCount info sharedHTs probeKeys j x →
    (∀ i ∈ info.right2leftIdx j, Gathered x (sortedChunks info srt sharedHTs probeKeys i j)) ∧
    expectedCount info sharedHTs probeKeys j x < 2 ^ 64

/-- The number of IDs in the result for right node `j`. -/
def expectedSize (j : Nat) : Nat :=
  ∑ x ∈ ((info.right2leftIdx j).flatMap fun i =>
    (storedLists info sharedHTs probeKeys i j).flatten).toFinset, expectedCount info sharedHTs probeKeys j x

/-- The results of right nodes in one data chunk fill their first vectors to the same size. -/
def SameHeadSizes : Prop :=
  ∀ j < info.numRightNodes, ∀ k < info.numRightNodes, info.outputDataChunk j = info.outputDataChunk k →
    min (expectedSize info sharedHTs probeKeys j) defaultVectorCapacity =
      min (expectedSize info sharedHTs probeKeys k) defaultVectorCapacity

/-- The vectors with the given size for vector 0. -/
def setHeadSize (size : Nat) : List ValueVec → List ValueVec
  | [] => []
  | v :: vs => { v with selSize := size } :: vs

/-- The IDs in `cachedIntersectionResults[j]`. -/
def ResultCaches.ids (cached : ResultCaches) (j : Nat) : List InternalID :=
  contents (setHeadSize (cached.selSizes (info.outputDataChunk j)) (cached.caches j))

/-- The operator handles the probe tuple exactly, for every order of the right nodes and whatever
the previous tuple left in `probedIds` and in the result vectors. -/
def Exact : Prop :=
  ∀ (dynamicOrder : ProbedIds → List Nat) (ids : ProbedIds) (cached : ResultCaches),
    (∀ ids, (dynamicOrder ids).Perm (range info.numRightNodes)) → (∀ j, cached.caches j ≠ []) →
    ∃ skipped cached', intersectProbeTuple info srt sharedHTs dynamicOrder probeKeys ids cached =
        some (skipped, cached') ∧
      (skipped = true ↔ NoResult info sharedHTs probeKeys) ∧
      (skipped = false → ∀ j < info.numRightNodes, ∀ x,
        (cached'.ids info j).count x = expectedCount info sharedHTs probeKeys j x)

end

variable {info : IntersectMultiwayDataInfo} {srt : OffsetSort}

/-! ## Sorting the probed lists -/

theorem OffsetSort.sort_ne_nil {l : List InternalID} (h : l ≠ []) : srt.sort l ≠ [] :=
  fun hn => h (nil_perm.mp (hn ▸ srt.perm l))

theorem OffsetSort.sort_nil : srt.sort [] = [] := perm_nil.mp (srt.perm [])

variable {ids : ProbedIds}

theorem sortProbedIds_self {i j : Nat} (hi : i ∈ info.right2leftIdx j) :
    sortProbedIds info srt ids j i j = (ids i j).map srt.sort :=
  if_pos ⟨mem_range.mp (mem_of_mem_filter hi), rfl⟩

theorem sortProbedIds_ne {i j k : Nat} (hk : k ≠ j) : sortProbedIds info srt ids j i k = ids i k :=
  if_neg fun h => hk h.2

theorem Probed.sort (srt : OffsetSort) {j : Nat} (h : Probed info ids j) :
    Probed info (sortProbedIds info srt ids j) j := by
  intro i hi
  rw [sortProbedIds_self hi]
  refine ⟨by simpa using (h i hi).1, fun l hl => ?_⟩
  obtain ⟨l', hl', rfl⟩ := mem_map.mp hl
  exact OffsetSort.sort_ne_nil ((h i hi).2 l' hl')

theorem Probed.sort_ne (srt : OffsetSort) {j k : Nat} (hk : k ≠ j) (h : Probed info ids k) :
    Probed info (sortProbedIds info srt ids j) k := by
  intro i hi
  rw [sortProbedIds_ne hk]
  exact h i hi

/-- Sorting the lists of one right node leaves those of the others as they are. -/
theorem listsFor_sort_ne {j k : Nat} (hk : k ≠ j) :
    listsFor info (sortProbedIds info srt (sortProbedIds info srt ids j) k) k =
      listsFor info (sortProbedIds info srt ids k) k := by
  refine map_congr_left fun i hi => ?_
  rw [sortProbedIds_self hi, sortProbedIds_self hi, sortProbedIds_ne hk]

/-! ## The loop over the right nodes -/

/-- `out` are the hits of a merge over `ls` that starts at the head of one of the lists. -/
def Merged (ls : List (List InternalID)) (out : List (InternalID × List Nat)) : Prop :=
  ∃ t, (∃ l ∈ ls, l.head? = some t) ∧ Run t ls out

/-- The result cache holds the hits of a merge over `ls` that has some. -/
def Written (ls : List (List InternalID)) (resultCache : List ValueVec) : Prop :=
  ∃ out, out ≠ [] ∧ Merged ls out ∧ contents resultCache = hits wrap out ∧ ∃ cur, Packed cur resultCache

/-- The size of data chunk `d` after the vectors of the right nodes in `order` have been written. -/
def lastSize (info : IntersectMultiwayDataInfo) (caches : Nat → List ValueVec) (d : Nat) :
    List Nat → Nat → Nat
  | [], size => size
  | j :: js, size =>
    lastSize info caches d js (if info.outputDataChunk j = d then headSize (caches j) else size)

theorem lastSize_append (caches : Nat → List ValueVec) (j size : Nat) (js : List Nat) :
    lastSize info caches (info.outputDataChunk j) (js ++ [j]) size = headSize (caches j) := by
  induction js generalizing size with
  | nil => simp [lastSize]
  | cons k js ih => exact ih _

theorem lastSize_cases (caches : Nat → List ValueVec) (d size : Nat) (order : List Nat) :
    lastSize info caches d order size = size ∨
      ∃ k ∈ order, info.outputDataChunk k = d ∧ lastSize info caches d order size = headSize (caches k) := by
  induction order generalizing size with
  | nil => exact .inl rfl
  | cons j js ih =>
    rw [lastSize]
    obtain h | ⟨k, hk, h⟩ := ih (if info.outputDataChunk j = d then headSize (caches j) else size)
    · rw [h]
      split
      · rename_i hd
        exact .inr ⟨j, mem_cons_self, hd, rfl⟩
      · exact .inl rfl
    · exact .inr ⟨k, mem_cons_of_mem _ hk, h⟩

/-- The size of a data chunk is the one that some right node of it has written. -/
theorem exists_lastSize (caches : Nat → List ValueVec) {j : Nat} {order : List Nat} (hj : j ∈ order)
    (size : Nat) : ∃ k ∈ order, info.outputDataChunk k = info.outputDataChunk j ∧
      lastSize info caches (info.outputDataChunk j) order size = headSize (caches k) := by
  induction order generalizing size with
  | nil => cases hj
  | cons k js ih =>
    rw [lastSize]
    rcases mem_cons.mp hj with rfl | hj
    · rw [if_pos rfl]
      obtain h | ⟨k, hk, h⟩ := lastSize_cases caches (info.outputDataChunk j) (headSize (caches j)) js
      · exact ⟨j, mem_cons_self, rfl, h⟩
      · exact ⟨k, mem_cons_of_mem _ hk, h⟩
    · obtain ⟨k, hk, h⟩ := ih hj _
      exact ⟨k, mem_cons_of_mem _ hk, h⟩

/-- The loop ends. It stops early only at a right node whose merge has no hit; otherwise every
result cache holds the hits of its merge. -/
theorem intersectRightNodes_spec (srt : OffsetSort) {order : List Nat} (hnd : order.Nodup)
    {cached : ResultCaches} (hj : ∀ j ∈ order, info.right2leftIdx j ≠ [])
    (hp : ∀ j ∈ order, Probed info ids j) (hc : ∀ j, cached.caches j ≠ []) :
    ∃ hasEmpty cached', intersectRightNodes info srt order ids cached = some (hasEmpty, cached') ∧
      (∀ k ∉ order, cached'.caches k = cached.caches k) ∧
      (hasEmpty = true → ∃ j ∈ order, Merged (listsFor info (sortProbedIds info srt ids j) j) []) ∧
      (hasEmpty = false →
        (∀ j ∈ order, Written (listsFor info (sortProbedIds info srt ids j) j) (cached'.caches j)) ∧
        ∀ d, cached'.selSizes d = lastSize info cached'.caches d order (cached.selSizes d)) := by
  induction order generalizing ids cached with
  | nil => exact ⟨false, cached, rfl, by simp, by simp, by simp [lastSize]⟩
  | cons j js ih =>
    obtain ⟨hjs, hnd⟩ := nodup_cons.mp hnd
    obtain ⟨hj0, hj⟩ := forall_mem_cons.mp hj
    obtain ⟨hp0, hp⟩ := forall_mem_cons.mp hp
    have hne (k : Nat) (hk : k ∈ js) : k ≠ j := by
      rintro rfl
      exact hjs hk
    obtain ⟨e, cache, t, out, hm, ht, hrun, hcont, hempty, cur, hcache⟩ :=
      multiwayIntersectOnSortedTuples_spec hj0 (hp0.sort srt) (hc j)
    rw [intersectRightNodes]
    simp only [hm]
    cases e with
    | true =>
      refine ⟨true, _, rfl, fun k hk => ?_, fun _ => ⟨j, by simp, t, ht, ?_⟩, by simp⟩
      · rw [mem_cons, not_or] at hk
        exact update_of_ne hk.1 _ _
      · exact hempty.mp rfl ▸ hrun
    | false =>
      have hc' (k : Nat) : (cached.store info j cache).caches k ≠ [] := by
        simp only [ResultCaches.store]
        by_cases hk : k = j
        · subst hk
          rw [update_self]
          exact hcache.ne_nil
        · rw [update_of_ne hk]
          exact hc k
      obtain ⟨e', cached', h1, h2, h3, h4⟩ := ih hnd hj (fun k hk => (hp k hk).sort_ne srt (hne k hk)) hc'
      have hj' : cached'.caches j = cache := (h2 j hjs).trans (update_self ..)
      refine ⟨e', cached', h1, fun k hk => ?_, fun he => ?_, fun he => ⟨?_, fun d => ?_⟩⟩
      · rw [mem_cons, not_or] at hk
        rw [h2 k hk.2]
        exact update_of_ne hk.1 _ _
      · obtain ⟨k, hk, hmerged⟩ := h3 he
        exact ⟨k, by simp [hk], listsFor_sort_ne (hne k hk) ▸ hmerged⟩
      · refine forall_mem_cons.mpr ⟨⟨out, ?_, ⟨t, ht, hrun⟩, ?_, cur, hj' ▸ hcache⟩, fun k hk => ?_⟩
        · exact fun hn => Bool.false_ne_true (hempty.mpr hn)
        · rw [hj', hcont]
        · exact listsFor_sort_ne (hne k hk) ▸ (h4 he).1 k hk
      · rw [(h4 he).2 d, lastSize, hj']
        simp only [ResultCaches.store, update_apply, eq_comm]

/-! ## One probe tuple -/

section Tuple

variable {sharedHTs : Nat → SharedHT} {probeKeys : Nat → InternalID} {j : Nat}

theorem flatten_map_sort_nonEmpty (ls : List (List InternalID)) :
    ((nonEmpty ls).map srt.sort).flatten = ls.flatMap srt.sort := by
  induction ls with
  | nil => rfl
  | cons l ls ih =>
    rw [nonEmpty_cons, flatMap_cons, map_append, flatten_append, ih]
    split
    · rename_i h0
      rw [length_eq_zero_iff.mp h0, OffsetSort.sort_nil]
      rfl
    · simp

theorem count_flatMap_sort (ls : List (List InternalID)) (x : InternalID) :
    (ls.flatMap srt.sort).count x = ls.flatten.count x := by
  induction ls with
  | nil => rfl
  | cons l ls ih =>
    rw [flatMap_cons, flatten_cons, count_append, count_append, ih, (srt.perm l).count_eq]

/-- The lists that are merged for `j`. -/
def chunksFor (info : IntersectMultiwayDataInfo) (srt : OffsetSort) (sharedHTs : Nat → SharedHT)
    (probeKeys : Nat → InternalID) (j : Nat) : List (List InternalID) :=
  (info.right2leftIdx j).map fun i => sortedChunks info srt sharedHTs probeKeys i j

theorem combinations_chunksFor (j : Nat) (x : InternalID) :
    combinations (chunksFor info srt sharedHTs probeKeys j) x = expectedCount info sharedHTs probeKeys j x := by
  rw [combinations, chunksFor, map_map]
  congr 1
  exact map_congr_left fun i _ => count_flatMap_sort _ x

theorem two_le_length_chunksFor (hj : j < info.numRightNodes) :
    2 ≤ (chunksFor info srt sharedHTs probeKeys j).length := by
  rw [chunksFor, length_map]
  exact info.two_le_right j hj

theorem right2leftIdx_ne_nil (hj : j < info.numRightNodes) : info.right2leftIdx j ≠ [] := by
  intro hn
  have := info.two_le_right j hj
  rw [← IntersectMultiwayDataInfo.right2leftIdx, hn] at this
  simp at this

theorem mem_left2rightIdx {i : Nat} (hj : j < info.numRightNodes) (hi : i ∈ info.right2leftIdx j) :
    j ∈ info.left2rightIdx i :=
  mem_filter.mpr ⟨mem_range.mpr hj, (mem_filter.mp hi).2⟩

/-- A pair without stored IDs leaves nothing for its right node. -/
theorem noResult_of_not_matches {i : Nat} (hi : i < info.numLeftNodes)
    (h : ¬ Matches info sharedHTs probeKeys i) : NoResult info sharedHTs probeKeys := by
  simp only [Matches, not_forall, not_not] at h
  obtain ⟨j, hj, hnil⟩ := h
  obtain ⟨hlt, hconn⟩ := mem_filter.mp hj
  refine ⟨j, mem_range.mp hlt, fun x => prod_eq_zero (mem_map.mpr ⟨i, ?_, ?_⟩)⟩
  · exact mem_filter.mpr ⟨mem_range.mpr hi, hconn⟩
  · rw [← flatten_filter_ne_nil, ← nonEmpty, hnil]
    rfl

/-- What the operator does with one probe tuple: it skips the tuple because a stored list is
missing or because a merge has no hit, or it keeps the hits of all merges. -/
theorem intersectProbeTuple_spec (srt : OffsetSort) (sharedHTs : Nat → SharedHT)
    (probeKeys : Nat → InternalID) {dynamicOrder : ProbedIds → List Nat} (ids : ProbedIds)
    {cached : ResultCaches}
    (ho : ∀ ids, (dynamicOrder ids).Perm (range info.numRightNodes)) (hc : ∀ j, cached.caches j ≠ []) :
    ∃ skipped cached', intersectProbeTuple info srt sharedHTs dynamicOrder probeKeys ids cached =
        some (skipped, cached') ∧
      (skipped = true → NoResult info sharedHTs probeKeys ∨
        ∃ j < info.numRightNodes, Merged (chunksFor info srt sharedHTs probeKeys j) []) ∧
      (skipped = false →
        (∀ j < info.numRightNodes, Written (chunksFor info srt sharedHTs probeKeys j) (cached'.caches j)) ∧
        ∃ ids', ∀ d, cached'.selSizes d =
          lastSize info cached'.caches d (dynamicOrder ids') (cached.selSizes d)) := by
  have hdeg : ∀ i ∈ range info.numLeftNodes, info.left2rightIdx i ≠ [] := by
    intro i hi hn
    have := info.two_le_left i (mem_range.mp hi)
    rw [← IntersectMultiwayDataInfo.left2rightIdx, hn] at this
    simp at this
  obtain ⟨h1, h2⟩ := probeHTsFrom_spec sharedHTs probeKeys nodup_range hdeg ids
  rw [intersectProbeTuple, probeHTs]
  generalize probeHTsFrom info sharedHTs probeKeys (range info.numLeftNodes) ids = r at h1 h2 ⊢
  obtain ⟨ok, ids'⟩ := r
  cases ok with
  | false =>
    refine ⟨true, cached, rfl, fun _ => .inl ?_, by simp⟩
    simp only [Bool.false_eq_true, false_iff, not_forall] at h1
    obtain ⟨i, hi, hm⟩ := h1
    exact noResult_of_not_matches (mem_range.mp hi) hm
  | true =>
    simp only [true_iff, true_implies] at h1 h2
    have hmem (j : Nat) : j ∈ dynamicOrder ids' ↔ j < info.numRightNodes := by
      rw [(ho ids').mem_iff, mem_range]
    have hids (j : Nat) (hj : j < info.numRightNodes) (i : Nat) (hi : i ∈ info.right2leftIdx j) :
        ids' i j = nonEmpty (storedLists info sharedHTs probeKeys i j) :=
      h2.1 i (mem_of_mem_filter hi) j (mem_left2rightIdx hj hi)
    have hprobed : ∀ j ∈ dynamicOrder ids', Probed info ids' j := by
      intro j hj i hi
      rw [hids j ((hmem j).mp hj) i hi]
      refine ⟨h1 i (mem_of_mem_filter hi) j (mem_left2rightIdx ((hmem j).mp hj) hi), ?_⟩
      intro l hl
      simpa using (mem_filter.mp hl).2
    have hlists (j : Nat) (hj : j < info.numRightNodes) : listsFor info (sortProbedIds info srt ids' j) j =
          chunksFor info srt sharedHTs probeKeys j := by
      refine map_congr_left fun i hi => ?_
      rw [sortProbedIds_self hi, hids j hj i hi, flatten_map_sort_nonEmpty]
      rfl
    obtain ⟨e, cached', h3, -, h4, h5⟩ := intersectRightNodes_spec srt ((ho ids').nodup_iff.mpr nodup_range)
      (fun j hj => right2leftIdx_ne_nil ((hmem j).mp hj)) hprobed hc
    refine ⟨e, cached', h3, fun he => .inr ?_, fun he => ⟨fun j hj => ?_, ids', (h5 he).2⟩⟩
    · obtain ⟨j, hj, hm⟩ := h4 he
      exact ⟨j, (hmem j).mp hj, hlists j ((hmem j).mp hj) ▸ hm⟩
    · exact hlists j hj ▸ (h5 he).1 j ((hmem j).mpr hj)

end Tuple

/-! ## When the result is exact -/

theorem wrap_le (n : Nat) : wrap n ≤ n := Nat.mod_le _ _

theorem wrap_eq_iff {n : Nat} : wrap n = n ↔ n < 2 ^ 64 := Nat.mod_eq_iff_lt (by norm_num)

section Exactness

variable {sharedHTs : Nat → SharedHT} {probeKeys : Nat → InternalID} {j : Nat}
  {out : List (InternalID × List Nat)}

/-- A hit of the merge for `j` is a common ID of `j`. -/
theorem Merged.expectedCount_pos (h : Merged (chunksFor info srt sharedHTs probeKeys j) out)
    (hne : out ≠ []) : ∃ x, 0 < expectedCount info sharedHTs probeKeys j x := by
  obtain ⟨t, -, hrun⟩ := h
  obtain ⟨e, he⟩ := exists_mem_of_ne_nil _ hne
  refine ⟨e.1, ?_⟩
  rw [← combinations_chunksFor]
  exact combinations_pos_iff.mpr (hrun.mem_of_mem he)

/-- The hits of the merge for `j` are exact if and only if every common ID is gathered in every
list and its count does not wrap. -/
theorem Merged.exact_iff (hj : j < info.numRightNodes) (h : Merged (chunksFor info srt sharedHTs probeKeys j) out) :
    (∀ x, (hits wrap out).count x = expectedCount info sharedHTs probeKeys j x) ↔
      ∀ x, 0 < expectedCount info sharedHTs probeKeys j x →
        (∀ i ∈ info.right2leftIdx j, Gathered x (sortedChunks info srt sharedHTs probeKeys i j)) ∧
        expectedCount info sharedHTs probeKeys j x < 2 ^ 64 := by
  obtain ⟨t, ht, hrun⟩ := h
  have hiff := hrun.count_hits_iff wrap_le (two_le_length_chunksFor hj) ht
  simp only [combinations_chunksFor, wrap_eq_iff] at hiff
  simpa only [chunksFor, forall_mem_map] using hiff

/-- The IDs of an exact result are as many as expected. -/
theorem length_of_exact {l : List InternalID}
    (h : ∀ x, l.count x = expectedCount info sharedHTs probeKeys j x) (hj : j < info.numRightNodes) :
    l.length = expectedSize info sharedHTs probeKeys j := by
  rw [expectedSize, ← sum_toFinset_count_eq_length]
  simp only [← h]
  refine Finset.sum_subset (fun x hx => ?_) fun x _ hx => ?_
  · obtain ⟨i, hi⟩ := exists_mem_of_ne_nil _ (right2leftIdx_ne_nil hj)
    have hpos := count_pos_iff.mpr (mem_toFinset.mp hx)
    rw [h, expectedCount, Nat.pos_iff_ne_zero] at hpos
    refine mem_toFinset.mpr (mem_flatMap.mpr ⟨i, hi, count_pos_iff.mp (Nat.pos_of_ne_zero fun h0 => hpos ?_)⟩)
    exact prod_eq_zero (mem_map.mpr ⟨i, hi, h0⟩)
  · exact count_eq_zero.mpr fun hmem => hx (mem_toFinset.mpr hmem)

theorem setHeadSize_headSize (cache : List ValueVec) : setHeadSize (headSize cache) cache = cache := by
  cases cache <;> rfl

theorem length_contents_setHeadSize (n : Nat) {cache : List ValueVec} (h : cache ≠ []) :
    (contents (setHeadSize n cache)).length + headSize cache = n + (contents cache).length := by
  obtain ⟨v, vs, rfl⟩ := exists_cons_of_ne_nil h
  simp [setHeadSize, headSize, contents, ValueVec.ids]
  omega

theorem Written.headSize_eq {cache : List ValueVec} {ls : List (List InternalID)} (h : Written ls cache)
    (hx : ∀ x, (contents cache).count x = expectedCount info sharedHTs probeKeys j x)
    (hj : j < info.numRightNodes) :
    headSize cache = min (expectedSize info sharedHTs probeKeys j) defaultVectorCapacity := by
  obtain ⟨-, -, -, -, cur, hp⟩ := h
  rw [hp.headSize, length_of_exact hx hj]

/-- The result cache for `j` is exact if and only if the common IDs are gathered. -/
theorem Written.exact_iff {cache : List ValueVec} (hj : j < info.numRightNodes)
    (h : Written (chunksFor info srt sharedHTs probeKeys j) cache) :
    (∀ x, (contents cache).count x = expectedCount info sharedHTs probeKeys j x) ↔
      ∀ x, 0 < expectedCount info sharedHTs probeKeys j x →
        (∀ i ∈ info.right2leftIdx j, Gathered x (sortedChunks info srt sharedHTs probeKeys i j)) ∧
        expectedCount info sharedHTs probeKeys j x < 2 ^ 64 := by
  obtain ⟨out, -, hm, hc, -⟩ := h
  rw [hc]
  exact hm.exact_iff hj

/-- A tuple with a right node without common IDs is skipped. -/
theorem not_written (hE : NoResult info sharedHTs probeKeys) {caches : Nat → List ValueVec} :
    ¬ ∀ j < info.numRightNodes, Written (chunksFor info srt sharedHTs probeKeys j) (caches j) := by
  intro hw
  obtain ⟨j, hj, hzero⟩ := hE
  obtain ⟨out, hne, hm, -⟩ := hw j hj
  obtain ⟨x, hx⟩ := hm.expectedCount_pos hne
  rw [hzero x] at hx
  cases hx

variable {cached : ResultCaches} {order : List Nat} {sizes : Nat → Nat}

/-- If all first vectors of a data chunk are as long as each other, every result is read as it was
written. -/
theorem ids_eq_contents (ho : order.Perm (range info.numRightNodes))
    (hw : ∀ j < info.numRightNodes, Written (chunksFor info srt sharedHTs probeKeys j) (cached.caches j))
    (hs : ∀ d, cached.selSizes d = lastSize info cached.caches d order (sizes d))
    (hg : AllGathered info srt sharedHTs probeKeys) (hsame : SameHeadSizes info sharedHTs probeKeys)
    (hj : j < info.numRightNodes) : cached.ids info j = contents (cached.caches j) := by
  have hsize (k : Nat) (hk : k < info.numRightNodes) := (hw k hk).headSize_eq (((hw k hk).exact_iff hk).mpr (hg k hk)) hk
  obtain ⟨k, hk, hd, hlast⟩ := exists_lastSize cached.caches (ho.mem_iff.mpr (mem_range.mpr hj))
    (sizes (info.outputDataChunk j))
  have hk : k < info.numRightNodes := mem_range.mp (ho.mem_iff.mp hk)
  rw [ResultCaches.ids, hs, hlast, hsize k hk, hsame k hk j hj hd, ← hsize j hj, setHeadSize_headSize]

/-- The right node that is merged last is read as it was written. -/
theorem ids_last {js : List Nat} (hs : ∀ d, cached.selSizes d = lastSize info cached.caches d (js ++ [j]) (sizes d)) :
    cached.ids info j = contents (cached.caches j) := by
  rw [ResultCaches.ids, hs, lastSize_append, setHeadSize_headSize]

/-- With exact results, the first vectors of a data chunk are as long as that of the right node that
is merged last. -/
theorem headSize_eq_last {k : Nat} {js : List Nat}
    (hs : ∀ d, cached.selSizes d = lastSize info cached.caches d (js ++ [j]) (sizes d))
    (hd : info.outputDataChunk j = info.outputDataChunk k) (hne : cached.caches k ≠ [])
    (hlen : (cached.ids info k).length = (contents (cached.caches k)).length) :
    headSize (cached.caches j) = headSize (cached.caches k) := by
  rw [ResultCaches.ids, ← hd, hs, lastSize_append] at hlen
  have := length_contents_setHeadSize (headSize (cached.caches j)) hne
  omega

end Exactness

section Runs

variable {sharedHTs : Nat → SharedHT} {probeKeys : Nat → InternalID}

theorem Exact.merge_last {j : Nat} (h : Exact info srt sharedHTs probeKeys) (hE : ¬ NoResult info sharedHTs probeKeys)
    (hj : j < info.numRightNodes) :
    ∃ (cached : ResultCaches) (js : List Nat) (sizes : Nat → Nat),
      (∀ k < info.numRightNodes, Written (chunksFor info srt sharedHTs probeKeys k) (cached.caches k)) ∧
      (∀ d, cached.selSizes d = lastSize info cached.caches d (js ++ [j]) (sizes d)) ∧
      ∀ k < info.numRightNodes, ∀ x, (cached.ids info k).count x = expectedCount info sharedHTs probeKeys k x := by
  have ho (_ : ProbedIds) : ((range info.numRightNodes).erase j ++ [j]).Perm (range info.numRightNodes) :=
    (perm_append_singleton _ _).trans (perm_cons_erase (mem_range.mpr hj)).symm
  have hc (j : Nat) : (⟨fun _ => [default], fun _ => 0⟩ : ResultCaches).caches j ≠ [] := by simp
  obtain ⟨skipped, cached, h1, h2, h3⟩ := h _ (fun _ _ => []) _ ho hc
  obtain ⟨skipped', cached', h1', -, hkeep⟩ :=
    intersectProbeTuple_spec srt sharedHTs probeKeys (fun _ _ => []) ho hc
  rw [h1'] at h1
  cases h1
  have hs : skipped = false := by simpa [hE] using h2
  obtain ⟨hw, -, hsizes⟩ := hkeep hs
  exact ⟨cached, _, _, hw, hsizes, h3 hs⟩

theorem Exact.allGathered (h : Exact info srt sharedHTs probeKeys)
    (hE : ¬ NoResult info sharedHTs probeKeys) : AllGathered info srt sharedHTs probeKeys := by
  intro j hj
  obtain ⟨cached, js, sizes, hw, hs, hcount⟩ := h.merge_last hE hj
  exact ((hw j hj).exact_iff hj).mp (ids_last hs ▸ hcount j hj)

theorem Exact.sameHeadSizes (h : Exact info srt sharedHTs probeKeys)
    (hE : ¬ NoResult info sharedHTs probeKeys) : SameHeadSizes info sharedHTs probeKeys := by
  intro j hj k hk hd
  obtain ⟨cached, js, sizes, hw, hs, hcount⟩ := h.merge_last hE hj
  have hx (k : Nat) (hk : k < info.numRightNodes) := ((hw k hk).exact_iff hk).mpr (h.allGathered hE k hk)
  obtain ⟨_, -, -, -, _, hp⟩ := hw k hk
  rw [← (hw j hj).headSize_eq (hx j hj) hj, ← (hw k hk).headSize_eq (hx k hk) hk]
  refine headSize_eq_last hs hd hp.ne_nil ?_
  rw [length_of_exact (hcount k hk) hk, length_of_exact (hx k hk) hk]

end Runs

/-- The operator handles a probe tuple exactly if and only if some right node has no common ID, or
all common IDs are gathered in the concatenated lists and have fewer than `2 ^ 64` combinations, and
right nodes in one data chunk have first vectors of the same size. -/
theorem intersectProbeTuple_exact_iff (info : IntersectMultiwayDataInfo) (srt : OffsetSort)
    (sharedHTs : Nat → SharedHT) (probeKeys : Nat → InternalID) :
    Exact info srt sharedHTs probeKeys ↔ NoResult info sharedHTs probeKeys ∨
      AllGathered info srt sharedHTs probeKeys ∧ SameHeadSizes info sharedHTs probeKeys := by
  by_cases hE : NoResult info sharedHTs probeKeys
  · refine iff_of_true (fun dynamicOrder ids cached ho hc => ?_) (.inl hE)
    obtain ⟨skipped, cached', h1, -, hkeep⟩ := intersectProbeTuple_spec srt sharedHTs probeKeys ids ho hc
    have hs : skipped = true := by
      by_contra hs
      exact not_written hE (hkeep (by simpa using hs)).1
    exact ⟨skipped, cached', h1, iff_of_true hs hE, by simp [hs]⟩
  rw [or_iff_right hE]
  constructor
  · exact fun h => ⟨h.allGathered hE, h.sameHeadSizes hE⟩
  · rintro ⟨hg, hsame⟩ dynamicOrder ids cached ho hc
    obtain ⟨skipped, cached', h1, hskip, hkeep⟩ := intersectProbeTuple_spec srt sharedHTs probeKeys ids ho hc
    refine ⟨skipped, cached', h1, iff_of_false ?_ hE, fun hs j hj => ?_⟩
    · intro hs
      -- a merge without a hit would be exact, so there would be no common ID
      obtain hE' | ⟨j, hj, hm⟩ := hskip hs
      · exact hE hE'
      · exact hE ⟨j, hj, fun x => ((hm.exact_iff hj).mpr (hg j hj) x).symm⟩
    · obtain ⟨hw, ids', hsizes⟩ := hkeep hs
      rw [ids_eq_contents (ho ids') hw hsizes hg hsame hj]
      exact ((hw j hj).exact_iff hj).mpr (hg j hj)

/-! ## A list in two chunks, and results of different sizes

Two left and two right nodes, all connected, with both output vectors in one data chunk. In
`twoChunks` the first left node stores its neighbours under the probed key in two tuples, first the
one with offset 5 and then the one with offset 3; the second left node stores offset 3 only. The
merge starts at 5 and runs off the end of the second list. In `unevenLists` the first right node has
one common neighbour and the second has two. -/

/-- `std::sort` by insertion. -/
def insertionSort : OffsetSort where
  sort := List.insertionSort fun a b => a.offset ≤ b.offset
  perm := perm_insertionSort _
  sorted :=
    have : Std.Total fun a b : InternalID => a.offset ≤ b.offset := ⟨fun _ _ => le_total _ _⟩
    have : IsTrans InternalID fun a b => a.offset ≤ b.offset := ⟨fun _ _ _ => le_trans⟩
    pairwise_insertionSort _

/-- Two left and two right nodes, all connected, with the output in one data chunk. -/
def twoByTwo : IntersectMultiwayDataInfo where
  numLeftNodes := 2
  numRightNodes := 2
  connectivity := fun _ _ => true
  keyOffsetInTuple := fun _ j => j
  outputDataChunk := fun _ => 0
  two_le_numLeftNodes := le_rfl
  two_le_numRightNodes := le_rfl
  two_le_left := by decide
  two_le_right := by decide

/-- The hash tables: the neighbours 5 and 3 in two tuples for the first left node, 3 for the
second. -/
def twoChunks : Nat → SharedHT := fun i =>
  { hash := fun _ => 0
    maxNumHashSlots := 1
    tuples := if i = 0 then [⟨⟨0, 0⟩, fun _ => [⟨5, 0⟩]⟩, ⟨⟨0, 0⟩, fun _ => [⟨3, 0⟩]⟩]
      else [⟨⟨0, 0⟩, fun _ => [⟨3, 0⟩]⟩] }

/-- The hash tables: for both left nodes the neighbour 3 for the first right node, and 3 and 5 for the
second. -/
def unevenLists : Nat → SharedHT := fun _ =>
  { hash := fun _ => 0
    maxNumHashSlots := 1
    tuples := [⟨⟨0, 0⟩, fun j => if j = 0 then [⟨3, 0⟩] else [⟨3, 0⟩, ⟨5, 0⟩]⟩] }

/-- The first tuple is skipped although the neighbour with offset 3 is common for both right nodes.
With the second tuple, the right node that is merged last decides on the size of both results. -/
theorem multiwayIntersect_not_exact :
    (¬ Exact twoByTwo insertionSort twoChunks fun _ => ⟨0, 0⟩) ∧
      ¬ Exact twoByTwo insertionSort unevenLists fun _ => ⟨0, 0⟩ := by
  constructor
  · intro h
    obtain ⟨skipped, cached, h1, h2, -⟩ := h (fun _ => [0, 1]) (fun _ _ => []) ⟨fun _ => [default], fun _ => 0⟩
      (fun _ => by decide) (by simp)
    have hskip : (intersectProbeTuple twoByTwo insertionSort twoChunks (fun _ => [0, 1])
        (fun _ => ⟨0, 0⟩) (fun _ _ => []) ⟨fun _ => [default], fun _ => 0⟩).map Prod.fst = some true := by
      decide
    rw [h1] at hskip
    cases hskip
    obtain ⟨j, hj, hzero⟩ := h2.mp rfl
    have hone : ∀ j < 2, expectedCount twoByTwo twoChunks (fun _ => ⟨0, 0⟩) j ⟨3, 0⟩ = 1 := by
      decide
    exact Nat.one_ne_zero ((hone j hj).symm.trans (hzero _))
  · intro h
    have hone : ∀ j < 2, expectedCount twoByTwo unevenLists (fun _ => ⟨0, 0⟩) j ⟨3, 0⟩ = 1 := by
      decide
    have hE : ¬ NoResult twoByTwo unevenLists fun _ => ⟨0, 0⟩ := by
      rintro ⟨j, hj, hzero⟩
      exact Nat.one_ne_zero ((hone j hj).symm.trans (hzero _))
    exact absurd (h.sameHeadSizes hE 0 (by decide) 1 (by decide) rfl) (by decide)

end IntersectMultiway
end CycleJoin
