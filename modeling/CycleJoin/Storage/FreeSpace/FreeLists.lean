import CycleJoin.Storage.FreeSpace.Basic

/-!
# The free lists keep their pages

Each free list holds the ranges of its level, and `numEntries` counts the ranges (`Filed`). Adding a
range adds its pages to the free ones, popping takes the pages of the returned range away, and merging
adjacent ranges changes no page.
-/

namespace CycleJoin

open List PageRange SortedFreeList

/-- The pages of ranges, with their multiplicity. -/
def pagesOf (ranges : List PageRange) : Multiset Nat := (ranges.flatMap (·.pages) : List Nat)

@[simp]
theorem pagesOf_nil : pagesOf [] = 0 := rfl

@[simp]
theorem pagesOf_cons (range : PageRange) (ranges : List PageRange) :
    pagesOf (range :: ranges) = (range.pages : Multiset Nat) + pagesOf ranges := rfl

@[simp]
theorem pagesOf_append (ranges ranges' : List PageRange) :
    pagesOf (ranges ++ ranges') = pagesOf ranges + pagesOf ranges' := by
  simp [pagesOf]

theorem pagesOf_perm {ranges ranges' : List PageRange} (h : ranges.Perm ranges') : pagesOf ranges = pagesOf ranges' :=
  Multiset.coe_eq_coe.mpr (h.flatMap_right _)

theorem mem_pagesOf {page : Nat} {ranges : List PageRange} :
    page ∈ pagesOf ranges ↔ ∃ range ∈ ranges, page ∈ range.pages := by
  simp [pagesOf]

theorem PageRange.mem_pages {page : Nat} {range : PageRange} : page ∈ range.pages ↔
      range.startPageIdx ≤ page ∧ page < range.startPageIdx + range.numPages := by
  simp [pages]

/-- A range splits into the ranges before and after one of its pages. -/
theorem PageRange.pages_split (start front back : Nat) :
    ((mk start (front + back)).pages : Multiset Nat) = ((mk start front).pages : Multiset Nat) +
        ((mk (start + front) back).pages : Multiset Nat) := by
  have h : (mk start (front + back)).pages = (mk start front).pages ++ (mk (start + front) back).pages := by
    simp [pages]
  rw [h, Multiset.coe_add]

/-- A range with a page that no other free range has is not among them. -/
theorem not_mem_of_nodup {range : PageRange} {ranges : List PageRange} (hpos : 0 < range.numPages)
    (hnodup : ((range.pages : Multiset Nat) + pagesOf ranges).Nodup) : range ∉ ranges := by
  intro hmem
  have hfirst : range.startPageIdx ∈ range.pages := mem_pages.mpr ⟨le_rfl, by omega⟩
  exact Multiset.disjoint_left.mp (Multiset.nodup_add.mp hnodup).2.2 (Multiset.mem_coe.mpr hfirst)
    (mem_pagesOf.mpr ⟨range, hmem, hfirst⟩)

/-! ## Levels -/

theorem getLevel_mono {m n : Nat} (hm : 0 < m) (h : m ≤ n) : getLevel m ≤ getLevel n := by
  rw [getLevel, getLevel, if_neg (by omega), if_neg (by omega)]
  exact (Nat.le_log2 (by omega)).mpr (le_trans (Nat.log2_self_le (by omega)) h)

/-- Each range is in the list of its level, and no range is empty. -/
def Levelled (freeLists : List SortedFreeList) : Prop :=
  ∀ level list, freeLists[level]? = some list →
    ∀ entry ∈ list.entries, 0 < entry.numPages ∧ getLevel entry.numPages = level

namespace SortedFreeList

theorem insertEntry_perm {entry : PageRange} {xs : List PageRange} (h : entry ∉ xs) :
    (insertEntry entry xs).Perm (entry :: xs) := by
  induction xs with
  | nil => exact .rfl
  | cons x xs ih =>
    obtain ⟨hne, hxs⟩ := not_or.mp (mt mem_cons.mpr h)
    rw [insertEntry]
    split
    · exact .rfl
    · split
      · exact ((ih hxs).cons x).trans (Perm.swap ..)
      · rename_i hnot hnot'
        exact absurd (eq_of_not_entryCmp hnot hnot') hne

theorem lowerBound_some {key entry : PageRange} {list : SortedFreeList}
    (h : list.lowerBound key = some entry) : entry ∈ list.entries ∧ key.numPages ≤ entry.numPages := by
  refine ⟨mem_of_find?_eq_some h, ?_⟩
  have hnot := find?_some h
  unfold entryCmp at hnot
  grind

/-- `lower_bound` at page 0 finds every range that is long enough. -/
theorem lowerBound_isSome {numPages : Nat} {entry : PageRange} {list : SortedFreeList}
    (hmem : entry ∈ list.entries) (hle : numPages ≤ entry.numPages) :
    (list.lowerBound ⟨0, numPages⟩).isSome := by
  refine find?_isSome.mpr ⟨entry, hmem, ?_⟩
  unfold entryCmp
  grind

end SortedFreeList

/-! ## Lists of lists -/

/-- A list that is changed in one place: the entries before, in and after it. -/
theorem flatMap_modify {freeLists : List SortedFreeList} {level : Nat} {list : SortedFreeList}
    (hget : freeLists[level]? = some list) (change : SortedFreeList → SortedFreeList) :
    ∃ before after, freeLists.flatMap (·.entries) = before ++ list.entries ++ after ∧
      (freeLists.modify level change).flatMap (·.entries) = before ++ (change list).entries ++ after := by
  obtain ⟨hlt, hlist⟩ := List.getElem?_eq_some_iff.mp hget
  refine ⟨(freeLists.take level).flatMap (·.entries), (freeLists.drop (level + 1)).flatMap (·.entries), ?_, ?_⟩
  · conv_lhs => rw [← take_append_drop level freeLists, drop_eq_getElem_cons hlt, hlist]
    simp
  · rw [modify_eq_take_cons_drop hlt, hlist]
    simp

theorem getElem?_modify {freeLists : List SortedFreeList} {level i : Nat}
    {change : SortedFreeList → SortedFreeList} {list : SortedFreeList}
    (h : (freeLists.modify level change)[i]? = some list) :
    ∃ old, freeLists[i]? = some old ∧ list = if level = i then change old else old := by
  rw [List.getElem?_modify] at h
  obtain ⟨old, hold, rfl⟩ := Option.map_eq_some_iff.mp h
  exact ⟨old, hold, by split <;> rfl⟩

namespace FreeSpaceManager

theorem flatMap_resizeFreeLists (level : Nat) (freeLists : List SortedFreeList) :
    (resizeFreeLists level freeLists).flatMap (·.entries) = freeLists.flatMap (·.entries) := by
  simp [resizeFreeLists, empty]

variable {freeLists : List SortedFreeList}

theorem levelled_resizeFreeLists (level : Nat)
    (h : Levelled freeLists) : Levelled (resizeFreeLists level freeLists) := by
  intro i list hget
  rw [resizeFreeLists, getElem?_append] at hget
  split at hget
  · exact h i list hget
  · obtain rfl := eq_of_mem_replicate (mem_of_getElem? hget)
    intro entry hentry
    exact absurd hentry not_mem_nil

theorem resizeFreeLists_getElem? (level : Nat) (freeLists : List SortedFreeList) :
    ∃ list, (resizeFreeLists level freeLists)[level]? = some list := by
  have hlt : level < (resizeFreeLists level freeLists).length := by
    simp only [resizeFreeLists, length_append, length_replicate]
    omega
  exact ⟨_, getElem?_eq_getElem hlt⟩

/-- The free lists are levelled and counted. -/
structure Filed (manager : FreeSpaceManager) : Prop where
  levelled : Levelled manager.freeLists
  numEntries : manager.numEntries = manager.entries.length

theorem filed_new : Filed .new where
  levelled level list h := by simp [new] at h
  numEntries := rfl

variable {manager : FreeSpaceManager} {entry : PageRange}

theorem Filed.numPages_pos (h : manager.Filed) (hentry : entry ∈ manager.entries) : 0 < entry.numPages := by
  obtain ⟨list, hlist, hmem⟩ := mem_flatMap.mp hentry
  obtain ⟨level, hget⟩ := getElem?_of_mem hlist
  exact (h.levelled level list hget entry hmem).1

/-! ## Adding a range -/

theorem entries_addFreePages (hnew : entry ∉ manager.entries) :
    (manager.addFreePages entry).entries.Perm (entry :: manager.entries) := by
  obtain ⟨list, hlist⟩ := resizeFreeLists_getElem? (getLevel entry.numPages) manager.freeLists
  obtain ⟨before, after, hold, hadd⟩ := flatMap_modify hlist (·.insert entry)
  rw [flatMap_resizeFreeLists] at hold
  have hentries : manager.entries = before ++ list.entries ++ after := hold
  have hnot : entry ∉ list.entries := fun hmem => hnew (by rw [hentries]; simp [hmem])
  have hperm : (before ++ (list.insert entry).entries ++ after).Perm (before ++ (entry :: list.entries) ++ after) :=
    ((insertEntry_perm hnot).append_left before).append_right after
  calc (manager.addFreePages entry).entries = before ++ (list.insert entry).entries ++ after := hadd
    _ |>.Perm (before ++ (entry :: list.entries) ++ after) := hperm
    _ |>.Perm (entry :: manager.entries) := by
      rw [hentries, append_assoc, append_assoc]
      exact perm_middle

theorem Filed.addFreePages (h : manager.Filed)
    (hpos : 0 < entry.numPages) (hnew : entry ∉ manager.entries) : (manager.addFreePages entry).Filed where
  levelled := by
    intro level list hget e he
    obtain ⟨old, hold, rfl⟩ := getElem?_modify hget
    have hlevel := levelled_resizeFreeLists (getLevel entry.numPages) h.levelled level old hold
    split at he
    · rename_i hlvl
      rcases mem_insertEntry he with rfl | he
      · exact ⟨hpos, hlvl⟩
      · exact hlevel e he
    · exact hlevel e he
  numEntries := by
    rw [(entries_addFreePages hnew).length_eq]
    exact congrArg (· + 1) h.numEntries

theorem pagesOf_addFreePages (hnew : entry ∉ manager.entries) : pagesOf (manager.addFreePages entry).entries =
      (entry.pages : Multiset Nat) + pagesOf manager.entries := by
  rw [pagesOf_perm (entries_addFreePages hnew), pagesOf_cons]

/-! ## Popping a range -/

theorem findEntry_some {numPages level : Nat} (h : manager.findEntry numPages = some (level, entry)) :
    ∃ list, manager.freeLists[level]? = some list ∧ entry ∈ list.entries ∧ numPages ≤ entry.numPages := by
  obtain ⟨level', -, hlevel⟩ := exists_of_findSome?_eq_some h
  obtain ⟨list, hlist, hfound⟩ := Option.bind_eq_some_iff.mp hlevel
  obtain ⟨entry', hbound, heq⟩ := Option.map_eq_some_iff.mp hfound
  obtain ⟨rfl, rfl⟩ := Prod.mk.inj heq
  exact ⟨list, hlist, lowerBound_some hbound⟩

/-- A stored range that is long enough is found: its level is not below the one where the search
starts. -/
theorem findEntry_isSome {numPages : Nat} (h : manager.Filed) (hpos : 0 < numPages) (hmem : entry ∈ manager.entries)
    (hle : numPages ≤ entry.numPages) : (manager.findEntry numPages).isSome := by
  obtain ⟨list, hlist, hentry⟩ := mem_flatMap.mp hmem
  obtain ⟨level, hget⟩ := getElem?_of_mem hlist
  obtain ⟨hlt, -⟩ := List.getElem?_eq_some_iff.mp hget
  have hlevel : getLevel numPages ≤ level := (h.levelled level list hget entry hentry).2 ▸ getLevel_mono hpos hle
  obtain ⟨found, hfound⟩ := Option.isSome_iff_exists.mp (lowerBound_isSome hentry hle)
  refine findSome?_isSome_iff.mpr ⟨level, mem_range'_1.mpr ⟨hlevel, by omega⟩, ?_⟩
  simp [hget, hfound]

theorem entries_erase {level : Nat} {list : SortedFreeList} (hget : freeLists[level]? = some list)
    (hmem : entry ∈ list.entries) :
    (freeLists.flatMap (·.entries)).Perm (entry :: (freeLists.modify level (·.erase entry)).flatMap (·.entries)) := by
  obtain ⟨before, after, hold, herase⟩ := flatMap_modify hget (·.erase entry)
  rw [hold, herase, append_assoc, append_assoc]
  exact (((perm_cons_erase hmem).append_right after).append_left before).trans perm_middle

theorem levelled_erase (h : Levelled freeLists) (level : Nat)
    (entry : PageRange) : Levelled (freeLists.modify level (·.erase entry)) := by
  intro i list hget e he
  obtain ⟨old, hold, rfl⟩ := getElem?_modify hget
  refine h i old hold e ?_
  split at he
  · exact mem_of_mem_erase he
  · exact he

/-- `splitPageRange` returns the front of the range and files the rest. -/
theorem splitPageRange_spec {chunk : PageRange} {numRequiredPages : Nat}
    (h : manager.Filed) (hle : numRequiredPages ≤ chunk.numPages)
    (hnodup : ((chunk.pages : Multiset Nat) + pagesOf manager.entries).Nodup) :
    (splitPageRange chunk numRequiredPages manager).2.Filed ∧ (chunk.pages : Multiset Nat) + pagesOf manager.entries =
        ((splitPageRange chunk numRequiredPages manager).1.pages : Multiset Nat) +
          pagesOf (splitPageRange chunk numRequiredPages manager).2.entries := by
  obtain ⟨start, numPages⟩ := chunk
  obtain ⟨rest, rfl⟩ := Nat.exists_eq_add_of_le hle
  rw [pages_split] at hnodup ⊢
  unfold splitPageRange
  split
  · rename_i hlt
    simp only [Nat.add_sub_cancel_left] at hlt ⊢
    rw [add_assoc] at hnodup
    have hnew : PageRange.mk (start + numRequiredPages) rest ∉ manager.entries :=
      not_mem_of_nodup (by simpa using hlt) (Multiset.nodup_add.mp hnodup).2.1
    refine ⟨h.addFreePages (by simpa using hlt) hnew, ?_⟩
    rw [pagesOf_addFreePages hnew, add_assoc]
  · rename_i hge
    obtain rfl : rest = 0 := by simpa using hge
    exact ⟨h, by simp [pages]⟩

/-- `popFreePages` takes a range of the requested length off the free pages, or none. -/
theorem popFreePages_spec (numPages : Nat) (h : manager.Filed) (hnodup : (pagesOf manager.entries).Nodup) :
    (manager.popFreePages numPages = (none, manager)) ∨
      ∃ range manager', manager.popFreePages numPages = (some range, manager') ∧
        range.numPages = numPages ∧ 0 < numPages ∧ manager'.Filed ∧
        manager'.uncheckpointedFreePageRanges = manager.uncheckpointedFreePageRanges ∧
        pagesOf manager.entries = (range.pages : Multiset Nat) + pagesOf manager'.entries := by
  unfold popFreePages
  split
  · rename_i hpos
    cases hfind : manager.findEntry numPages with
    | none => exact .inl rfl
    | some found =>
      obtain ⟨level, entry⟩ := found
      obtain ⟨list, hget, hmem, hle⟩ := findEntry_some hfind
      have hperm : manager.entries.Perm _ := entries_erase hget hmem
      have hpages := pagesOf_perm hperm
      rw [pagesOf_cons] at hpages
      have hfiled : Filed { manager with
            freeLists := manager.freeLists.modify level (·.erase entry)
            numEntries := manager.numEntries - 1 } :=
        ⟨levelled_erase h.levelled level entry, by
          rw [h.numEntries, hperm.length_eq]
          rfl⟩
      obtain ⟨hsplit, hsplitPages⟩ := splitPageRange_spec hfiled hle (hpages ▸ hnodup)
      refine .inr ⟨_, _, rfl, rfl, hpos, hsplit, ?_, hpages.trans hsplitPages⟩
      unfold splitPageRange
      split <;> rfl
  · exact .inl rfl

/-! ## Merging ranges -/

/-- The loop of `mergePageRanges` keeps the pages. -/
theorem mergeEntries_spec {rest : List PageRange} {prevEntry : PageRange}
    (h : manager.Filed) (hpos : ∀ entry ∈ prevEntry :: rest, 0 < entry.numPages)
    (hnodup : (pagesOf (prevEntry :: rest) + pagesOf manager.entries).Nodup) :
    (mergeEntries prevEntry rest manager).2.Filed ∧ 0 < (mergeEntries prevEntry rest manager).1.numPages ∧
      pagesOf (prevEntry :: rest) + pagesOf manager.entries =
        ((mergeEntries prevEntry rest manager).1.pages : Multiset Nat) +
          pagesOf (mergeEntries prevEntry rest manager).2.entries := by
  induction rest generalizing prevEntry manager with
  | nil => exact ⟨h, hpos prevEntry mem_cons_self, by simp [mergeEntries]⟩
  | cons entry rest ih =>
    have hprev := hpos prevEntry mem_cons_self
    rw [mergeEntries]
    split
    · rename_i hadjacent
      have hmerged : pagesOf (prevEntry :: entry :: rest) =
          pagesOf (⟨prevEntry.startPageIdx, prevEntry.numPages + entry.numPages⟩ :: rest) := by
        rw [pagesOf_cons, pagesOf_cons, pagesOf_cons, pages_split, hadjacent, add_assoc]
      rw [hmerged] at hnodup ⊢
      refine ih h (fun e he => ?_) hnodup
      rcases mem_cons.mp he with rfl | he
      · exact Nat.add_pos_left hprev _
      · exact hpos e (by simp [he])
    · have hswap : pagesOf (prevEntry :: entry :: rest) + pagesOf manager.entries =
          pagesOf (entry :: rest) + ((prevEntry.pages : Multiset Nat) + pagesOf manager.entries) := by
        rw [pagesOf_cons prevEntry, add_comm (prevEntry.pages : Multiset Nat), add_assoc]
      rw [hswap] at hnodup ⊢
      have hnew : prevEntry ∉ manager.entries := not_mem_of_nodup hprev (Multiset.nodup_add.mp hnodup).2.1
      rw [← pagesOf_addFreePages hnew] at hnodup ⊢
      exact ih (h.addFreePages hprev hnew) (fun e he => hpos e (mem_cons_of_mem _ he)) hnodup

theorem range_eq_range_add_pages {range : PageRange} {numPages : Nat}
    (h : range.startPageIdx + range.numPages = numPages) :
    Multiset.range numPages = Multiset.range range.startPageIdx + (range.pages : Multiset Nat) := by
  subst h
  rw [Multiset.range, Multiset.range, pages, range_eq_range', range_eq_range']
  congr 1
  simpa using (range'_append_1 (s := 0) (m := range.startPageIdx) (n := range.numPages)).symm

end FreeSpaceManager

end CycleJoin
