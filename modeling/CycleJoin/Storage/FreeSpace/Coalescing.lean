import CycleJoin.Storage.FreeSpace.FreeLists

/-!
# The free ranges after a checkpoint

`finalizeCheckpoint` leaves free ranges that cannot be merged further, and none that ends at the end of
the file. `getEntries` reads the ranges in slices, with an iterator over the levels.

* `mergeEntries_apart`: the ranges that the merging loop files end before the last one starts.
* `FreeEntryIterator.At`: the ranges that are still to come.
* `finalizeCheckpoint_coalesces`: both, for every file and all disjoint ranges.
-/

namespace CycleJoin

open List PageRange

/-- `FreeEntryIterator`: an entry of a free list. -/
structure FreeEntryIterator where
  freeListIdx : Nat
  freeListIt : Nat
deriving DecidableEq, Repr

namespace FreeEntryIterator

variable (freeLists : List SortedFreeList)

/-- `advanceFreeListIdx`: the first entry from a level on. -/
def advanceFreeListIdx (freeListIdx : Nat) : FreeEntryIterator :=
  ⟨freeListIdx + ((freeLists.drop freeListIdx).takeWhile (·.entries.isEmpty)).length, 0⟩

/-- `operator*`. -/
def get? (it : FreeEntryIterator) : Option PageRange :=
  freeLists[it.freeListIdx]?.bind fun list => list.entries[it.freeListIt]?

/-- `operator++`. -/
def next? (it : FreeEntryIterator) : Option FreeEntryIterator :=
  freeLists[it.freeListIdx]?.map fun list =>
    if it.freeListIt + 1 = list.entries.length then advanceFreeListIdx freeLists (it.freeListIdx + 1)
    else ⟨it.freeListIdx, it.freeListIt + 1⟩

def advance : Nat → FreeEntryIterator → Option FreeEntryIterator
  | 0, it => some it
  | numEntries + 1, it => (it.next? freeLists).bind (advance numEntries)

/-- The loop of `getEntries`. -/
def collect : Nat → FreeEntryIterator → Option (List PageRange)
  | 0, _ => some []
  | num + 1, it => do
    let entry ← it.get? freeLists
    let rest ← collect num (← it.next? freeLists)
    return entry :: rest

end FreeEntryIterator

namespace FreeSpaceManager

def getEntries (startOffset endOffset : Nat) (manager : FreeSpaceManager) : Option (List PageRange) :=
  (FreeEntryIterator.advance manager.freeLists startOffset
    (FreeEntryIterator.advanceFreeListIdx manager.freeLists 0)).bind
      (FreeEntryIterator.collect manager.freeLists (endOffset - startOffset))

/-- Calls of `getEntries` for one slice after the other. -/
def getSlices (manager : FreeSpaceManager) (startOffset : Nat) : List Nat → Option (List PageRange)
  | [] => some []
  | count :: counts => do
    let entries ← manager.getEntries startOffset (startOffset + count)
    return entries ++ (← manager.getSlices (startOffset + count) counts)

end FreeSpaceManager

/-! ## Slices -/

namespace FreeEntryIterator

variable {freeLists : List SortedFreeList}

/-- The entries from the iterator on. -/
structure At (freeLists : List SortedFreeList) (it : FreeEntryIterator) (rest : List PageRange) :
    Prop where
  rest_eq : rest = ((freeLists.drop it.freeListIdx).flatMap (·.entries)).drop it.freeListIt
  lt : rest ≠ [] → ∃ list, freeLists[it.freeListIdx]? = some list ∧ it.freeListIt < list.entries.length

theorem drop_takeWhile_isEmpty (lists : List SortedFreeList) : let k := (lists.takeWhile (·.entries.isEmpty)).length
    (lists.drop k).flatMap (·.entries) = lists.flatMap (·.entries) ∧ ∀ list ∈ lists[k]?, 0 < list.entries.length := by
  induction lists with
  | nil => simp
  | cons list lists ih =>
    cases h : list.entries with
    | nil => simpa [h] using ih
    | cons entry entries => simp [h]

theorem at_advanceFreeListIdx (i : Nat) :
    At freeLists (advanceFreeListIdx freeLists i) ((freeLists.drop i).flatMap (·.entries)) := by
  obtain ⟨hrest, hpos⟩ := drop_takeWhile_isEmpty (freeLists.drop i)
  rw [drop_drop] at hrest
  refine ⟨hrest.symm, fun hne => ?_⟩
  obtain ⟨list, hlist⟩ : ∃ list, freeLists[(advanceFreeListIdx freeLists i).freeListIdx]? = some list := by
    refine Option.ne_none_iff_exists'.mp fun hnone => hne ?_
    rw [← hrest, drop_eq_nil_of_le (by exact getElem?_eq_none_iff.mp hnone)]
    rfl
  exact ⟨list, hlist, hpos list (by rwa [getElem?_drop])⟩

theorem At.next {it : FreeEntryIterator} {entry : PageRange} {rest : List PageRange}
    (h : At freeLists it (entry :: rest)) : it.get? freeLists = some entry ∧
      ∃ it', it.next? freeLists = some it' ∧ At freeLists it' rest := by
  obtain ⟨list, hlist, hlt⟩ := h.lt (by simp)
  obtain ⟨hidx, rfl⟩ := List.getElem?_eq_some_iff.mp hlist
  have hrest := h.rest_eq
  rw [drop_eq_getElem_cons hidx, flatMap_cons, drop_append_of_le_length hlt.le,
    drop_eq_getElem_cons hlt, cons_append] at hrest
  obtain ⟨rfl, rfl⟩ := cons.inj hrest
  refine ⟨by rw [get?, hlist]; exact getElem?_eq_getElem hlt, ?_⟩
  rw [next?, hlist, Option.map_some]
  split
  · next hend =>
    refine ⟨_, rfl, ?_⟩
    rw [hend, drop_length]
    exact at_advanceFreeListIdx _
  · next hend =>
    refine ⟨_, rfl, ?_, fun _ => ⟨_, hlist, by simp only; omega⟩⟩
    simp only
    rw [drop_eq_getElem_cons hidx, flatMap_cons, drop_append_of_le_length (by omega)]

variable {it : FreeEntryIterator} {rest : List PageRange} (h : At freeLists it rest) {n : Nat}
  (hn : n ≤ rest.length)
include h hn

theorem At.advance : ∃ it', advance freeLists n it = some it' ∧ At freeLists it' (rest.drop n) := by
  induction n generalizing it rest with
  | zero => exact ⟨it, rfl, h⟩
  | succ n ih =>
    cases rest with
    | nil => simp at hn
    | cons entry rest =>
      obtain ⟨-, it₁, hit₁, h₁⟩ := h.next
      rw [advance, hit₁]
      exact ih h₁ (by simpa using hn)

theorem At.collect : collect freeLists n it = some (rest.take n) := by
  induction n generalizing it rest with
  | zero => rfl
  | succ n ih =>
    cases rest with
    | nil => simp at hn
    | cons entry rest =>
      obtain ⟨hget, it₁, hit₁, h₁⟩ := h.next
      simp only [collect, hget, hit₁, Option.bind_eq_bind, Option.bind_some, ih h₁ (by simpa using hn)]
      rfl

end FreeEntryIterator

namespace FreeSpaceManager

variable {manager : FreeSpaceManager}

theorem getEntries_eq {a b : Nat} (hab : a ≤ b) (hb : b ≤ manager.entries.length) :
    manager.getEntries a b = some ((manager.entries.drop a).take (b - a)) := by
  obtain ⟨it, hit, h⟩ := (@FreeEntryIterator.at_advanceFreeListIdx manager.freeLists 0).advance (hab.trans hb)
  rw [getEntries, hit]
  exact h.collect (by rw [length_drop]; exact Nat.sub_le_sub_right hb a)

theorem getSlices_eq {counts : List Nat} {a : Nat} (h : a + counts.sum = manager.entries.length) :
    manager.getSlices a counts = some (manager.entries.drop a) := by
  induction counts generalizing a with
  | nil => rw [getSlices, drop_eq_nil_of_le (by simpa using h.ge)]
  | cons count counts ih =>
    rw [sum_cons] at h
    rw [getSlices, getEntries_eq (by omega) (by omega), ih (by omega)]
    simp [← drop_drop]

/-- The entries are distinct, from the lower levels to the higher ones. -/
theorem Filed.pairwise (h : manager.Filed) :
    manager.entries.Pairwise fun a b => getLevel a.numPages ≤ getLevel b.numPages ∧ a ≠ b := by
  have hlevel {i : Nat} (hi : i < manager.freeLists.length) {e : PageRange}
      (he : e ∈ manager.freeLists[i].entries) : getLevel e.numPages = i :=
    (h.levelled i _ (getElem?_eq_getElem hi) e he).2
  refine pairwise_flatMap.mpr ⟨fun list hlist => ?_, pairwise_iff_getElem.mpr fun i j hi hj hij => ?_⟩
  · obtain ⟨i, hi, rfl⟩ := getElem_of_mem hlist
    refine (manager.freeLists[i].sorted.imp_of_mem fun ha hb hcmp => ?_)
    refine ⟨by rw [hlevel hi ha, hlevel hi hb], fun heq => ?_⟩
    simp [heq, entryCmp] at hcmp
  · intro a ha b hb
    have hlt : getLevel a.numPages < getLevel b.numPages := by rwa [hlevel hi ha, hlevel hj hb]
    exact ⟨hlt.le, fun heq => by simp [heq] at hlt⟩

/-! ## Merging -/

/-- Ranges of which none starts where another one ends. -/
def Apart (ranges : List PageRange) : Prop :=
  ∀ a ∈ ranges, ∀ b ∈ ranges, a.startPageIdx + a.numPages ≠ b.startPageIdx

/-- Filing a range that starts after a gap. -/
theorem mem_addFreePages {entry e : PageRange}
    (hgap : ∀ e ∈ manager.entries, e.startPageIdx + e.numPages < entry.startPageIdx) :
    e ∈ (manager.addFreePages entry).entries ↔ e = entry ∨ e ∈ manager.entries := by
  have hnew : entry ∉ manager.entries := fun hmem => by
    have := hgap entry hmem
    omega
  rw [(entries_addFreePages hnew).mem_iff, mem_cons]

theorem Apart.addFreePages {entry : PageRange} (h : Apart manager.entries) (hpos : 0 < entry.numPages)
    (hgap : ∀ e ∈ manager.entries, e.startPageIdx + e.numPages < entry.startPageIdx) :
    Apart (manager.addFreePages entry).entries := by
  intro a ha b hb
  rw [mem_addFreePages hgap] at ha hb
  rcases ha with rfl | ha <;> rcases hb with rfl | hb
  · omega
  · have := hgap b hb
    omega
  · exact (hgap a ha).ne
  · exact h a ha b hb

theorem mergeEntries_apart {prevEntry : PageRange} {rest : List PageRange}
    (hpos : ∀ entry ∈ prevEntry :: rest, 0 < entry.numPages)
    (hsorted : (prevEntry :: rest).Pairwise fun a b => a.startPageIdx + a.numPages ≤ b.startPageIdx)
    (h : Apart manager.entries)
    (hgap : ∀ e ∈ manager.entries, e.startPageIdx + e.numPages < prevEntry.startPageIdx) :
    Apart (mergeEntries prevEntry rest manager).2.entries ∧ ∀ e ∈ (mergeEntries prevEntry rest manager).2.entries,
        e.startPageIdx + e.numPages < (mergeEntries prevEntry rest manager).1.startPageIdx := by
  induction rest generalizing prevEntry manager with
  | nil => exact ⟨h, hgap⟩
  | cons entry rest ih =>
    obtain ⟨hprev, htail⟩ := pairwise_cons.mp hsorted
    obtain ⟨hentry, hrest⟩ := pairwise_cons.mp htail
    have hpos' : ∀ e ∈ entry :: rest, 0 < e.numPages := fun e he => hpos e (mem_cons_of_mem _ he)
    rw [mergeEntries]
    split
    · next hadjacent =>
      refine ih (forall_mem_cons.mpr ⟨?_, fun e he => hpos' e (mem_cons_of_mem _ he)⟩)
        (pairwise_cons.mpr ⟨fun e he => ?_, hrest⟩) h hgap
      · exact Nat.add_pos_left (hpos prevEntry mem_cons_self) _
      · have := hentry e he
        simp only
        omega
    · next hne =>
      have hlt := lt_of_le_of_ne (hprev entry mem_cons_self) hne
      have hstart := hpos prevEntry mem_cons_self
      refine ih hpos' htail (h.addFreePages hstart hgap) fun e he => ?_
      rcases (mem_addFreePages hgap).mp he with rfl | he
      · exact hlt
      · have := hgap e he
        omega

/-- Disjoint ranges in the order of their first pages. -/
theorem pairwise_sortByStartPageIdx {ranges : List PageRange} (hpos : ∀ r ∈ ranges, 0 < r.numPages)
    (hnodup : (pagesOf ranges).Nodup) : (sortByStartPageIdx ranges).Pairwise fun a b =>
      a.startPageIdx + a.numPages ≤ b.startPageIdx := by
  have hperm : (sortByStartPageIdx ranges).Perm ranges := perm_insertionSort ..
  have hdisjoint := (nodup_flatMap.mp (show ((sortByStartPageIdx ranges).flatMap (·.pages)).Nodup from by
    rwa [← pagesOf_perm hperm] at hnodup)).2
  have hsorted : (sortByStartPageIdx ranges).Pairwise fun a b => a.startPageIdx ≤ b.startPageIdx :=
    pairwise_insertionSort ..
  refine (hdisjoint.and hsorted).imp_of_mem fun {a b} _ hb hab => ?_
  by_contra hlt
  have hb := hpos b (hperm.mem_iff.mp hb)
  exact hab.1 (mem_pages.mpr ⟨hab.2, by omega⟩) (mem_pages.mpr ⟨le_rfl, by omega⟩)

/-- The free pages `free` of a file are merged, and cut off its end. -/
structure Coalesces (free : Multiset Nat) (numPages : Nat) (manager : FreeSpaceManager)
    (fileHandle : FileHandle) : Prop where
  filed : manager.Filed
  pages : pagesOf manager.entries = free.filter (· < fileHandle.numPages)
  truncated : fileHandle.numPages ≤ numPages ∧
    ∀ page, fileHandle.numPages ≤ page → page < numPages → page ∈ free
  apart : Apart manager.entries
  last : ∀ e ∈ manager.entries, e.startPageIdx + e.numPages ≠ fileHandle.numPages

variable {fileHandle : FileHandle}

theorem handleLastPageRange_coalesces {last : PageRange} (h : manager.Filed)
    (hpos : 0 < last.numPages) (hapart : Apart manager.entries)
    (hgap : ∀ e ∈ manager.entries, e.startPageIdx + e.numPages < last.startPageIdx)
    (hle : last.startPageIdx + last.numPages ≤ fileHandle.numPages) :
    Coalesces (last.pages + pagesOf manager.entries) fileHandle.numPages
      (handleLastPageRange last fileHandle manager).1 (handleLastPageRange last fileHandle manager).2 := by
  have hbefore : ∀ page ∈ pagesOf manager.entries, page < last.startPageIdx := fun page hpage => by
    obtain ⟨e, he, hmem⟩ := mem_pagesOf.mp hpage
    have := hgap e he
    have := mem_pages.mp hmem
    omega
  have hnew : last ∉ manager.entries := fun hmem => by
    have := hgap last hmem
    omega
  unfold handleLastPageRange
  split
  · next hend =>
    rw [FileHandle.removePageIdxAndTruncateIfNecessary, if_neg (by omega)]
    refine ⟨h, ?_, ⟨by simp only; omega, fun page hge hlt => ?_⟩, hapart, fun e he => (hgap e he).ne⟩
    · rw [Multiset.filter_add, Multiset.filter_eq_nil.mpr, Multiset.filter_eq_self.mpr hbefore, zero_add]
      exact fun page hpage => not_lt.mpr (mem_pages.mp hpage).1
    · exact Multiset.mem_add.mpr (.inl (mem_pages.mpr ⟨hge, by omega⟩))
  · next hend =>
    change Coalesces _ _ (manager.addFreePages last) fileHandle
    refine ⟨h.addFreePages hpos hnew, ?_, ⟨le_rfl, fun page hge hlt => by omega⟩,
      hapart.addFreePages hpos hgap, fun e he => ?_⟩
    · rw [pagesOf_addFreePages hnew, Multiset.filter_eq_self.mpr]
      intro page hpage
      rcases Multiset.mem_add.mp hpage with hpage | hpage
      · have := mem_pages.mp hpage
        omega
      · have := hbefore page hpage
        omega
    · rcases (mem_addFreePages hgap).mp he with rfl | he
      · exact hend
      · have := hgap e he
        omega

/-- `mergePageRanges` files the new ranges too, or takes them out of the file with its last range. -/
theorem mergePageRanges_coalesces (h : manager.Filed)
    {newInitialEntries : List PageRange} (hpos : ∀ entry ∈ newInitialEntries, 0 < entry.numPages)
    (hnodup : (pagesOf newInitialEntries + pagesOf manager.entries).Nodup)
    (hfile : ∀ page ∈ pagesOf newInitialEntries + pagesOf manager.entries, page < fileHandle.numPages) :
    Coalesces (pagesOf newInitialEntries + pagesOf manager.entries) fileHandle.numPages
      (mergePageRanges newInitialEntries fileHandle manager).1
      (mergePageRanges newInitialEntries fileHandle manager).2 := by
  have hperm : (sortByStartPageIdx (newInitialEntries ++ manager.entries)).Perm _ := perm_insertionSort ..
  have hall : ∀ entry ∈ newInitialEntries ++ manager.entries, 0 < entry.numPages := fun entry hentry =>
    (mem_append.mp hentry).elim (hpos entry) h.numPages_pos
  rw [← pagesOf_append] at hnodup hfile ⊢
  have hsorted := pairwise_sortByStartPageIdx hall hnodup
  rw [← pagesOf_perm hperm] at hnodup hfile ⊢
  unfold mergePageRanges
  generalize sortByStartPageIdx (newInitialEntries ++ manager.entries) = ranges at *
  cases ranges with
  | nil =>
    have hentries : manager.entries = [] := (append_eq_nil_iff.mp hperm.nil_eq.symm).2
    exact ⟨h, by simp [hentries], ⟨le_rfl, fun page hge hlt => absurd hlt (not_lt.mpr hge)⟩,
      by simp [Apart, hentries], by simp [hentries]⟩
  | cons prevEntry rest =>
    have hreset : manager.resetFreeLists.Filed := ⟨fun level list hget => absurd hget (by simp [resetFreeLists]), rfl⟩
    have hnone : manager.resetFreeLists.entries = [] := rfl
    have hpos' : ∀ entry ∈ prevEntry :: rest, 0 < entry.numPages := fun entry hentry =>
      hall entry (hperm.mem_iff.mp hentry)
    obtain ⟨hfiled, hlast, hpages⟩ := mergeEntries_spec hreset hpos' (by simpa [hnone] using hnodup)
    have hapart : Apart manager.resetFreeLists.entries := by simp [Apart, hnone]
    obtain ⟨hapart, hgap⟩ := mergeEntries_apart hpos' hsorted hapart (by simp [hnone])
    rw [hnone, pagesOf_nil, add_zero] at hpages
    rw [hpages] at hfile ⊢
    refine handleLastPageRange_coalesces hfiled hlast hapart hgap ?_
    have := hfile _ (Multiset.mem_add.mpr (.inl (Multiset.mem_coe.mpr (mem_pages.mpr
      ⟨Nat.le_add_right _ ((mergeEntries prevEntry rest manager.resetFreeLists).1.numPages - 1), by omega⟩))))
    omega

/-- The pages outside the free ranges stay in the file. -/
theorem Coalesces.pages_add {free others : Multiset Nat} {numPages : Nat}
    (h : Coalesces free numPages manager fileHandle) (hpages : free + others = Multiset.range numPages) :
    pagesOf manager.entries + others = Multiset.range fileHandle.numPages := by
  have hdisjoint := (Multiset.nodup_add.mp (hpages ▸ Multiset.nodup_range _)).2.2
  have hothers : others.filter (· < fileHandle.numPages) = others := by
    refine Multiset.filter_eq_self.mpr fun page hpage => Nat.lt_of_not_le fun hge => ?_
    have hlt : page ∈ Multiset.range numPages := hpages ▸ Multiset.mem_add.mpr (.inr hpage)
    exact Multiset.disjoint_left.mp hdisjoint (h.truncated.2 page hge (Multiset.mem_range.mp hlt)) hpage
  rw [h.pages, ← hothers, ← Multiset.filter_add, hpages]
  refine Multiset.Nodup.ext ((Multiset.nodup_range _).filter _) (Multiset.nodup_range _) |>.mpr fun page => ?_
  simp only [Multiset.mem_filter, Multiset.mem_range]
  exact and_iff_right_of_imp (Nat.lt_of_lt_of_le · h.truncated.1)

/-- Reading in slices gives each range once, from the lower levels to the higher ones. -/
structure Enumerates (manager : FreeSpaceManager) : Prop where
  slice : ∀ a b, a ≤ b → b ≤ manager.numEntries →
    manager.getEntries a b = some ((manager.entries.drop a).take (b - a))
  slices : ∀ counts : List Nat, counts.sum = manager.numEntries →
    manager.getSlices 0 counts = some manager.entries
  nodup : manager.entries.Nodup
  levels : manager.entries.Pairwise fun a b => getLevel a.numPages ≤ getLevel b.numPages

theorem Filed.enumerates (h : manager.Filed) : manager.Enumerates where
  slice _ _ hab hb := getEntries_eq hab (h.numEntries ▸ hb)
  slices _ hsum := getSlices_eq (by rw [zero_add, hsum, h.numEntries])
  nodup := h.pairwise.imp And.right
  levels := h.pairwise.imp And.left

/-- The pages that are free, or will be after the checkpoint. -/
def freedPages (manager : FreeSpaceManager) : Multiset Nat :=
  pagesOf manager.uncheckpointedFreePageRanges + pagesOf manager.entries

/-- The free ranges are disjoint ranges of a file. -/
structure Frees (manager : FreeSpaceManager) (fileHandle : FileHandle) : Prop where
  filed : manager.Filed
  pos : ∀ entry ∈ manager.uncheckpointedFreePageRanges, 0 < entry.numPages
  nodup : manager.freedPages.Nodup
  inFile : ∀ page ∈ manager.freedPages, page < fileHandle.numPages

theorem finalizeCheckpoint_merges (h : manager.Frees fileHandle) :
    Coalesces manager.freedPages fileHandle.numPages (manager.finalizeCheckpoint fileHandle).1
      (manager.finalizeCheckpoint fileHandle).2 := by
  unfold finalizeCheckpoint
  split
  · have hfiled : Filed { manager with uncheckpointedFreePageRanges := [] } :=
      ⟨h.filed.levelled, h.filed.numEntries⟩
    exact mergePageRanges_coalesces hfiled h.pos h.nodup h.inFile
  · have hfiled : Filed { manager.evictPages with uncheckpointedFreePageRanges := [] } :=
      ⟨h.filed.levelled, h.filed.numEntries⟩
    exact mergePageRanges_coalesces hfiled h.pos h.nodup h.inFile

theorem uncheckpointed_mergeEntries (prevEntry : PageRange) (rest : List PageRange) (manager : FreeSpaceManager) :
    (mergeEntries prevEntry rest manager).2.uncheckpointedFreePageRanges = manager.uncheckpointedFreePageRanges := by
  fun_induction mergeEntries with
  | case1 => rfl
  | case2 _ _ _ _ _ ih => exact ih
  | case3 _ _ _ _ _ ih => exact ih

theorem uncheckpointed_mergePageRanges (ranges : List PageRange) (fileHandle : FileHandle)
    (manager : FreeSpaceManager) :
    (mergePageRanges ranges fileHandle manager).1.uncheckpointedFreePageRanges =
      manager.uncheckpointedFreePageRanges := by
  unfold mergePageRanges handleLastPageRange
  split
  · rfl
  · dsimp only
    split <;> exact uncheckpointed_mergeEntries ..

/-- The end of a checkpoint merges all disjoint free ranges of a file. The ranges can be read in slices,
after the checkpoint as in every other state of the free lists. -/
theorem finalizeCheckpoint_coalesces (h : manager.Frees fileHandle) :
    Coalesces manager.freedPages fileHandle.numPages (manager.finalizeCheckpoint fileHandle).1
        (manager.finalizeCheckpoint fileHandle).2 ∧
      (manager.finalizeCheckpoint fileHandle).1.Enumerates ∧
      ∀ other : FreeSpaceManager, other.Filed → other.Enumerates :=
  have hmerges := finalizeCheckpoint_merges h
  ⟨hmerges, hmerges.filed.enumerates, fun _ => Filed.enumerates⟩

/-- Pages 1, 5 and 6 are free, and pages 2 to 4 wait for the checkpoint. -/
def twoLevels : FreeSpaceManager :=
  ((new.addFreePages ⟨5, 2⟩).addFreePages ⟨1, 1⟩).addUncheckpointedFreePages ⟨2, 3⟩

theorem frees_twoLevels : twoLevels.Frees ⟨8⟩ := by
  have h : (new.addFreePages ⟨5, 2⟩).Filed := filed_new.addFreePages (by decide) (by decide)
  have h : ((new.addFreePages ⟨5, 2⟩).addFreePages ⟨1, 1⟩).Filed := h.addFreePages (by decide) (by decide)
  exact ⟨⟨h.levelled, h.numEntries⟩, by decide, by decide, by decide⟩

theorem finalizeCheckpoint_twoLevels : (twoLevels.finalizeCheckpoint ⟨8⟩).1.entries = [⟨1, 6⟩] ∧
    (twoLevels.finalizeCheckpoint ⟨8⟩).1.Enumerates :=
  ⟨by decide, (finalizeCheckpoint_coalesces frees_twoLevels).2.1⟩

/-- The range of the lower level is read first. -/
theorem getEntries_twoLevels : twoLevels.getEntries 0 2 = some [⟨1, 1⟩, ⟨5, 2⟩] ∧
    getLevel 1 < getLevel 2 := by decide

end FreeSpaceManager

end CycleJoin
