import Mathlib

/-!
# The free space manager

The `FreeSpaceManager` (`storage/free_space_manager.cpp`) keeps the free page ranges of a file in lists
by level, the exponent of the largest power of 2 that is at most the length of the range. A
`PageManager` (`storage/page_manager.cpp`) allocates from these lists before it adds pages to the file.
A range that is freed waits in `uncheckpointedFreePageRanges` for the end of the next checkpoint, which
merges adjacent ranges and cuts a free range off the end of the file.

Page indices are natural numbers: `page_idx_t` has 32 bits, and the file is taken to stay below `2 ^ 32`
pages, where the two are the same. The frames of evicted pages belong to the buffer manager; only the
flag that asks it for a clean-up is here.
-/

namespace CycleJoin

structure PageRange where
  startPageIdx : Nat
  numPages : Nat
deriving DecidableEq, Repr

def PageRange.pages (range : PageRange) : List Nat := List.range' range.startPageIdx range.numPages

/-- The `FileHandle` of the data file, by its number of pages. -/
structure FileHandle where
  numPages : Nat
deriving DecidableEq, Repr

namespace FileHandle

/-- `addNewPages` returns the first of the new pages. -/
def addNewPages (numNewPages : Nat) (fileHandle : FileHandle) : Nat × FileHandle :=
  (fileHandle.numPages, ⟨fileHandle.numPages + numNewPages⟩)

def removePageIdxAndTruncateIfNecessary (pageIdx : Nat) (fileHandle : FileHandle) : FileHandle :=
  if fileHandle.numPages ≤ pageIdx then fileHandle else ⟨pageIdx⟩

end FileHandle

/-! ## Free lists -/

/-- `getLevel`. The trailing zeros of `bit_floor(0) = 0` are all 32 bits of the page index. -/
def getLevel (numPages : Nat) : Nat := if numPages = 0 then 32 else numPages.log2

def entryCmp (a b : PageRange) : Bool :=
  if a.numPages = b.numPages then a.startPageIdx < b.startPageIdx else a.numPages < b.numPages

theorem entryCmp_trans {a b c : PageRange} (hab : entryCmp a b) (hbc : entryCmp b c) : entryCmp a c := by
  unfold entryCmp at *
  grind

theorem eq_of_not_entryCmp {a b : PageRange} (hab : ¬ entryCmp a b) (hba : ¬ entryCmp b a) : a = b := by
  cases a
  cases b
  unfold entryCmp at *
  grind

/-- A `sorted_free_list_t`: a set of ranges ordered by `entryCmp`. -/
structure SortedFreeList where
  entries : List PageRange
  sorted : entries.Pairwise (fun a b => entryCmp a b)

namespace SortedFreeList

def empty : SortedFreeList := ⟨[], .nil⟩

/-- The place of an entry in an ordered list; an entry that is there is not added again. -/
def insertEntry (entry : PageRange) : List PageRange → List PageRange
  | [] => [entry]
  | x :: xs =>
    if entryCmp entry x then entry :: x :: xs
    else if entryCmp x entry then x :: insertEntry entry xs
    else x :: xs

theorem mem_insertEntry {entry e : PageRange} {xs : List PageRange} (h : e ∈ insertEntry entry xs) :
    e = entry ∨ e ∈ xs := by
  induction xs with
  | nil => exact .inl (List.mem_singleton.mp h)
  | cons x xs ih =>
    rw [insertEntry] at h
    grind

theorem pairwise_insertEntry (entry : PageRange) {xs : List PageRange} (hxs : xs.Pairwise (fun a b => entryCmp a b)) :
    (insertEntry entry xs).Pairwise (fun a b => entryCmp a b) := by
  induction xs with
  | nil => exact List.pairwise_singleton ..
  | cons x xs ih =>
    obtain ⟨hx, hxs'⟩ := List.pairwise_cons.mp hxs
    rw [insertEntry]
    split
    · rename_i hentry
      refine List.pairwise_cons.mpr ⟨fun e he => ?_, hxs⟩
      rcases List.mem_cons.mp he with rfl | he
      · exact hentry
      · exact entryCmp_trans hentry (hx e he)
    · split
      · rename_i hlt
        refine List.pairwise_cons.mpr ⟨fun e he => ?_, ih hxs'⟩
        rcases mem_insertEntry he with rfl | he
        · exact hlt
        · exact hx e he
      · exact hxs

def insert (entry : PageRange) (list : SortedFreeList) : SortedFreeList :=
  ⟨insertEntry entry list.entries, pairwise_insertEntry entry list.sorted⟩

def erase (entry : PageRange) (list : SortedFreeList) : SortedFreeList :=
  ⟨list.entries.erase entry, list.sorted.sublist List.erase_sublist⟩

/-- `lower_bound`: the first entry that is not before the key. -/
def lowerBound (key : PageRange) (list : SortedFreeList) : Option PageRange :=
  list.entries.find? (fun entry => !entryCmp entry key)

end SortedFreeList

/-! ## The free space manager -/

structure FreeSpaceManager where
  freeLists : List SortedFreeList
  uncheckpointedFreePageRanges : List PageRange
  numEntries : Nat
  needClearEvictedEntries : Bool

namespace FreeSpaceManager

def new : FreeSpaceManager := ⟨[], [], 0, false⟩

/-- The ranges of all free lists, in the order of a `FreeEntryIterator`. -/
def entries (manager : FreeSpaceManager) : List PageRange :=
  manager.freeLists.flatMap (·.entries)

/-- `getFreeList` makes room for the level. -/
def resizeFreeLists (level : Nat) (freeLists : List SortedFreeList) : List SortedFreeList :=
  freeLists ++ List.replicate (level + 1 - freeLists.length) .empty

def addFreePages (entry : PageRange) (manager : FreeSpaceManager) : FreeSpaceManager :=
  let entryLevel := getLevel entry.numPages
  { manager with
    freeLists := (resizeFreeLists entryLevel manager.freeLists).modify entryLevel (·.insert entry)
    numEntries := manager.numEntries + 1 }

/-- `evictPages` takes the pages out of their frames. -/
def evictPages (manager : FreeSpaceManager) : FreeSpaceManager :=
  { manager with needClearEvictedEntries := true }

def evictAndAddFreePages (entry : PageRange) (manager : FreeSpaceManager) : FreeSpaceManager :=
  manager.evictPages.addFreePages entry

def addUncheckpointedFreePages (entry : PageRange) (manager : FreeSpaceManager) : FreeSpaceManager :=
  { manager with
    uncheckpointedFreePageRanges := manager.uncheckpointedFreePageRanges ++ [entry] }

def splitPageRange (chunk : PageRange) (numRequiredPages : Nat) (manager : FreeSpaceManager) :
    PageRange × FreeSpaceManager :=
  (⟨chunk.startPageIdx, numRequiredPages⟩, if numRequiredPages < chunk.numPages then
      manager.addFreePages
        ⟨chunk.startPageIdx + numRequiredPages, chunk.numPages - numRequiredPages⟩
    else manager)

/-- The loop of `popFreePages` over the levels, up to the first one with an entry that is long enough. -/
def findEntry (numPages : Nat) (manager : FreeSpaceManager) : Option (Nat × PageRange) :=
  let levelToSearch := getLevel numPages
  (List.range' levelToSearch (manager.freeLists.length - levelToSearch)).findSome? fun level =>
    (manager.freeLists[level]?).bind fun curList =>
      (curList.lowerBound ⟨0, numPages⟩).map fun entry => (level, entry)

def popFreePages (numPages : Nat) (manager : FreeSpaceManager) : Option PageRange × FreeSpaceManager :=
  if numPages > 0 then
    match manager.findEntry numPages with
    | some (level, entry) =>
      let popped := splitPageRange entry numPages { manager with
          freeLists := manager.freeLists.modify level (·.erase entry)
          numEntries := manager.numEntries - 1 }
      (some popped.1, popped.2)
    | none => (none, manager)
  else (none, manager)

def resetFreeLists (manager : FreeSpaceManager) : FreeSpaceManager :=
  { manager with freeLists := [], numEntries := 0 }

/-- The loop of `mergePageRanges`; it ends with the last merged range. -/
def mergeEntries (prevEntry : PageRange) :
    List PageRange → FreeSpaceManager → PageRange × FreeSpaceManager
  | [], manager => (prevEntry, manager)
  | entry :: rest, manager =>
    if prevEntry.startPageIdx + prevEntry.numPages = entry.startPageIdx then
      mergeEntries ⟨prevEntry.startPageIdx, prevEntry.numPages + entry.numPages⟩ rest manager
    else mergeEntries entry rest (manager.addFreePages prevEntry)

def handleLastPageRange (pageRange : PageRange) (fileHandle : FileHandle)
    (manager : FreeSpaceManager) : FreeSpaceManager × FileHandle :=
  if pageRange.startPageIdx + pageRange.numPages = fileHandle.numPages then
    (manager, fileHandle.removePageIdxAndTruncateIfNecessary pageRange.startPageIdx)
  else (manager.addFreePages pageRange, fileHandle)

/-- The order in which `mergePageRanges` visits the ranges. -/
def sortByStartPageIdx (allEntries : List PageRange) : List PageRange :=
  allEntries.insertionSort (fun entryA entryB => entryA.startPageIdx ≤ entryB.startPageIdx)

def mergePageRanges (newInitialEntries : List PageRange) (fileHandle : FileHandle)
    (manager : FreeSpaceManager) : FreeSpaceManager × FileHandle :=
  match sortByStartPageIdx (newInitialEntries ++ manager.entries) with
  | [] => (manager, fileHandle)
  | prevEntry :: rest =>
    let merged := mergeEntries prevEntry rest manager.resetFreeLists
    handleLastPageRange merged.1 fileHandle merged.2

def finalizeCheckpoint (fileHandle : FileHandle) (manager : FreeSpaceManager) :
    FreeSpaceManager × FileHandle :=
  let evicted := if manager.uncheckpointedFreePageRanges = [] then manager else manager.evictPages
  mergePageRanges manager.uncheckpointedFreePageRanges fileHandle
    { evicted with uncheckpointedFreePageRanges := [] }

def clearEvictedBufferManagerEntriesIfNeeded (manager : FreeSpaceManager) : FreeSpaceManager :=
  { manager with needClearEvictedEntries := false }

end FreeSpaceManager

/-! ## The page manager -/

structure PageManager where
  freeSpaceManager : FreeSpaceManager
  fileHandle : FileHandle
  version : Nat

namespace PageManager

def new : PageManager := ⟨.new, ⟨0⟩, 0⟩

def allocatePageRange (numPages : Nat) (manager : PageManager) : PageRange × PageManager :=
  match manager.freeSpaceManager.popFreePages numPages with
  | (some allocatedFreeChunk, freeSpaceManager) =>
    (allocatedFreeChunk,
      { manager with freeSpaceManager := freeSpaceManager, version := manager.version + 1 })
  | (none, freeSpaceManager) =>
    let added := manager.fileHandle.addNewPages numPages
    (⟨added.1, numPages⟩,
      { manager with freeSpaceManager := freeSpaceManager, fileHandle := added.2 })

def freePageRange (entry : PageRange) (manager : PageManager) : PageManager :=
  { manager with
    freeSpaceManager := manager.freeSpaceManager.addUncheckpointedFreePages entry
    version := manager.version + 1 }

def freeImmediatelyRewritablePageRange (entry : PageRange) (manager : PageManager) : PageManager :=
  { manager with
    freeSpaceManager := manager.freeSpaceManager.evictAndAddFreePages entry
    version := manager.version + 1 }

def finalizeCheckpoint (manager : PageManager) : PageManager :=
  let finalized := manager.freeSpaceManager.finalizeCheckpoint manager.fileHandle
  { manager with freeSpaceManager := finalized.1, fileHandle := finalized.2 }

def clearEvictedBMEntriesIfNeeded (manager : PageManager) : PageManager :=
  { manager with
    freeSpaceManager := manager.freeSpaceManager.clearEvictedBufferManagerEntriesIfNeeded }

end PageManager

end CycleJoin
