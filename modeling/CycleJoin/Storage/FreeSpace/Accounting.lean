import CycleJoin.Storage.FreeSpace.Coalescing

/-!
# Page accounting

Callers allocate page ranges and free pages that they own. In every run from an empty file the free
pages, the pages that wait for a checkpoint and the owned pages are together the pages of the file, each
once (`Conserved`).
-/

namespace CycleJoin

open Multiset FreeSpaceManager

/-- A call of the `PageManager`. -/
inductive PageCall where
  | allocatePageRange (numPages : Nat)
  | freePageRange (entry : PageRange)
  | freeImmediatelyRewritablePageRange (entry : PageRange)
  | finalizeCheckpoint
  | clearEvictedBMEntriesIfNeeded
deriving DecidableEq, Repr

/-- A page manager and the pages that its callers own. -/
structure PageSystem where
  pageManager : PageManager
  owned : Multiset Nat

namespace PageSystem

def new : PageSystem := ⟨.new, 0⟩

section
variable (system : PageSystem)

def stored : List PageRange := system.pageManager.freeSpaceManager.entries

/-- The ranges that wait for the end of a checkpoint. -/
def pending : List PageRange :=
  system.pageManager.freeSpaceManager.uncheckpointedFreePageRanges

/-- Callers own what is allocated, up to the call that frees it. -/
def step : PageCall → PageSystem
  | .allocatePageRange numPages =>
    let allocated := system.pageManager.allocatePageRange numPages
    ⟨allocated.2, system.owned + (allocated.1.pages : Multiset Nat)⟩
  | .freePageRange entry =>
    ⟨system.pageManager.freePageRange entry, system.owned - (entry.pages : Multiset Nat)⟩
  | .freeImmediatelyRewritablePageRange entry =>
    ⟨system.pageManager.freeImmediatelyRewritablePageRange entry,
      system.owned - (entry.pages : Multiset Nat)⟩
  | .finalizeCheckpoint => { system with pageManager := system.pageManager.finalizeCheckpoint }
  | .clearEvictedBMEntriesIfNeeded =>
    { system with pageManager := system.pageManager.clearEvictedBMEntriesIfNeeded }

def run (calls : List PageCall) : PageSystem := calls.foldl step system

/-- A caller frees pages that it owns, and at least one. -/
def Frees (entry : PageRange) : Prop :=
  0 < entry.numPages ∧ (entry.pages : Multiset Nat) ≤ system.owned

end

instance (system : PageSystem) (entry : PageRange) : Decidable (system.Frees entry) :=
  inferInstanceAs (Decidable (_ ∧ _))

/-- The callers keep to the pages they own. -/
def Allows (system : PageSystem) : PageCall → Prop
  | .freePageRange entry => system.Frees entry
  | .freeImmediatelyRewritablePageRange entry => system.Frees entry
  | _ => True

instance (system : PageSystem) (call : PageCall) : Decidable (system.Allows call) := by
  cases call <;> unfold Allows <;> infer_instance

/-- Every call of a run is allowed when it is made. -/
def AllowsAll (system : PageSystem) : List PageCall → Prop
  | [] => True
  | call :: calls => system.Allows call ∧ (system.step call).AllowsAll calls

instance AllowsAll.decidable (system : PageSystem) :
    (calls : List PageCall) → Decidable (system.AllowsAll calls)
  | [] => inferInstanceAs (Decidable True)
  | call :: calls =>
    haveI := AllowsAll.decidable (system.step call) calls
    inferInstanceAs (Decidable (_ ∧ _))

/-! ## The invariant -/

/-- Each page of the file is free, pending or owned, and only one of them. -/
structure Conserved (system : PageSystem) : Prop where
  filed : system.pageManager.freeSpaceManager.Filed
  pending_pos : ∀ entry ∈ system.pending, 0 < entry.numPages
  pages : pagesOf system.pending + pagesOf system.stored + system.owned =
    range system.pageManager.fileHandle.numPages

theorem conserved_new : Conserved new where
  filed := filed_new
  pending_pos _ h := absurd h List.not_mem_nil
  pages := rfl

namespace Conserved

variable {system : PageSystem}

variable (h : system.Conserved)
include h

theorem nodup : (pagesOf system.pending + pagesOf system.stored + system.owned).Nodup := h.pages ▸ nodup_range _

theorem stored_nodup : (pagesOf system.stored).Nodup := (nodup_add.mp (nodup_add.mp h.nodup).1).2.1

/-- An owned range is not stored: its pages are not free. -/
theorem not_mem_stored {entry : PageRange} (hfrees : system.Frees entry) : entry ∉ system.stored := by
  intro hmem
  have hfirst : entry.startPageIdx ∈ entry.pages := PageRange.mem_pages.mpr ⟨le_rfl, Nat.lt_add_of_pos_right hfrees.1⟩
  have hdisjoint := (nodup_add.mp h.nodup).2.2
  exact disjoint_left.mp hdisjoint (mem_add.mpr (.inr (mem_pagesOf.mpr ⟨entry, hmem, hfirst⟩)))
    (mem_of_le hfrees.2 (mem_coe.mpr hfirst))

theorem allocatePageRange (numPages : Nat) : (system.step (.allocatePageRange numPages)).Conserved := by
  rcases popFreePages_spec numPages h.filed h.stored_nodup with
    hnone | ⟨range, manager', hpop, -, -, hfiled, hpending, hpages⟩
  · have hstep : system.step (.allocatePageRange numPages) = ⟨{ system.pageManager with
            fileHandle := ⟨system.pageManager.fileHandle.numPages + numPages⟩ },
          system.owned + ((PageRange.mk system.pageManager.fileHandle.numPages numPages).pages : Multiset Nat)⟩ := by
      simp [step, PageManager.allocatePageRange, hnone, FileHandle.addNewPages]
    rw [hstep]
    refine ⟨h.filed, h.pending_pos, ?_⟩
    rw [← add_assoc]
    exact (congrArg (· + _) h.pages).trans (range_eq_range_add_pages rfl).symm
  · have hstep : system.step (.allocatePageRange numPages) = ⟨{ system.pageManager with
            freeSpaceManager := manager', version := system.pageManager.version + 1 },
          system.owned + (range.pages : Multiset Nat)⟩ := by
      simp [step, PageManager.allocatePageRange, hpop]
    rw [hstep]
    refine ⟨hfiled, fun entry hentry => h.pending_pos entry ?_, ?_⟩
    · rw [pending, hpending] at hentry
      exact hentry
    refine Eq.trans ?_ h.pages
    simp only [pending, stored, hpending, hpages]
    rw [add_comm system.owned, ← add_assoc, add_comm (range.pages : Multiset Nat), ← add_assoc]

theorem freePageRange {entry : PageRange} (hfrees : system.Frees entry) :
    (system.step (.freePageRange entry)).Conserved := by
  refine ⟨⟨h.filed.levelled, h.filed.numEntries⟩, fun e he => ?_, ?_⟩
  · rcases List.mem_append.mp he with he | he
    · exact h.pending_pos e he
    · obtain rfl := List.mem_singleton.mp he
      exact hfrees.1
  · refine Eq.trans ?_ h.pages
    calc pagesOf (system.pending ++ [entry]) + pagesOf system.stored + (system.owned - (entry.pages : Multiset Nat))
        = pagesOf system.pending + pagesOf system.stored +
            ((entry.pages : Multiset Nat) + (system.owned - (entry.pages : Multiset Nat))) := by
          rw [pagesOf_append, pagesOf_cons, pagesOf_nil, add_zero, add_right_comm (pagesOf system.pending), add_assoc]
      _ = _ := by rw [add_comm (entry.pages : Multiset Nat), Multiset.sub_add_cancel hfrees.2]

theorem freeImmediatelyRewritablePageRange {entry : PageRange} (hfrees : system.Frees entry) :
    (system.step (.freeImmediatelyRewritablePageRange entry)).Conserved := by
  have hfiled : system.pageManager.freeSpaceManager.evictPages.Filed := ⟨h.filed.levelled, h.filed.numEntries⟩
  have hnew := h.not_mem_stored hfrees
  refine ⟨hfiled.addFreePages hfrees.1 hnew, h.pending_pos, ?_⟩
  have hadd : pagesOf (system.step (.freeImmediatelyRewritablePageRange entry)).stored =
      (entry.pages : Multiset Nat) + pagesOf system.stored :=
    pagesOf_addFreePages hnew
  refine Eq.trans ?_ h.pages
  calc pagesOf system.pending + pagesOf (system.step (.freeImmediatelyRewritablePageRange entry)).stored +
        (system.owned - (entry.pages : Multiset Nat))
      = pagesOf system.pending + pagesOf system.stored +
          ((entry.pages : Multiset Nat) + (system.owned - (entry.pages : Multiset Nat))) := by
        rw [hadd, add_comm (entry.pages : Multiset Nat), ← add_assoc, add_assoc]
    _ = _ := by rw [add_comm (entry.pages : Multiset Nat), Multiset.sub_add_cancel hfrees.2]

theorem finalizeCheckpoint : (system.step .finalizeCheckpoint).Conserved := by
  have hnodup := (nodup_add.mp (h.pages ▸ nodup_range _)).1
  have hmerges := finalizeCheckpoint_merges ⟨h.filed, h.pending_pos, hnodup, fun page hpage =>
    mem_range.mp (h.pages ▸ mem_add.mpr (.inl hpage))⟩
  have hnone : (system.step .finalizeCheckpoint).pending = [] := uncheckpointed_mergePageRanges ..
  refine ⟨hmerges.filed, fun entry hentry => ?_, ?_⟩
  · rw [hnone] at hentry
    exact absurd hentry List.not_mem_nil
  · rw [hnone]
    exact hmerges.pages_add h.pages

theorem step {call : PageCall} (hallow : system.Allows call) : (system.step call).Conserved := by
  cases call with
  | allocatePageRange numPages => exact h.allocatePageRange numPages
  | freePageRange entry => exact h.freePageRange hallow
  | freeImmediatelyRewritablePageRange entry => exact h.freeImmediatelyRewritablePageRange hallow
  | finalizeCheckpoint => exact h.finalizeCheckpoint
  | clearEvictedBMEntriesIfNeeded =>
    exact ⟨⟨h.filed.levelled, h.filed.numEntries⟩, h.pending_pos, h.pages⟩

theorem run {calls : List PageCall} (hallow : system.AllowsAll calls) : (system.run calls).Conserved := by
  induction calls generalizing system with
  | nil => exact h
  | cons call calls ih => exact ih (h.step hallow.1) hallow.2

end Conserved

/-! ## What the accounts say -/

/-- The free lists are in order, and no page is lost or has two uses. -/
structure Balanced (system : PageSystem) : Prop where
  disjoint : system.stored.Pairwise fun a b => a.pages.Disjoint b.pages
  nonempty : ∀ entry ∈ system.stored, 0 < entry.numPages
  levels : ∀ level list, system.pageManager.freeSpaceManager.freeLists[level]? = some list →
    ∀ entry ∈ list.entries, getLevel entry.numPages = level
  numEntries : system.pageManager.freeSpaceManager.numEntries = system.stored.length
  free_not_owned : ∀ entry ∈ system.stored, ∀ page ∈ entry.pages, page ∉ system.owned
  pending_not_owned : ∀ entry ∈ system.pending, ∀ page ∈ entry.pages, page ∉ system.owned
  not_lost : ∀ page < system.pageManager.fileHandle.numPages, page ∈ system.owned ∨
    (∃ entry ∈ system.stored, page ∈ entry.pages) ∨ ∃ entry ∈ system.pending, page ∈ entry.pages
  pops : ∀ numPages > 0, (∃ entry ∈ system.stored, numPages ≤ entry.numPages) →
    ∃ range, (system.pageManager.freeSpaceManager.popFreePages numPages).1 = some range ∧
      range.numPages = numPages

theorem Conserved.balanced {system : PageSystem} (h : system.Conserved) : system.Balanced where
  disjoint := (List.nodup_flatMap.mp h.stored_nodup).2
  nonempty entry hentry := by
    obtain ⟨list, hlist, hmem⟩ := List.mem_flatMap.mp hentry
    obtain ⟨level, hget⟩ := List.getElem?_of_mem hlist
    exact (h.filed.levelled level list hget entry hmem).1
  levels level list hget entry hentry := (h.filed.levelled level list hget entry hentry).2
  numEntries := h.filed.numEntries
  free_not_owned entry hentry page hpage :=
    disjoint_left.mp (nodup_add.mp h.nodup).2.2 (mem_add.mpr (.inr (mem_pagesOf.mpr ⟨entry, hentry, hpage⟩)))
  pending_not_owned entry hentry page hpage :=
    disjoint_left.mp (nodup_add.mp h.nodup).2.2 (mem_add.mpr (.inl (mem_pagesOf.mpr ⟨entry, hentry, hpage⟩)))
  not_lost page hpage := by
    rw [← mem_range, ← h.pages, mem_add, mem_add, mem_pagesOf, mem_pagesOf] at hpage
    rcases hpage with (hpending | hstored) | howned
    · exact .inr (.inr hpending)
    · exact .inr (.inl hstored)
    · exact .inl howned
  pops numPages hpos hlong := by
    obtain ⟨entry, hentry, hle⟩ := hlong
    obtain ⟨found, hfound⟩ := Option.isSome_iff_exists.mp (findEntry_isSome h.filed hpos hentry hle)
    refine ⟨⟨found.2.startPageIdx, numPages⟩, ?_, rfl⟩
    rw [popFreePages, if_pos hpos, hfound]
    rfl

/-- From an empty file, callers that free only pages they own see balanced accounts after any calls. -/
theorem run_balanced (calls : List PageCall) (hallow : new.AllowsAll calls) : (new.run calls).Balanced :=
  (conserved_new.run hallow).balanced

/-- A range of five pages is freed in two parts around a checkpoint, taken again and rolled back. -/
def splitAndMergeCalls : List PageCall :=
  [.allocatePageRange 5, .allocatePageRange 1, .freePageRange ⟨0, 2⟩, .finalizeCheckpoint,
    .freePageRange ⟨2, 3⟩, .finalizeCheckpoint, .allocatePageRange 4,
    .freeImmediatelyRewritablePageRange ⟨0, 4⟩, .freePageRange ⟨5, 1⟩]

theorem splitAndMergeCalls_balanced :
    (new.run splitAndMergeCalls).stored = [⟨4, 1⟩, ⟨0, 4⟩] ∧ (new.run splitAndMergeCalls).Balanced :=
  ⟨by decide, run_balanced splitAndMergeCalls (by decide)⟩

/-- A request for no page is not served from the free lists, and an empty range that is freed is
stored. -/
theorem popFreePages_zero_and_empty_stored :
    ((new.run [.allocatePageRange 1, .freeImmediatelyRewritablePageRange ⟨0, 1⟩]).stored = [⟨0, 1⟩] ∧
      ((new.run [.allocatePageRange 1, .freeImmediatelyRewritablePageRange ⟨0, 1⟩]
        ).pageManager.freeSpaceManager.popFreePages 0).1 = none) ∧
    (new.pageManager.allocatePageRange 0).1 = ⟨0, 0⟩ ∧
      (new.run [.allocatePageRange 0, .freeImmediatelyRewritablePageRange ⟨0, 0⟩]).stored = [⟨0, 0⟩] := by
  decide

end PageSystem

end CycleJoin
