import Mathlib

/-!
# Pages of the buffer manager

`storage/buffer_manager/buffer_manager.cpp` and `storage/buffer_manager/page_state.h`, for one page of a
file that is not in memory. The threads pin the page, write it and unpin it, read it optimistically, mark it
and evict it. Each atomic operation on the state word and each access to a word of the frame is a step of its
own; the steps of the threads interleave in any order.

`ι` are the positions of the words in the page, `ω` are the words. Releasing a frame makes its words zero.
Which pages are tried for eviction, and how much memory there is, is left open: a thread may mark and evict
at any time, and `claimAFrame` may fail.
-/

namespace CycleJoin
namespace BufferManager

/-! ## PageState -/

/-- `PageState::UNLOCKED`, `LOCKED`, `MARKED`, `EVICTED`. -/
def unlockedState : Nat := 0
def lockedState : Nat := 1
def markedState : Nat := 2
def evictedState : Nat := 3

/-- `getState`: the highest byte of the word. -/
def getState (stateAndVersion : Nat) : Nat := stateAndVersion / 2 ^ 56

/-- The other bytes: the version, with the dirty bit in its highest bit. -/
def getVersion (stateAndVersion : Nat) : Nat := stateAndVersion % 2 ^ 56

/-- `updateStateWithSameVersion`. -/
def updateStateWithSameVersion (old newState : Nat) : Nat := getVersion old + newState * 2 ^ 56

/-- `updateStateAndIncrementVersion`, for the new state `UNLOCKED`. The increment carries into the dirty
bit, and from there into the state. -/
def unlockedWithNextVersion (old : Nat) : Nat := getVersion old + 1

/-- `isDirty`. -/
def isDirty (stateAndVersion : Nat) : Bool := stateAndVersion / 2 ^ 55 % 2 = 1

/-- `setDirty`. -/
def setDirty (stateAndVersion : Nat) : Nat :=
  if isDirty stateAndVersion then stateAndVersion else stateAndVersion + 2 ^ 55

/-- `clearDirty`. -/
def clearDirty (stateAndVersion : Nat) : Nat :=
  if isDirty stateAndVersion then stateAndVersion - 2 ^ 55 else stateAndVersion

/-- The word that `resetToEvicted` stores. -/
def evictedWord : Nat := evictedState * 2 ^ 56

section Words

variable {w : Nat}

theorem getState_updateStateWithSameVersion (newState : Nat) :
    getState (updateStateWithSameVersion w newState) = newState := by
  unfold getState updateStateWithSameVersion getVersion
  omega

theorem getVersion_updateStateWithSameVersion (newState : Nat) :
    getVersion (updateStateWithSameVersion w newState) = getVersion w := by
  unfold updateStateWithSameVersion getVersion
  omega

theorem isDirty_updateStateWithSameVersion (newState : Nat) :
    isDirty (updateStateWithSameVersion w newState) = isDirty w := by
  unfold isDirty updateStateWithSameVersion getVersion
  rw [decide_eq_decide]
  omega

theorem getState_setDirty : getState (setDirty w) = getState w := by
  unfold setDirty isDirty getState
  split <;> rename_i h
  · rfl
  · have : w / 2 ^ 55 % 2 = 0 := by
      have := of_decide_eq_false (Bool.eq_false_iff.mpr h)
      omega
    omega

theorem getVersion_le_setDirty : getVersion w ≤ getVersion (setDirty w) := by
  unfold setDirty isDirty getVersion
  split <;> rename_i h
  · exact Nat.le_refl _
  · have : w / 2 ^ 55 % 2 = 0 := by
      have := of_decide_eq_false (Bool.eq_false_iff.mpr h)
      omega
    omega

theorem isDirty_setDirty : isDirty (setDirty w) = true := by
  unfold setDirty
  split <;> rename_i h
  · exact h
  · unfold isDirty at h ⊢
    have : w / 2 ^ 55 % 2 = 0 := by
      have := of_decide_eq_false (Bool.eq_false_iff.mpr h)
      omega
    rw [decide_eq_true_eq]
    omega

/-- An unlocked word comes after the locked one, unless the version is at its end. -/
theorem unlockedWithNextVersion_cases (w : Nat) : (getState (unlockedWithNextVersion w) = unlockedState ∧
      getVersion (unlockedWithNextVersion w) = getVersion w + 1 ∧
      (isDirty w = true → isDirty (unlockedWithNextVersion w) = true)) ∨
    getState (unlockedWithNextVersion w) = lockedState := by
  unfold unlockedWithNextVersion getState getVersion unlockedState lockedState isDirty
  simp only [decide_eq_true_eq]
  omega

theorem clearDirty_eq_self (h : getVersion w = 0) : clearDirty w = w := by
  have hclean : isDirty w = false := by
    unfold getVersion at h
    unfold isDirty
    rw [decide_eq_false_iff_not]
    omega
  rw [clearDirty, hclean]
  rfl

theorem getState_clearDirty : getState (clearDirty w) = getState w := by
  unfold clearDirty isDirty getState
  split <;> rename_i h
  · have := of_decide_eq_true h
    omega
  · rfl

end Words

/-! ## The threads -/

variable {ι ω : Type}

/-- `PageReadPolicy`. -/
inductive PageReadPolicy where
  | readPage
  | dontReadPage
  deriving DecidableEq

/-- Who has called `pin`: the user of the buffer manager, or `optimisticRead`. -/
inductive Pinner where
  | user (policy : PageReadPolicy)
  | reader
  deriving DecidableEq

/-- What a thread does next. -/
inductive Phase (ι ω : Type) where
  | idle
  /-- `pin`: at the start of the loop. -/
  | pinning (pinner : Pinner)
  /-- `pin`: the word has been loaded, and `tryLock` is next. -/
  | pinLoaded (pinner : Pinner) (w : Nat)
  /-- `pin`: an evicted page has been locked, and `claimAFrame` is next. -/
  | claiming (pinner : Pinner)
  /-- `cachePageIntoFrame` reads the page from the file. -/
  | loading (pinner : Pinner)
  /-- The page is pinned. `written`: the frame has been changed. -/
  | holding (pinner : Pinner) (written : Bool)
  /-- `unlock`: the word has been loaded, and the store is next. -/
  | unlocking (pinner : Pinner) (w : Nat)
  /-- `optimisticRead`: at the start of the loop. -/
  | reading
  /-- `optimisticRead`: `tryClearMark` is next. -/
  | clearing (w : Nat)
  /-- `optimisticRead`: in the callback, with the words that it has seen. -/
  | callback (w : Nat) (seen : List (ι × ω))
  /-- `optimisticRead` has returned. The contents are those that the page had during the call. -/
  | returned (seen : List (ι × ω)) (contents : List (ι → ω))
  /-- `evictPages`: `tryMark` is next. -/
  | marking (w : Nat)
  /-- `tryEvictPage`: the word has been loaded, and `tryLock` is next. -/
  | evictLoaded (w : Nat)
  /-- `tryEvictPage`: the page has been locked. -/
  | evicting
  /-- `unlockUnchanged`: the word has been loaded, and the store is next. -/
  | unlockingUnchanged (w : Nat)
  /-- `tryEvictPage`: the page has been flushed, and `releaseFrameForPage` is next. -/
  | flushed
  /-- `tryEvictPage`: the frame has been released, and `resetToEvicted` is next. -/
  | released

/-- What the threads share. `page` is the content of the page: what its holders have made of it. -/
structure Shared (ι ω : Type) where
  word : Nat
  frame : ι → ω
  file : ι → ω
  page : ι → ω

/-- What a thread can be made to do. -/
inductive Action (ι ω : Type) where
  /-- Calls `pin`. -/
  | pin (policy : PageReadPolicy)
  /-- Calls `optimisticRead`. -/
  | read
  /-- Loads the word in `evictPages`, to mark the page. -/
  | mark
  /-- Loads the word in `tryEvictPage`. -/
  | evict
  /-- The next atomic operation. -/
  | next
  /-- `claimAFrame` finds no memory. -/
  | claimFails
  /-- Reads a word of the page from the file. -/
  | loadWord (i : ι)
  /-- The holder of the page writes a word. -/
  | write (i : ι) (x : ω)
  /-- `setLockedPageDirty`. -/
  | setDirty
  /-- Calls `unpin`. -/
  | unpin
  /-- The callback reads a word. -/
  | readWord (i : ι)
  /-- `tryEvictPage` finds that the candidate is gone. -/
  | candidateGone
  deriving DecidableEq

section Step

variable [DecidableEq ι] [Fintype ι] [DecidableEq ω] [Zero ω]

/-- The next atomic operation of a thread: its phase and what is shared after it. `contents` are the
contents that the page has had since the thread has called `optimisticRead`. -/
def nextOperation (contents : List (ι → ω)) (sh : Shared ι ω) : Phase ι ω → Option (Phase ι ω × Shared ι ω)
  | .pinning pinner =>
    if getState sh.word = lockedState then some (.pinning pinner, sh)
    else some (.pinLoaded pinner sh.word, sh)
  | .pinLoaded pinner w =>
    if sh.word = w then
      let sh := { sh with word := updateStateWithSameVersion w lockedState }
      if getState w = evictedState then some (.claiming pinner, sh) else some (.holding pinner false, sh)
    else some (.pinning pinner, sh)
  | .claiming pinner =>
    let sh := { sh with word := clearDirty sh.word }
    match pinner with
    -- The frame is what it is; the holder is to write the page.
    | .user .dontReadPage => some (.holding pinner true, { sh with page := sh.frame })
    | _ => some (.loading pinner, sh)
  | .loading pinner => if sh.frame = sh.file then some (.holding pinner false, sh) else none
  | .holding .reader _ => some (.unlocking .reader sh.word, sh)
  | .unlocking pinner w =>
    let sh := { sh with word := unlockedWithNextVersion w }
    match pinner with
    | .reader => some (.reading, sh)
    | .user _ => some (.idle, sh)
  | .reading =>
    if getState sh.word = unlockedState then some (.callback sh.word [], sh)
    else if getState sh.word = markedState then some (.clearing sh.word, sh)
    else if getState sh.word = evictedState then some (.pinning .reader, sh)
    else some (.reading, sh)
  | .clearing w =>
    if sh.word = w then some (.reading, { sh with word := updateStateWithSameVersion w unlockedState })
    else some (.reading, sh)
  | .callback w seen => if sh.word = w then some (.returned seen contents, sh) else some (.reading, sh)
  | .returned _ _ => some (.idle, sh)
  | .marking w =>
    if sh.word = w then some (.idle, { sh with word := updateStateWithSameVersion w markedState })
    else some (.idle, sh)
  | .evictLoaded w =>
    if sh.word = w then some (.evicting, { sh with word := updateStateWithSameVersion w lockedState })
    else some (.idle, sh)
  | .unlockingUnchanged w =>
    some (.idle, { sh with word := updateStateWithSameVersion w unlockedState })
  | .evicting =>
    if isDirty sh.word then some (.flushed, { sh with file := sh.frame, word := clearDirty sh.word })
    else some (.flushed, sh)
  | .flushed => some (.released, { sh with frame := fun _ => 0 })
  | .released => some (.idle, { sh with word := evictedWord })
  | _ => none

/-- A step of a thread. -/
def threadStep (contents : List (ι → ω)) (sh : Shared ι ω) (p : Phase ι ω) :
    Action ι ω → Option (Phase ι ω × Shared ι ω)
  | .next => nextOperation contents sh p
  | .pin policy =>
    match p with
    | .idle => some (.pinning (.user policy), sh)
    | _ => none
  | .read =>
    match p with
    | .idle => some (.reading, sh)
    | _ => none
  | .mark =>
    match p with
    | .idle => if getState sh.word = unlockedState then some (.marking sh.word, sh) else some (.idle, sh)
    | _ => none
  | .evict =>
    match p with
    | .idle => if getState sh.word = markedState then some (.evictLoaded sh.word, sh) else some (.idle, sh)
    | _ => none
  | .claimFails =>
    match p with
    | .claiming _ => some (.idle, { sh with word := evictedWord })
    | _ => none
  | .loadWord i =>
    match p with
    | .loading pinner =>
      some (.loading pinner, { sh with frame := Function.update sh.frame i (sh.file i) })
    | _ => none
  | .write i x =>
    match p with
    | .holding (.user policy) _ =>
      some (.holding (.user policy) true, { sh with
        frame := Function.update sh.frame i x
        page := Function.update sh.page i x })
    | _ => none
  | .setDirty =>
    match p with
    | .holding (.user policy) written =>
      some (.holding (.user policy) written, { sh with word := setDirty sh.word })
    | _ => none
  | .unpin =>
    match p with
    -- The holder of a page that has been written has set it dirty.
    | .holding (.user policy) written =>
      if written && !isDirty sh.word then none else some (.unlocking (.user policy) sh.word, sh)
    | _ => none
  | .readWord i =>
    match p with
    | .callback w seen => some (.callback w (seen ++ [(i, sh.frame i)]), sh)
    | _ => none
  | .candidateGone =>
    match p with
    | .evicting => some (.unlockingUnchanged sh.word, sh)
    | _ => none

/-- The page and all threads. `contents` is for each thread what the page has been since its last call of
`optimisticRead`. -/
structure State (ι ω : Type) where
  shared : Shared ι ω
  phase : Nat → Phase ι ω
  contents : Nat → List (ι → ω)

/-- The contents of the page after a step; a call of `optimisticRead` starts with the present one. -/
def observe (s : State ι ω) (t : Nat) (a : Action ι ω) (page : ι → ω) : Nat → List (ι → ω) :=
  fun t' =>
    match a with
    | .read => if t' = t then [page] else page :: s.contents t'
    | _ => page :: s.contents t'

/-- A step of the thread `t`. -/
def State.step (s : State ι ω) (t : Nat) (a : Action ι ω) : Option (State ι ω) :=
  (threadStep (s.contents t) s.shared (s.phase t) a).map fun (p, sh) =>
    ⟨sh, Function.update s.phase t p, observe s t a sh.page⟩

/-- A run: the steps of the threads, in the order in which they interleave. -/
def State.run : State ι ω → List (Nat × Action ι ω) → Option (State ι ω)
  | s, [] => some s
  | s, (t, a) :: steps => (s.step t a).bind fun s => s.run steps

/-- All threads are idle and the page is evicted. -/
def State.init (file : ι → ω) : State ι ω :=
  ⟨⟨evictedWord, fun _ => 0, file, file⟩, fun _ => .idle, fun _ => []⟩

end Step

end BufferManager
end CycleJoin
