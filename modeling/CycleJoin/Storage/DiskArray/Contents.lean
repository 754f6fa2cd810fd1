import CycleJoin.Storage.DiskArray.Pages

/-!
# The contents of a disk array

`Holds array checkpointed current iterators` says that readers find the elements of the last checkpoint,
the write transaction its own, and that each live iterator writes to the page where the write
transaction reads.
-/

namespace CycleJoin

open Function DiskArray

namespace DiskArray

variable {α : Type*} {array : DiskArray α} {checkpointed current : List α}
  {iterators : Nat → Option WriteIterator}

/-! ## Versions of pages -/

section
variable (pageIdx : Nat) (array : DiskArray α)

/-- The version of a page that the write transaction reads and writes. -/
def version : Nat → α :=
  if array.isOnDisk pageIdx then (array.shadowPages pageIdx).getD (array.file pageIdx)
  else array.file pageIdx

/-- The frame of that version. -/
def frameOf : Frame :=
  if array.isOnDisk pageIdx then .shadow pageIdx else .original pageIdx

/-- A page on disk has a shadow page. -/
def Pinned : Prop :=
  array.isOnDisk pageIdx → (array.shadowPages pageIdx).isSome

end

theorem readPage_checkpoint (h : array.hasTransactionalUpdates) (pageIdx : Nat) :
    array.readPage pageIdx .checkpoint = array.version pageIdx := by
  by_cases hdisk : array.isOnDisk pageIdx <;> simp [readPage, version, h]

theorem pinPage_fst (pageIdx : Nat) : (array.pinPage pageIdx).1 = array.frameOf pageIdx := by
  unfold pinPage frameOf
  split <;> rfl

theorem exists_pinPage_eq (pageIdx : Nat) (array : DiskArray α) :
    ∃ shadowPages, (array.pinPage pageIdx).2 = { array with shadowPages := shadowPages } := by
  unfold pinPage
  split <;> exact ⟨_, rfl⟩

theorem version_of_not_isOnDisk {pageIdx : Nat} (h : ¬ array.isOnDisk pageIdx) :
    array.version pageIdx = array.file pageIdx := if_neg h

theorem version_of_isOnDisk {pageIdx : Nat} (h : array.isOnDisk pageIdx) :
    array.version pageIdx = (array.shadowPages pageIdx).getD (array.file pageIdx) := if_pos h

/-! ## The invariant -/

/-- An iterator has no page, or its element on the page where the write transaction reads it. -/
def PointsInto (array : DiskArray α) (iter : WriteIterator) : Prop :=
  (iter.frame = none ∧ iter.apIdx = none) ∨ ∃ p, iter.frame = some (array.frameOf p) ∧
      iter.idx < array.headerForWriteTrx.numElements ∧
      iter.apIdx = some (iter.idx / array.numElementsPerPage) ∧
      iter.elemPosInPage = iter.idx % array.numElementsPerPage ∧
      array.getAPPageIdx (iter.idx / array.numElementsPerPage) .checkpoint = some p ∧ array.Pinned p

structure Holds (array : DiskArray α) (checkpointed current : List α)
    (iterators : Nat → Option WriteIterator) : Prop where
  paged : array.Paged
  numElements : array.header.numElements = checkpointed.length
  numElementsForWriteTrx : array.headerForWriteTrx.numElements = current.length
  reads_current : ∀ i v, current[i]? = some v → ∃ p,
    array.getAPPageIdx (i / array.numElementsPerPage) .checkpoint = some p ∧
      array.version p (i % array.numElementsPerPage) = v
  reads_checkpointed : ∀ i v, checkpointed[i]? = some v → ∃ p,
    array.getAPPageIdx (i / array.numElementsPerPage) .checkpoint = some p ∧
      array.file p (i % array.numElementsPerPage) = v
  shadow_isOnDisk : ∀ p, (array.shadowPages p).isSome → array.isOnDisk p
  clean : array.hasTransactionalUpdates = false → current = checkpointed ∧
    array.pipUpdates = .empty ∧ ∀ p, array.shadowPages p = none
  lastAPPageIdx : ∀ p ∈ array.lastAPPageIdx, (0 < array.getNumAPs array.headerForWriteTrx ∧
      array.getAPPageIdx (array.getNumAPs array.headerForWriteTrx - 1) .checkpoint = some p) ∨
    (current.length = checkpointed.length ∧ current.length % array.numElementsPerPage = 0)
  live : ∀ i iter, iterators i = some iter → array.hasTransactionalUpdates ∧ array.PointsInto iter

namespace Holds

variable {i : Nat} {v : α}

theorem getElem?_lt {l : List α} (h : l[i]? = some v) : i < l.length := (List.getElem?_eq_some_iff.mp h).1

theorem version_createShadowVersion (pageIdx q : Nat) :
    (array.createShadowVersionIfNecessary pageIdx).version q = array.version q := by
  by_cases hq : q = pageIdx
  · subst hq
    simp only [version, createShadowVersionIfNecessary, update_self]
    rfl
  · simp only [version, createShadowVersionIfNecessary, update_of_ne hq]
    rfl

theorem isSome_createShadowVersion {q : Nat} (pageIdx : Nat) (h : (array.shadowPages q).isSome) :
    ((array.createShadowVersionIfNecessary pageIdx).shadowPages q).isSome := by
  by_cases hq : q = pageIdx
  · subst hq
    simp [createShadowVersionIfNecessary]
  · simpa [createShadowVersionIfNecessary, update_of_ne hq] using h

variable (h : array.Holds checkpointed current iterators)
include h

/-- The write transaction reads the current elements. -/
theorem get_checkpoint (hv : current[i]? = some v) : array.get i .checkpoint = some v := by
  obtain ⟨p, hp, hversion⟩ := h.reads_current i v hv
  rw [get, hp, Option.map_some, ← hversion]
  cases htrx : array.hasTransactionalUpdates with
  | true => rw [readPage_checkpoint htrx]
  | false =>
    have hnone := (h.clean htrx).2.2 p
    simp [readPage, version, hnone]

/-- A read transaction reads the checkpointed elements. -/
theorem get_readOnly (hv : checkpointed[i]? = some v) : array.get i .readOnly = some v := by
  obtain ⟨p, hp, hfile⟩ := h.reads_checkpointed i v hv
  have hlt : i / array.numElementsPerPage < array.getNumAPs array.header :=
    div_lt_ceil array.numElementsPerPage_pos (h.numElements ▸ getElem?_lt hv)
  rw [get, h.paged.readOnly _ hlt, hp, ← hfile]
  simp [readPage]

theorem page (hi : i < current.length) :
    ∃ p, array.getAPPageIdx (i / array.numElementsPerPage) .checkpoint = some p :=
  h.paged.page _ (div_lt_ceil array.numElementsPerPage_pos (h.numElementsForWriteTrx ▸ hi))

/-- Elements on one page at one position are the same. -/
theorem eq_of_page {i j p : Nat} (hi : i < current.length) (hj : j < current.length)
    (hpi : array.getAPPageIdx (i / array.numElementsPerPage) .checkpoint = some p)
    (hpj : array.getAPPageIdx (j / array.numElementsPerPage) .checkpoint = some p)
    (hmod : i % array.numElementsPerPage = j % array.numElementsPerPage) : i = j := by
  have hdiv := h.paged.injective _ _ p (div_lt_ceil array.numElementsPerPage_pos (h.numElementsForWriteTrx ▸ hi))
    (div_lt_ceil array.numElementsPerPage_pos (h.numElementsForWriteTrx ▸ hj)) hpi hpj
  rw [← Nat.div_add_mod i array.numElementsPerPage, hdiv, hmod, Nat.div_add_mod]

theorem checkpointed_le : checkpointed.length ≤ current.length := by
  rw [← h.numElements, ← h.numElementsForWriteTrx]
  exact h.paged.le

/-! ## Pinning and writing a page -/

theorem setTransactionalUpdates :
    ({ array with hasTransactionalUpdates := true } : DiskArray α).Holds checkpointed current
      iterators :=
  { h with
    paged := { h.paged with }
    clean := fun htrx => absurd htrx Bool.noConfusion
    live := fun i iter hiter => ⟨rfl, (h.live i iter hiter).2⟩ }

/-- A page that is pinned keeps its contents. -/
theorem pinPage (htrx : array.hasTransactionalUpdates) (pageIdx : Nat) :
    (array.pinPage pageIdx).2.Holds checkpointed current iterators ∧ (array.pinPage pageIdx).2.Pinned pageIdx := by
  unfold DiskArray.pinPage
  split
  · rename_i hdisk
    refine ⟨{ h with
      paged := { h.paged with }
      reads_current := ?_
      shadow_isOnDisk := ?_
      clean := fun hclean => ?_
      live := ?_ }, fun _ => ?_⟩
    · intro i v hv
      obtain ⟨p, hp, hversion⟩ := h.reads_current i v hv
      exact ⟨p, hp, by rw [version_createShadowVersion]; exact hversion⟩
    · intro q hq
      by_cases hqp : q = pageIdx
      · exact hqp ▸ hdisk
      · exact h.shadow_isOnDisk q (by
          simpa [createShadowVersionIfNecessary, update_of_ne hqp] using hq)
    · exact absurd (htrx.symm.trans hclean) Bool.noConfusion
    · intro i iter hiter
      obtain ⟨hlive, hpoints⟩ := h.live i iter hiter
      refine ⟨hlive, hpoints.imp_right ?_⟩
      rintro ⟨p, hframe, hidx, hap, hpos, hp, hpinned⟩
      exact ⟨p, hframe, hidx, hap, hpos, hp, fun hq => isSome_createShadowVersion _ (hpinned hq)⟩
    · simp [createShadowVersionIfNecessary]
  · rename_i hdisk
    exact ⟨h, fun hdisk' => absurd hdisk' hdisk⟩

end Holds

/-- The effect of a write to a page of the write transaction. The file changes only where the page is
new to the transaction. -/
structure Writes (p pos : Nat) (val : α) (array array' : DiskArray α) : Prop where
  contents : ∃ file shadowPages, array' = { array with file := file, shadowPages := shadowPages }
  version : array'.version p = Function.update (array.version p) pos val
  version_of_ne : ∀ q ≠ p, array'.version q = array.version q
  file : ∀ q pos', q ≠ p ∨ pos' ≠ pos ∨ array.isOnDisk p → array'.file q pos' = array.file q pos'
  shadow_isSome : ∀ q, (array'.shadowPages q).isSome = (array.shadowPages q).isSome

theorem writes_writeFrame {p : Nat} (hpinned : array.Pinned p) (pos : Nat) (val : α) :
    Writes p pos val array (array.writeFrame (array.frameOf p) pos val) := by
  unfold frameOf
  split
  · rename_i hdisk
    obtain ⟨page, hpage⟩ := Option.isSome_iff_exists.mp (hpinned hdisk)
    have hdisk' : (array.writeFrame (.shadow p) pos val).isOnDisk p := hdisk
    refine ⟨⟨_, _, rfl⟩, ?_, fun q hq => ?_, fun _ _ _ => rfl, fun q => ?_⟩
    · rw [version_of_isOnDisk hdisk, version_of_isOnDisk hdisk']
      simp [writeFrame, hpage]
    · simp only [version, writeFrame, update_of_ne hq]
      rfl
    · by_cases hq : q = p
      · subst hq
        simp [writeFrame]
      · simp [writeFrame, update_of_ne hq]
  · rename_i hdisk
    have hdisk' : ¬ (array.writeFrame (.original p) pos val).isOnDisk p := hdisk
    refine ⟨⟨_, _, rfl⟩, ?_, fun q hq => ?_, fun q pos' hne => ?_, fun _ => rfl⟩
    · rw [version_of_not_isOnDisk hdisk, version_of_not_isOnDisk hdisk']
      simp [writeFrame]
    · simp only [version, writeFrame, update_of_ne hq]
      rfl
    · by_cases hq : q = p
      · subst hq
        have hpos : pos' ≠ pos := by tauto
        simp [writeFrame, update_of_ne hpos]
      · simp [writeFrame, update_of_ne hq]

namespace Holds

/-- The write transaction sets an element. An element that readers have too is on a page on disk, so
that only its shadow page is written. -/
theorem of_writes (h : array.Holds checkpointed current iterators)
    (htrx : array.hasTransactionalUpdates) {i p : Nat} {val : α} {array' : DiskArray α}
    (hi : i < current.length)
    (hp : array.getAPPageIdx (i / array.numElementsPerPage) .checkpoint = some p)
    (hold : i < checkpointed.length → array.isOnDisk p)
    (hwrites : Writes p (i % array.numElementsPerPage) val array array') :
    array'.Holds checkpointed (current.set i val) iterators := by
  obtain ⟨⟨file, shadowPages, rfl⟩, hversion, hother, hfile, hsome⟩ := hwrites
  refine ⟨{ h.paged with }, h.numElements, ?_, ?_, ?_, ?_, fun hclean => ?_, ?_, ?_⟩
  · rw [List.length_set]
    exact h.numElementsForWriteTrx
  · intro j v hv
    by_cases hj : j = i
    · subst hj
      rw [List.getElem?_set_self hi] at hv
      refine ⟨p, hp, ?_⟩
      rw [hversion]
      simpa using hv
    · rw [List.getElem?_set_ne (Ne.symm hj)] at hv
      obtain ⟨q, hq, hread⟩ := h.reads_current j v hv
      refine ⟨q, hq, ?_⟩
      by_cases hqp : q = p
      · subst hqp
        have hmod : j % array.numElementsPerPage ≠ i % array.numElementsPerPage :=
          fun hmod => hj (h.eq_of_page (getElem?_lt hv) hi hq hp hmod)
        rw [hversion]
        exact (update_of_ne hmod _ _).trans hread
      · rw [hother q hqp]
        exact hread
  · intro j v hv
    obtain ⟨q, hq, hread⟩ := h.reads_checkpointed j v hv
    refine ⟨q, hq, (hfile q _ ?_).trans hread⟩
    by_cases hqp : q = p
    · subst hqp
      by_cases hmod : j % array.numElementsPerPage = i % array.numElementsPerPage
      · have hj := h.eq_of_page (Nat.lt_of_lt_of_le (getElem?_lt hv) h.checkpointed_le) hi hq hp hmod
        exact .inr (.inr (hold (hj ▸ getElem?_lt hv)))
      · exact .inr (.inl hmod)
    · exact .inl hqp
  · intro q hq
    exact h.shadow_isOnDisk q ((hsome q).symm.trans hq)
  · exact absurd (htrx.symm.trans hclean) Bool.noConfusion
  · rw [List.length_set]
    exact h.lastAPPageIdx
  · intro k iter hiter
    obtain ⟨hlive, hpoints⟩ := h.live k iter hiter
    refine ⟨hlive, hpoints.imp_right ?_⟩
    rintro ⟨q, hframe, hidx, hap, hpos, hq, hpinned⟩
    exact ⟨q, hframe, hidx, hap, hpos, hq, fun hdisk => (hsome q).trans (hpinned hdisk)⟩

end Holds

/-! ## Updates and iterators -/

/-- The page of an element is on disk if readers have the element too. -/
def WritesOldPage (i : Nat) (array : DiskArray α) : Prop :=
  i < array.header.numElements →
    ∀ p ∈ array.getAPPageIdx (i / array.numElementsPerPage) .checkpoint, array.isOnDisk p

instance (i : Nat) (array : DiskArray α) : Decidable (array.WritesOldPage i) :=
  inferInstanceAs (Decidable (_ → ∀ p ∈ array.getAPPageIdx _ _, array.isOnDisk p))

namespace Holds

variable (h : array.Holds checkpointed current iterators)
include h

/-- The write transaction pins the page of an element and sets the element. -/
theorem pinAndWrite (htrx : array.hasTransactionalUpdates) {i p : Nat} (val : α) (hi : i < current.length)
    (hp : array.getAPPageIdx (i / array.numElementsPerPage) .checkpoint = some p)
    (hold : i < checkpointed.length → array.isOnDisk p) :
    ((array.pinPage p).2.writeFrame (array.pinPage p).1 (i % array.numElementsPerPage) val).Holds
      checkpointed (current.set i val) iterators := by
  obtain ⟨hpin, hpinned⟩ := h.pinPage htrx p
  obtain ⟨shadowPages, hshadow⟩ := exists_pinPage_eq p array
  rw [pinPage_fst, hshadow]
  rw [hshadow] at hpin hpinned
  exact hpin.of_writes htrx hi hp hold (writes_writeFrame hpinned _ val)

theorem update {i : Nat} (val : α) (hi : i < current.length) (hold : array.WritesOldPage i) :
    ∃ array', array.update i val = some array' ∧ array'.Holds checkpointed (current.set i val) iterators := by
  obtain ⟨p, hp⟩ := h.page hi
  rw [DiskArray.update, hp]
  exact ⟨_, rfl, h.setTransactionalUpdates.pinAndWrite rfl val hi hp fun hlt =>
    hold (h.numElements ▸ hlt) p hp⟩

theorem iterMut (id : Nat) :
    array.iterMut.2.Holds checkpointed current (Function.update iterators id (some array.iterMut.1)) := by
  have hset := h.setTransactionalUpdates
  refine { hset with live := fun i iter hiter => ?_ }
  by_cases hi : i = id
  · subst hi
    obtain rfl : WriteIterator.new = iter := by simpa [DiskArray.iterMut] using hiter
    exact ⟨rfl, .inl ⟨rfl, rfl⟩⟩
  · rw [update_of_ne hi] at hiter
    exact hset.live i iter hiter

variable {iter : WriteIterator}

theorem setIterator (htrx : array.hasTransactionalUpdates) (hiter : array.PointsInto iter)
    (id : Nat) : array.Holds checkpointed current (Function.update iterators id (some iter)) := by
  refine { h with live := fun i other hother => ?_ }
  by_cases hi : i = id
  · subst hi
    obtain rfl : iter = other := by simpa using hother
    exact ⟨htrx, hiter⟩
  · rw [update_of_ne hi] at hother
    exact h.live i other hother

/-- `getPage` pins the page of the iterator's element. -/
theorem getPage (htrx : array.hasTransactionalUpdates) {i p : Nat} (hi : i < current.length) (frame : Option Frame)
    (hp : array.getAPPageIdx (i / array.numElementsPerPage) .checkpoint = some p) :
    ∃ array', array.getPage p ⟨some (i / array.numElementsPerPage), i % array.numElementsPerPage, i, frame⟩ =
        (⟨some (i / array.numElementsPerPage), i % array.numElementsPerPage, i, some (array.frameOf p)⟩, array') ∧
      array'.Holds checkpointed current iterators ∧ array'.hasTransactionalUpdates ∧
      array'.PointsInto ⟨some (i / array.numElementsPerPage), i % array.numElementsPerPage, i,
        some (array.frameOf p)⟩ := by
  obtain ⟨hpin, hpinned⟩ := h.pinPage htrx p
  obtain ⟨shadowPages, hshadow⟩ := exists_pinPage_eq p array
  rw [DiskArray.getPage, pinPage_fst, hshadow]
  rw [hshadow] at hpin hpinned
  exact ⟨_, rfl, hpin, htrx, .inr ⟨p, rfl, h.numElementsForWriteTrx ▸ hi, rfl, rfl, hp, hpinned⟩⟩

theorem seek {id newIdx : Nat} (hiter : iterators id = some iter) (hi : newIdx < current.length) :
    ∃ iter' array', array.seek newIdx iter = some (iter', array') ∧ iter'.position = some newIdx ∧
      array'.Holds checkpointed current (Function.update iterators id (some iter')) := by
  obtain ⟨htrx, hpoints⟩ := h.live id iter hiter
  obtain ⟨p, hp⟩ := h.page hi
  unfold DiskArray.seek
  by_cases hap : iter.apIdx = some (newIdx / array.numElementsPerPage)
  · -- the iterator stays on its page
    rw [if_neg (not_not.mpr hap)]
    rcases hpoints with ⟨-, hnone⟩ | ⟨q, hframe, -, hapIdx, -, hq, hpinned⟩
    · exact absurd (hnone.symm.trans hap) (by simp)
    · refine ⟨_, _, rfl, by rw [hframe]; rfl, h.setIterator htrx ?_ id⟩
      have hdiv : iter.idx / array.numElementsPerPage = newIdx / array.numElementsPerPage := by
        simpa [hap] using hapIdx.symm
      rw [hdiv] at hq
      exact .inr ⟨q, hframe, h.numElementsForWriteTrx ▸ hi, rfl, rfl, hq, hpinned⟩
  · rw [if_pos hap, hp]
    obtain ⟨array', hget, hholds, htrx', hpoints'⟩ := h.getPage htrx hi iter.frame hp
    exact ⟨_, _, congrArg some hget, rfl, hholds.setIterator htrx' hpoints' id⟩

theorem assign {id i : Nat} (hiter : iterators id = some iter) (hposition : iter.position = some i) (val : α)
    (hold : array.WritesOldPage i) :
    ∃ array', array.assign val iter = some array' ∧ array'.Holds checkpointed (current.set i val) iterators := by
  obtain ⟨htrx, hpoints⟩ := h.live id iter hiter
  rcases hpoints with ⟨hnone, -⟩ | ⟨p, hsome, hidx, -, hpos, hp, hpinned⟩
  · simp [WriteIterator.position, hnone] at hposition
  · obtain rfl : iter.idx = i := by simpa [WriteIterator.position, hsome] using hposition
    rw [DiskArray.assign, hsome, hpos]
    exact ⟨_, rfl, h.of_writes htrx (h.numElementsForWriteTrx ▸ hidx) hp
      (fun hlt => hold (h.numElements ▸ hlt) p hp) (writes_writeFrame hpinned _ val)⟩

end Holds

end DiskArray

end CycleJoin
