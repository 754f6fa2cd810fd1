import CycleJoin.Storage.DiskArray.PushBack

/-!
# Checkpoint and rollback of a disk array

The write transaction reads its own array and a read transaction the last checkpointed one, over whole
runs of the calls on a disk array. Two things are asked of a run. An element of the checkpointed array is
written only if `lastPageOnDisk` says that its page is on disk: the page is otherwise taken for a new one
and written in place. And no rollback drops array pages while the checkpointed array ends within a page:
`lastAPPageIdx` is left at a dropped page, and the next element would be written there.
-/

namespace CycleJoin

namespace DiskArray

variable {α : Type*} {array : DiskArray α} {checkpointed current : List α}
  {iterators : Nat → Option WriteIterator}

/-! ## Between transactions -/

/-- No transaction has changed the array, and its elements are on the pages of its file. -/
structure Settled (array : DiskArray α) (elements : List α) : Prop where
  header : array.headerForWriteTrx = array.header
  numElements : array.header.numElements = elements.length
  pipUpdates : array.pipUpdates = .empty
  shadowPages : ∀ p, array.shadowPages p = none
  pips_length : array.pips.length =
    (array.getNumAPs array.header + numPageIdxsPerPIP - 1) / numPageIdxsPerPIP
  page : ∀ a < array.getNumAPs array.header, ∃ p, array.getAPPageIdx a .readOnly = some p
  injective : ∀ a b p, a < array.getNumAPs array.header → b < array.getNumAPs array.header →
    array.getAPPageIdx a .readOnly = some p → array.getAPPageIdx b .readOnly = some p → a = b
  reads : ∀ i v, elements[i]? = some v → ∃ p,
    array.getAPPageIdx (i / array.numElementsPerPage) .readOnly = some p ∧
      array.file p (i % array.numElementsPerPage) = v
  lastAPPageIdx : ∀ p ∈ array.lastAPPageIdx, (0 < array.getNumAPs array.header ∧
      array.getAPPageIdx (array.getNumAPs array.header - 1) .readOnly = some p) ∨
    elements.length % array.numElementsPerPage = 0

theorem getAPPageIdx_of_empty (h : array.pipUpdates = .empty) (a : Nat) :
    array.getAPPageIdx a .checkpoint = array.getAPPageIdx a .readOnly := by
  unfold getAPPageIdx
  rw [getPIP_checkpoint, h]
  by_cases hlt : a / numPageIdxsPerPIP < array.pips.length
  · simp [hlt, PIPUpdates.empty]
  · simp [hlt, PIPUpdates.empty]

theorem Settled.holds {elements : List α} (h : array.Settled elements) :
    array.Holds elements elements fun _ => none := by
  have hget := getAPPageIdx_of_empty h.pipUpdates
  refine ⟨⟨Nat.le_of_eq (by rw [h.header]), h.pips_length, ?_, ?_, ?_, ?_, ?_, ?_⟩, h.numElements, ?_, ?_,
    ?_, ?_, ?_, ?_, ?_⟩
  · rw [h.header, h.pipUpdates]
    exact h.pips_length
  · rw [h.pipUpdates]
    exact fun hne => absurd rfl hne
  · rw [h.pipUpdates]
    exact fun hsome => absurd hsome (by simp [PIPUpdates.empty])
  · rw [h.header]
    simpa only [hget] using h.page
  · rw [h.header]
    simpa only [hget] using h.injective
  · exact fun a _ => (hget a).symm
  · rw [h.header]
    exact h.numElements
  · intro i v hv
    obtain ⟨p, hp, hread⟩ := h.reads i v hv
    refine ⟨p, (hget _).trans hp, ?_⟩
    rw [version, h.shadowPages p]
    split <;> exact hread
  · intro i v hv
    obtain ⟨p, hp, hread⟩ := h.reads i v hv
    exact ⟨p, (hget _).trans hp, hread⟩
  · intro p hp
    rw [h.shadowPages p] at hp
    exact absurd hp (by simp)
  · exact fun _ => ⟨rfl, h.pipUpdates, h.shadowPages⟩
  · intro p hp
    rw [h.header, hget]
    exact (h.lastAPPageIdx p hp).imp_right fun hmod => ⟨rfl, hmod⟩
  · exact fun _ _ hiter => absurd hiter (by simp)

/-! ## Checkpoint -/

/-- The PIPs after a checkpoint. -/
def mergedPIPs (array : DiskArray α) : List PIPWrapper :=
  (match array.pipUpdates.updatedLastPIP with
    | some updatedLastPIP => array.pips.dropLast ++ [updatedLastPIP]
    | none => array.pips) ++ array.pipUpdates.newPIPs

theorem length_mergedPIPs (h : array.Paged) :
    array.mergedPIPs.length = array.pips.length + array.pipUpdates.newPIPs.length := by
  unfold mergedPIPs
  split
  · rename_i updated hupdated
    have hne := List.length_pos_iff.mpr (h.pips_ne (by rw [hupdated]; rfl))
    simp
    omega
  · simp

theorem getElem?_mergedPIPs (h : array.Paged) (k : Nat) : array.mergedPIPs[k]? = array.getPIP k .checkpoint := by
  rw [getPIP_checkpoint, mergedPIPs]
  cases hupdated : array.pipUpdates.updatedLastPIP with
  | none =>
    rw [List.getElem?_append]
    simp
  | some updated =>
    have hne := List.length_pos_iff.mpr (h.pips_ne (by rw [hupdated]; rfl))
    have hlength : (array.pips.dropLast ++ [updated]).length = array.pips.length := by
      simp
      omega
    grind

theorem exists_checkpoint_eq (h : array.Holds checkpointed current iterators) :
    ∃ lastPageOnDisk, array.checkpoint = { array with
        header := array.headerForWriteTrx
        hasTransactionalUpdates := false
        pips := array.mergedPIPs
        pipUpdates := .empty
        lastPageOnDisk := lastPageOnDisk
        file := fun pageIdx => (array.shadowPages pageIdx).getD (array.file pageIdx)
        shadowPages := fun _ => none } := by
  unfold checkpoint checkpointInMemoryIfNecessary
  cases htrx : array.hasTransactionalUpdates with
  | true =>
    unfold updateLastPageOnDisk
    simp only [if_true]
    split
    · split <;> exact ⟨_, rfl⟩
    · exact ⟨_, rfl⟩
  | false =>
    obtain ⟨-, hempty, -⟩ := h.clean htrx
    have hmerged : array.mergedPIPs = array.pips := by simp [mergedPIPs, hempty, PIPUpdates.empty]
    rw [hmerged, ← hempty]
    exact ⟨array.lastPageOnDisk, by simp [htrx]⟩

/-- After a checkpoint both transactions read the array of the write transaction. -/
theorem Holds.checkpoint (h : array.Holds checkpointed current iterators) : array.checkpoint.Settled current := by
  obtain ⟨lastPageOnDisk, heq⟩ := exists_checkpoint_eq h
  have hget : ∀ a, array.checkpoint.getAPPageIdx a .readOnly = array.getAPPageIdx a .checkpoint := by
    intro a
    unfold getAPPageIdx
    rw [← getElem?_mergedPIPs h.paged, heq, getPIP_readOnly]
  rw [heq] at hget ⊢
  refine ⟨rfl, h.numElementsForWriteTrx, rfl, fun _ => rfl, ?_, ?_, ?_, ?_, ?_⟩
  · exact (length_mergedPIPs h.paged).trans h.paged.newPIPs_length
  · intro a ha
    rw [hget]
    exact h.paged.page a ha
  · intro a b p ha hb
    rw [hget, hget]
    exact h.paged.injective a b p ha hb
  · intro i v hv
    obtain ⟨p, hp, hread⟩ := h.reads_current i v hv
    refine ⟨p, (hget _).trans hp, ?_⟩
    rw [← hread, version]
    split
    · rfl
    · rename_i hdisk
      have hnone : array.shadowPages p = none :=
        Option.not_isSome_iff_eq_none.mp fun hsome => hdisk (h.shadow_isOnDisk p hsome)
      simp [hnone]
  · intro p hp
    rw [hget]
    exact (h.lastAPPageIdx p hp).imp_right And.right

/-! ## Rollback -/

/-- A rollback leaves the last array page: it drops no array page, or the next element starts a new
one. -/
def KeepsLastAP (array : DiskArray α) : Prop :=
  array.getNumAPs array.headerForWriteTrx = array.getNumAPs array.header ∨
    array.header.numElements % array.numElementsPerPage = 0

instance (array : DiskArray α) : Decidable array.KeepsLastAP := inferInstanceAs (Decidable (_ ∨ _))

theorem rollback_eq (h : array.Holds checkpointed current iterators) : array.rollback = { array with
        headerForWriteTrx := array.header
        hasTransactionalUpdates := false
        pipUpdates := .empty
        shadowPages := fun _ => none } := by
  unfold rollback rollbackInMemoryIfNecessary
  cases htrx : array.hasTransactionalUpdates with
  | true => rfl
  | false =>
    rw [← (h.clean htrx).2.1]
    simp [htrx]

/-- After a rollback both transactions read the checkpointed array. -/
theorem Holds.rollback (h : array.Holds checkpointed current iterators) (hkeeps : array.KeepsLastAP) :
    array.rollback.Settled checkpointed := by
  have hpos := array.numElementsPerPage_pos
  have hle : array.getNumAPs array.header ≤ array.getNumAPs array.headerForWriteTrx := ceil_mono h.paged.le
  rw [rollback_eq h]
  refine ⟨rfl, h.numElements, rfl, fun _ => rfl, h.paged.pips_length, fun a ha => ?_,
    fun a b p ha hb hpa hpb => ?_, fun i v hv => ?_, fun p hp => ?_⟩
  · obtain ⟨p, hp⟩ := h.paged.page a (ha.trans_le hle)
    exact ⟨p, (h.paged.readOnly a ha).trans hp⟩
  · exact h.paged.injective a b p (ha.trans_le hle) (hb.trans_le hle)
      ((h.paged.readOnly a ha).symm.trans hpa) ((h.paged.readOnly b hb).symm.trans hpb)
  · obtain ⟨p, hp, hread⟩ := h.reads_checkpointed i v hv
    exact ⟨p, (h.paged.readOnly _ (div_lt_ceil hpos (h.numElements ▸ getElem?_lt hv))).trans hp, hread⟩
  · rcases hkeeps with hsame | hmod
    · rcases h.lastAPPageIdx p hp with ⟨hnumAPs, hlast⟩ | ⟨hlength, hmod⟩
      · rw [hsame] at hnumAPs hlast
        exact .inl ⟨hnumAPs, (h.paged.readOnly _ (Nat.sub_lt hnumAPs Nat.one_pos)).trans hlast⟩
      · exact .inr (hlength ▸ hmod)
    · exact .inr (h.numElements ▸ hmod)

end DiskArray

end CycleJoin
