import CycleJoin.Storage.DiskArray.Basic

/-!
# The pages of a disk array

Readers and the write transaction find an array page through the PIPs. They agree on the array pages of
the checkpointed array (`Paged`). A new array page is entered in the last PIP or in a new one.
-/

namespace CycleJoin

open List Option

/-! ## Rounding up -/

section Ceil

variable {size n i : Nat}

theorem ceil_succ (hsize : 0 < size) : (n + 1 + size - 1) / size = n / size + 1 := by
  rw [show n + 1 + size - 1 = n + size by omega, Nat.add_div_right _ hsize]

theorem ceil_of_mod_eq_zero (hsize : 0 < size) (h : n % size = 0) : (n + size - 1) / size = n / size := by
  obtain ⟨k, rfl⟩ := Nat.dvd_of_mod_eq_zero h
  rw [Nat.mul_div_cancel_left _ hsize, show size * k + size - 1 = size - 1 + size * k by omega,
    Nat.add_mul_div_left _ _ hsize, Nat.div_eq_of_lt (by omega), zero_add]

theorem ceil_of_mod_ne_zero (hsize : 0 < size) (h : n % size ≠ 0) : (n + size - 1) / size = n / size + 1 := by
  obtain ⟨m, rfl⟩ := Nat.exists_eq_succ_of_ne_zero (show n ≠ 0 by rintro rfl; simp at h)
  have hsplit := Nat.succ_div_of_not_dvd (mt Nat.mod_eq_zero_of_dvd h)
  rw [ceil_succ hsize, hsplit]

theorem ceil_mono {m : Nat} (h : m ≤ n) : (m + size - 1) / size ≤ (n + size - 1) / size :=
  Nat.div_le_div_right (by omega)

theorem div_lt_ceil (hsize : 0 < size) (h : i < n) : i / size < (n + size - 1) / size := by
  obtain ⟨m, rfl⟩ := Nat.exists_eq_succ_of_ne_zero (show n ≠ 0 by omega)
  rw [ceil_succ hsize]
  exact Nat.lt_succ_of_le (Nat.div_le_div_right (by omega))

theorem div_le_ceil (hsize : 0 < size) : n / size ≤ (n + size - 1) / size := Nat.div_le_div_right (by omega)

end Ceil

theorem numPageIdxsPerPIP_pos : 0 < numPageIdxsPerPIP := by decide

namespace DiskArray

variable {α : Type*}

/-- The PIPs of the write transaction: the old ones with the copy of the last, then the new ones. -/
theorem getPIP_checkpoint (pipIdx : Nat) (array : DiskArray α) : array.getPIP pipIdx .checkpoint =
      if pipIdx < array.pips.length then
        if pipIdx + 1 = array.pips.length then
          array.pipUpdates.updatedLastPIP <|> array.pips[pipIdx]?
        else array.pips[pipIdx]?
      else array.pipUpdates.newPIPs[pipIdx - array.pips.length]? := by
  rw [getPIP]
  by_cases hlt : pipIdx < array.pips.length
  · rw [if_pos hlt]
    by_cases hlast : pipIdx + 1 = array.pips.length
    · rcases hupd : array.pipUpdates.updatedLastPIP with _ | updated
      · simp [hasPIPUpdates, hupd, hlt]
      · simp [hasPIPUpdates, hupd, hlast]
    · simp [hasPIPUpdates, hlast, hlt]
  · have hge : array.pips.length ≤ pipIdx := Nat.le_of_not_lt hlt
    rw [if_neg hlt, if_neg (by simp [hasPIPUpdates, hge]), if_neg (by omega)]

@[simp]
theorem getPIP_readOnly (pipIdx : Nat) (array : DiskArray α) :
    array.getPIP pipIdx .readOnly = array.pips[pipIdx]? := by
  simp [getPIP]

/-- Readers and the write transaction agree on the array pages of the checkpointed array, and no page
holds two array pages. -/
structure Paged (array : DiskArray α) : Prop where
  le : array.header.numElements ≤ array.headerForWriteTrx.numElements
  pips_length : array.pips.length =
    (array.getNumAPs array.header + numPageIdxsPerPIP - 1) / numPageIdxsPerPIP
  newPIPs_length : array.pips.length + array.pipUpdates.newPIPs.length =
    (array.getNumAPs array.headerForWriteTrx + numPageIdxsPerPIP - 1) / numPageIdxsPerPIP
  updated : array.pipUpdates.newPIPs ≠ [] → array.pips ≠ [] → array.pipUpdates.updatedLastPIP.isSome
  pips_ne : array.pipUpdates.updatedLastPIP.isSome → array.pips ≠ []
  page : ∀ a < array.getNumAPs array.headerForWriteTrx, ∃ p, array.getAPPageIdx a .checkpoint = some p
  injective : ∀ a b p, a < array.getNumAPs array.headerForWriteTrx →
    b < array.getNumAPs array.headerForWriteTrx → array.getAPPageIdx a .checkpoint = some p →
    array.getAPPageIdx b .checkpoint = some p → a = b
  readOnly : ∀ a < array.getNumAPs array.header,
    array.getAPPageIdx a .readOnly = array.getAPPageIdx a .checkpoint

/-- The arrays differ only in the PIPs of the write transaction. -/
def SameExceptPIPs (array array' : DiskArray α) : Prop :=
  ∃ pipUpdates firstPIPPageIdx, array' = { array with
      pipUpdates := pipUpdates
      headerForWriteTrx := ⟨array.headerForWriteTrx.numElements, firstPIPPageIdx⟩ }

namespace SameExceptPIPs

variable {array array' array'' : DiskArray α}

variable (h : SameExceptPIPs array array')
include h

theorem trans (h' : SameExceptPIPs array' array'') : SameExceptPIPs array array'' := by
  obtain ⟨_, _, rfl⟩ := h
  obtain ⟨_, _, rfl⟩ := h'
  exact ⟨_, _, rfl⟩

theorem pips : array'.pips = array.pips := by
  obtain ⟨_, _, rfl⟩ := h
  rfl

theorem numElementsPerPage : array'.numElementsPerPage = array.numElementsPerPage := by
  obtain ⟨_, _, rfl⟩ := h
  rfl

end SameExceptPIPs

/-- The page indices of a PIP of the write transaction. -/
def pageIdxs (pipIdx : Nat) (array : DiskArray α) : Option (Nat → Option Nat) :=
  (array.getPIP pipIdx .checkpoint).map (·.pipContents.pageIdxs)

theorem getAPPageIdx_checkpoint (a : Nat) (array : DiskArray α) : array.getAPPageIdx a .checkpoint =
      (array.pageIdxs (a / numPageIdxsPerPIP)).bind (· (a % numPageIdxsPerPIP)) := by
  rw [pageIdxs, bind_map]
  rfl

/-- A page index is entered in one PIP. -/
theorem getAPPageIdx_of_update {array array' : DiskArray α} {apIdx pageIdx : Nat}
    (hpip : array'.pageIdxs (apIdx / numPageIdxsPerPIP) =
      some (Function.update ((array.pageIdxs (apIdx / numPageIdxsPerPIP)).getD fun _ => none)
        (apIdx % numPageIdxsPerPIP) (some pageIdx)))
    (hother : ∀ pipIdx ≠ apIdx / numPageIdxsPerPIP, array'.pageIdxs pipIdx = array.pageIdxs pipIdx)
    (a : Nat) :
    array'.getAPPageIdx a .checkpoint = if a = apIdx then some pageIdx else array.getAPPageIdx a .checkpoint := by
  rw [getAPPageIdx_checkpoint, getAPPageIdx_checkpoint]
  by_cases hdiv : a / numPageIdxsPerPIP = apIdx / numPageIdxsPerPIP
  · rw [hdiv, hpip, bind_some]
    by_cases ha : a = apIdx
    · subst ha
      simp
    · have hmod : a % numPageIdxsPerPIP ≠ apIdx % numPageIdxsPerPIP := by
        intro hmod
        exact ha (by rw [← Nat.div_add_mod a numPageIdxsPerPIP, hdiv, hmod, Nat.div_add_mod])
      rw [Function.update_of_ne hmod, if_neg ha]
      cases array.pageIdxs (apIdx / numPageIdxsPerPIP) <;> rfl
  · rw [hother _ hdiv, if_neg (by rintro rfl; exact hdiv rfl)]

theorem pageIdxs_of_lt {pipIdx : Nat} {array : DiskArray α} (h : pipIdx < array.pips.length) :
    ∃ pip, array.getPIP pipIdx .checkpoint = some pip := by
  rw [getPIP_checkpoint, if_pos h]
  split
  · cases array.pipUpdates.updatedLastPIP with
    | none => exact ⟨_, getElem?_eq_getElem h⟩
    | some updated => exact ⟨updated, rfl⟩
  · exact ⟨_, getElem?_eq_getElem h⟩

/-- New PIPs that differ in their links have the same page indices. -/
theorem pageIdxs_congr {array array' : DiskArray α} (hpips : array'.pips = array.pips)
    (hlast : array'.pipUpdates.updatedLastPIP.map (·.pipContents.pageIdxs) =
      array.pipUpdates.updatedLastPIP.map (·.pipContents.pageIdxs))
    (hnew : array'.pipUpdates.newPIPs.map (·.pipContents.pageIdxs) =
      array.pipUpdates.newPIPs.map (·.pipContents.pageIdxs)) (k : Nat) :
    array'.pageIdxs k = array.pageIdxs k := by
  unfold pageIdxs
  rw [getPIP_checkpoint, getPIP_checkpoint, hpips]
  split
  · split
    · cases h : array.pipUpdates.updatedLastPIP <;> cases h' : array'.pipUpdates.updatedLastPIP <;> simp_all
    · rfl
  · rw [← getElem?_map, ← getElem?_map, hnew]

theorem map_modify_setNext (newPIPs : List PIPWrapper) (i nextPIPPageIdx : Nat) :
    (newPIPs.modify i (·.setNext nextPIPPageIdx)).map (·.pipContents.pageIdxs) =
      newPIPs.map (·.pipContents.pageIdxs) := by
  refine ext_getElem? fun k => ?_
  rw [getElem?_map, getElem?_map, getElem?_modify, Option.map_eq_map, Option.map_map]
  congr 1
  funext pip
  by_cases h : i = k <;> simp [h, PIPWrapper.setNext]

/-- Linking a new PIP changes no page index. -/
theorem setNextPIPPageIdxOfPIP_spec {array : DiskArray α} {pipIdx : Nat}
    (hge : array.pips.length ≤ pipIdx) (nextPIPPageIdx : Nat)
    (hlast : pipIdx ≠ array.pips.length → array.pips ≠ [] → array.pipUpdates.updatedLastPIP.isSome) :
    ∃ linked, array.setNextPIPPageIdxOfPIP (if pipIdx = 0 then none else some (pipIdx - 1))
        nextPIPPageIdx = some linked ∧
      SameExceptPIPs array linked ∧
      linked.pipUpdates.newPIPs.length = array.pipUpdates.newPIPs.length ∧
      (array.pips ≠ [] → linked.pipUpdates.updatedLastPIP.isSome) ∧
      (array.pips = [] → linked.pipUpdates.updatedLastPIP = array.pipUpdates.updatedLastPIP) ∧
      ∀ k, linked.pageIdxs k = array.pageIdxs k := by
  by_cases hzero : pipIdx = 0
  · rw [if_pos hzero]
    have hnil : array.pips = [] := eq_nil_of_length_eq_zero (by omega)
    exact ⟨_, rfl, ⟨_, _, rfl⟩, rfl, fun h => absurd hnil h, fun _ => rfl, fun _ => rfl⟩
  rw [if_neg hzero]
  unfold setNextPIPPageIdxOfPIP
  by_cases hnil : array.pips = []
  · simp only [if_pos hnil]
    refine ⟨_, rfl, ⟨_, _, rfl⟩, length_modify .., fun h => absurd hnil h, fun _ => rfl,
      pageIdxs_congr rfl rfl (map_modify_setNext ..)⟩
  simp only [if_neg hnil]
  by_cases hfirst : pipIdx = array.pips.length
  · -- the PIP before the new one is the last of the checkpointed array
    have hlt : pipIdx - 1 < array.pips.length := by omega
    obtain ⟨pip, hpip⟩ := pageIdxs_of_lt hlt
    have hprev := hpip
    rw [getPIP_checkpoint, if_pos hlt, if_pos (by omega)] at hprev
    simp only [hprev, show pipIdx - 1 + 1 = array.pips.length by omega]
    refine ⟨_, rfl, ⟨_, _, rfl⟩, rfl, fun _ => rfl, fun h => absurd h hnil, fun k => ?_⟩
    unfold pageIdxs
    rw [getPIP_checkpoint]
    by_cases hk : k = pipIdx - 1
    · subst hk
      rw [hpip, if_pos hlt, if_pos (by simp; omega)]
      rfl
    · rw [getPIP_checkpoint]
      simp [show ¬ k + 1 = array.pips.length by omega]
  · obtain ⟨updated, hupdated⟩ := isSome_iff_exists.mp (hlast hfirst hnil)
    have hsome : (array.pipUpdates.updatedLastPIP <|> array.pips[pipIdx - 1]?) = some updated := by
      rw [hupdated]
      rfl
    simp only [hsome, show ¬ pipIdx - 1 + 1 = array.pips.length by omega]
    exact ⟨_, rfl, ⟨_, _, rfl⟩, length_modify .., fun _ => rfl, fun h => absurd h hnil,
      pageIdxs_congr rfl (by rw [hupdated]) (map_modify_setNext ..)⟩

theorem sameExceptPIPs_addPIP (pipPageIdx : Nat) (array : DiskArray α) :
    SameExceptPIPs array (array.addPIP pipPageIdx) :=
  ⟨_, _, rfl⟩

theorem pageIdxs_addPIP (pipPageIdx k : Nat) (array : DiskArray α) : (array.addPIP pipPageIdx).pageIdxs k =
      if k = array.pips.length + array.pipUpdates.newPIPs.length then some fun _ => none
      else array.pageIdxs k := by
  have hget : (array.addPIP pipPageIdx).getPIP k .checkpoint = if k < array.pips.length then
        if k + 1 = array.pips.length then array.pipUpdates.updatedLastPIP <|> array.pips[k]?
        else array.pips[k]?
      else (array.pipUpdates.newPIPs ++ [⟨pipPageIdx, .new⟩])[k - array.pips.length]? :=
    getPIP_checkpoint k _
  unfold pageIdxs
  rw [hget, getPIP_checkpoint]
  by_cases hlt : k < array.pips.length
  · rw [if_pos hlt, if_neg (show ¬ k = _ by omega), if_pos hlt]
  · rw [if_neg hlt]
    split
    · rename_i hk
      subst hk
      simp [PIP.new]
    · rw [getElem?_append]
      split
      · rfl
      · rw [getElem?_eq_none (by simp; omega), getElem?_eq_none (by omega)]

theorem sameExceptPIPs_setPageIdxOfNewPIP (i offset pageIdx : Nat) (array : DiskArray α) :
    SameExceptPIPs array (array.setPageIdxOfNewPIP i offset pageIdx) :=
  ⟨_, _, rfl⟩

theorem pageIdxs_setPageIdxOfNewPIP (i offset pageIdx k : Nat) (array : DiskArray α) :
    (array.setPageIdxOfNewPIP i offset pageIdx).pageIdxs k = if k = array.pips.length + i then
        (array.pageIdxs k).map fun idxs => Function.update idxs offset (some pageIdx)
      else array.pageIdxs k := by
  have hget : (array.setPageIdxOfNewPIP i offset pageIdx).getPIP k .checkpoint = if k < array.pips.length then
        if k + 1 = array.pips.length then array.pipUpdates.updatedLastPIP <|> array.pips[k]?
        else array.pips[k]?
      else (array.pipUpdates.newPIPs.modify i (·.setPageIdx offset pageIdx))[k - array.pips.length]? :=
    getPIP_checkpoint k _
  unfold pageIdxs
  rw [hget, getPIP_checkpoint]
  by_cases hlt : k < array.pips.length
  · rw [if_pos hlt, if_neg (show ¬ k = _ by omega), if_pos hlt]
  · rw [if_neg hlt, if_neg hlt, getElem?_modify, Option.map_eq_map, Option.map_map, Option.map_map]
    by_cases hk : k = array.pips.length + i
    · rw [if_pos hk, hk]
      congr 1
      funext pip
      simp [PIPWrapper.setPageIdx]
    · rw [if_neg hk]
      congr 1
      funext pip
      simp [show ¬ i = k - array.pips.length by omega]

/-- The effect of a new array page: it is the next one, in a PIP of the write transaction. -/
structure AddsAP (pageIdx : Nat) (array array' : DiskArray α) : Prop where
  same : SameExceptPIPs array array'
  newPIPs_length : array.pips.length + array'.pipUpdates.newPIPs.length =
    array.getNumAPs array.headerForWriteTrx / numPageIdxsPerPIP + 1
  updated : array'.pipUpdates.newPIPs ≠ [] → array.pips ≠ [] →
    array'.pipUpdates.updatedLastPIP.isSome
  pips_ne : array'.pipUpdates.updatedLastPIP.isSome → array.pips ≠ []
  getAPPageIdx : ∀ a, array'.getAPPageIdx a .checkpoint =
    if a = array.getNumAPs array.headerForWriteTrx then some pageIdx
    else array.getAPPageIdx a .checkpoint

theorem Paged.addAP {array : DiskArray α} (h : array.Paged) (supply : PageSupply) :
    ∃ array', array.getAPPageIdxAndAddAPToPIPIfNecessary supply
        (array.getNumAPs array.headerForWriteTrx) = some (supply.apPageIdx, true, array') ∧
      AddsAP supply.apPageIdx array array' := by
  have hsize := numPageIdxsPerPIP_pos
  have hwrite := h.newPIPs_length
  generalize hap : array.getNumAPs array.headerForWriteTrx = apIdx at *
  have hle : apIdx / numPageIdxsPerPIP ≤ (apIdx + numPageIdxsPerPIP - 1) / numPageIdxsPerPIP := div_le_ceil hsize
  have hge : (apIdx + numPageIdxsPerPIP - 1) / numPageIdxsPerPIP ≤ apIdx / numPageIdxsPerPIP + 1 := by
    rcases Nat.eq_zero_or_pos (apIdx % numPageIdxsPerPIP) with hmod | hmod
    · rw [ceil_of_mod_eq_zero hsize hmod]
      omega
    · exact Nat.le_of_eq (ceil_of_mod_ne_zero hsize (ne_of_gt hmod))
  unfold getAPPageIdxAndAddAPToPIPIfNecessary
  simp only [hap, show ¬ apIdx + 1 = apIdx by omega, false_and, if_false, lt_irrefl]
  split
  · -- the last PIP of the checkpointed array has room
    rename_i hlt
    obtain ⟨pip, hpip⟩ := pageIdxs_of_lt hlt
    have hprev := hpip
    rw [getPIP_checkpoint, if_pos hlt, if_pos (by omega)] at hprev
    rw [hprev]
    have hne : array.pips ≠ [] := by
      rintro hnil
      simp [hnil] at hlt
    refine ⟨_, rfl, ⟨_, _, rfl⟩, ?_, fun _ _ => rfl, fun _ => hne, ?_⟩ <;> rw [hap]
    · show array.pips.length + array.pipUpdates.newPIPs.length = _
      omega
    refine getAPPageIdx_of_update ?_ fun k hk => ?_
    · unfold pageIdxs
      rw [hpip, getPIP_checkpoint, if_pos hlt, if_pos (by simp; omega)]
      rfl
    · unfold pageIdxs
      rw [getPIP_checkpoint, getPIP_checkpoint]
      simp [show ¬ k + 1 = array.pips.length by omega]
  · rename_i hnot
    split
    · -- a PIP that is new to the transaction has room
      rename_i hnew
      refine ⟨_, rfl, sameExceptPIPs_setPageIdxOfNewPIP .., ?_, fun _ => ?_, h.pips_ne, ?_⟩
      · rw [hap, setPageIdxOfNewPIP, length_modify]
        omega
      · exact h.updated (by rintro hnil; simp [hnil] at hnew)
      · have hpip : (array.pageIdxs (apIdx / numPageIdxsPerPIP)).isSome := by
          rw [pageIdxs, getPIP_checkpoint, if_neg hnot, getElem?_eq_getElem hnew]
          rfl
        obtain ⟨idxs, hidxs⟩ := isSome_iff_exists.mp hpip
        rw [hap]
        refine getAPPageIdx_of_update ?_ fun k hk => ?_
        · rw [pageIdxs_setPageIdxOfNewPIP, if_pos (by omega), hidxs]
          rfl
        · rw [pageIdxs_setPageIdxOfNewPIP, if_neg (by omega)]
    · -- a new PIP is linked to the last one
      have hpipIdx : apIdx / numPageIdxsPerPIP = array.pips.length + array.pipUpdates.newPIPs.length := by omega
      obtain ⟨linked, hlinked, hsame, hlength, hupdated, hkept, hpageIdxs⟩ :=
        setNextPIPPageIdxOfPIP_spec (show (array.addPIP supply.pipPageIdx).pips.length ≤ _ from
          Nat.le_of_not_lt hnot) supply.pipPageIdx fun hne hpips =>
            h.updated (fun hnil => hne (by rw [hpipIdx, hnil]; rfl)) hpips
      have hlength' : linked.pipUpdates.newPIPs.length = array.pipUpdates.newPIPs.length + 1 := by
        rw [hlength, addPIP, length_append]
        rfl
      have hpips : linked.pips = array.pips := hsame.pips
      rw [hlinked]
      refine ⟨_, rfl, ((sameExceptPIPs_addPIP _ _).trans hsame).trans
        (sameExceptPIPs_setPageIdxOfNewPIP ..), ?_, fun _ => hupdated, fun hsome hnil => ?_, ?_⟩
      · rw [hap, setPageIdxOfNewPIP, length_modify]
        omega
      · exact h.pips_ne ((congrArg isSome (hkept hnil)).symm.trans hsome) hnil
      · have hnone : array.pageIdxs (apIdx / numPageIdxsPerPIP) = none := by
          rw [pageIdxs, getPIP_checkpoint, if_neg hnot, getElem?_eq_none (by omega)]
          rfl
        rw [hap]
        refine getAPPageIdx_of_update ?_ fun k hk => ?_
        · rw [pageIdxs_setPageIdxOfNewPIP, hpips, if_pos (by omega), hpageIdxs, pageIdxs_addPIP,
            if_pos hpipIdx, hnone]
          rfl
        · rw [pageIdxs_setPageIdxOfNewPIP, hpips, if_neg (by omega), hpageIdxs, pageIdxs_addPIP, if_neg (by omega)]

end DiskArray

end CycleJoin
