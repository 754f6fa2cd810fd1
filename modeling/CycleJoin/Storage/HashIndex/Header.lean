import Mathlib

/-!
# The header of a hash index

`HashIndexHeader` holds the level of linear hashing, the next slot to split and two masks. An index
with `n` primary slots has the level `log2 n`, and its slots below `n - 2 ^ log2 n` are split.

* `run_ofSlots`: the header after any steps is that of the number of slots, as long as the number is
  below `2 ^ 30`. The masks of level 30 overflow the `int` that `incrementLevel` uses.
* `getPrimarySlotIdForHash_succ`: where a hash goes when one more slot is split.
* `run_addresses_iff`: which runs leave a header whose addresses are right.
-/

namespace CycleJoin

/-- `HashIndexHeaderOnDisk`. -/
structure HashIndexHeaderOnDisk where
  nextSplitSlotId : Nat
  numEntries : Nat
  firstFreeOverflowSlotId : Nat
  currentLevel : Nat
  deriving DecidableEq, Repr

/-- `HashIndexHeader`. -/
structure HashIndexHeader where
  currentLevel : Nat
  levelHashMask : Nat
  higherLevelHashMask : Nat
  nextSplitSlotId : Nat
  numEntries : Nat
  firstFreeOverflowSlotId : Nat
  deriving DecidableEq, Repr

/-- `SlotHeader::INVALID_OVERFLOW_SLOT_ID`. -/
def invalidOverflowSlotId : Nat := 2 ^ 64 - 1

/-- `(1ull << k) - 1`. A shift by the width is undefined. -/
def mask64 (k : Nat) : Option Nat := if k < 64 then some (2 ^ k - 1) else none

/-- `1 << k`, as an `int`. -/
def shiftInt (k : Nat) : Option Int := if k < 32 then some (Int.bmod (2 ^ k) (2 ^ 32)) else none

/-- `a - b`, as an `int`. An overflow is undefined. -/
def subInt (a b : Int) : Option Int := if -2 ^ 31 ≤ a - b ∧ a - b < 2 ^ 31 then some (a - b) else none

/-- `(1 << k) - 1`, converted to an `uint64_t`. -/
def maskInt (k : Nat) : Option Nat :=
  ((shiftInt k).bind fun x => subInt x 1).map fun x => (x % 2 ^ 64).toNat

namespace HashIndexHeader

/-- `HashIndexHeader()`. -/
def new : HashIndexHeader := ⟨1, 1, 3, 0, 0, invalidOverflowSlotId⟩

/-- `HashIndexHeader(onDiskHeader)`. -/
def ofOnDisk (onDiskHeader : HashIndexHeaderOnDisk) : Option HashIndexHeader := do
  return {
    currentLevel := onDiskHeader.currentLevel
    levelHashMask := ← mask64 onDiskHeader.currentLevel
    higherLevelHashMask := ← mask64 (onDiskHeader.currentLevel + 1)
    nextSplitSlotId := onDiskHeader.nextSplitSlotId
    numEntries := onDiskHeader.numEntries
    firstFreeOverflowSlotId := onDiskHeader.firstFreeOverflowSlotId }

/-- `write`. The level is an `uint8_t` on disk. -/
def write (header : HashIndexHeader) : HashIndexHeaderOnDisk where
  currentLevel := header.currentLevel % 2 ^ 8
  nextSplitSlotId := header.nextSplitSlotId
  numEntries := header.numEntries
  firstFreeOverflowSlotId := header.firstFreeOverflowSlotId

/-- `incrementLevel`. -/
def incrementLevel (header : HashIndexHeader) : Option HashIndexHeader := do
  let currentLevel := header.currentLevel + 1
  return { header with
    currentLevel := currentLevel
    nextSplitSlotId := 0
    levelHashMask := ← maskInt currentLevel
    higherLevelHashMask := ← maskInt (currentLevel + 1) }

/-- `incrementNextSplitSlotId`. -/
def incrementNextSplitSlotId (header : HashIndexHeader) : Option HashIndexHeader := do
  if header.nextSplitSlotId < (← mask64 header.currentLevel) then
    return { header with nextSplitSlotId := header.nextSplitSlotId + 1 }
  else header.incrementLevel

/-- `HashIndexUtils::getPrimarySlotIdForHash`. -/
def getPrimarySlotIdForHash (indexHeader : HashIndexHeader) (hash : UInt64) : Nat :=
  let slotId := hash.toNat &&& indexHeader.levelHashMask
  if slotId < indexHeader.nextSplitSlotId then hash.toNat &&& indexHeader.higherLevelHashMask
  else slotId

/-- A step of the header. -/
inductive Step where
  | incrementNextSplitSlotId
  | incrementLevel
  deriving DecidableEq, Repr

def step (header : HashIndexHeader) : Step → Option HashIndexHeader
  | .incrementNextSplitSlotId => header.incrementNextSplitSlotId
  | .incrementLevel => header.incrementLevel

/-! ## The number of primary slots -/

/-- The number of slots after a step. A new level has twice the slots of the level before. -/
def slotsAfter (n : Nat) : Step → Nat
  | .incrementNextSplitSlotId => n + 1
  | .incrementLevel => 2 ^ (n.log2 + 1)

/-- The number of slots after some steps. -/
def numSlots (steps : List Step) : Nat := steps.foldl slotsAfter 2

/-- The header of an index with `n` primary slots. -/
def ofSlots (n : Nat) : HashIndexHeader :=
  { new with
    currentLevel := n.log2
    levelHashMask := 2 ^ n.log2 - 1
    higherLevelHashMask := 2 ^ (n.log2 + 1) - 1
    nextSplitSlotId := n - 2 ^ n.log2 }

theorem maskInt_eq (k : Nat) : maskInt k = if k < 31 then some (2 ^ k - 1) else none := by
  by_cases hk : k < 32
  · exact (by decide : ∀ k < 32, maskInt k = if k < 31 then some (2 ^ k - 1) else none) k hk
  · rw [maskInt, shiftInt, if_neg hk, if_neg (by omega)]
    rfl

variable {n : Nat}

theorem log2_bounds (hn : n ≠ 0) : 2 ^ n.log2 ≤ n ∧ n < 2 * 2 ^ n.log2 := by
  have h := Nat.lt_log2_self (n := n)
  rw [pow_succ, mul_comm] at h
  exact ⟨Nat.log2_self_le hn, h⟩

/-- One more slot: the level grows when all its slots are split. -/
theorem log2_succ (hn : n ≠ 0) : n + 1 = 2 ^ (n.log2 + 1) ∨ (n + 1).log2 = n.log2 ∧ n + 1 < 2 ^ (n.log2 + 1) := by
  have h := log2_bounds hn
  rw [Nat.log2_eq_iff (by omega)]
  omega

theorem incrementLevel_ofSlots (n : Nat) : (ofSlots n).incrementLevel =
    if 2 ^ (n.log2 + 1) < 2 ^ 30 then some (ofSlots (2 ^ (n.log2 + 1))) else none := by
  have hlt : 2 ^ (n.log2 + 1) < 2 ^ 30 ↔ n.log2 + 1 < 30 := Nat.pow_lt_pow_iff_right (by omega)
  simp only [incrementLevel, maskInt_eq, ofSlots, Nat.log2_two_pow, Nat.sub_self, hlt]
  by_cases h : n.log2 + 1 < 30
  · rw [if_pos h, if_pos (by omega), if_pos (by omega)]
    rfl
  · rw [if_neg (show ¬ n.log2 + 1 + 1 < 31 by omega)]
    split <;> rfl

theorem incrementNextSplitSlotId_ofSlots (hn : n ≠ 0) (hlt : n < 2 ^ 30) : (ofSlots n).incrementNextSplitSlotId =
      if n + 1 < 2 ^ 30 then some (ofSlots (n + 1)) else none := by
  have hbounds := log2_bounds hn
  have hlog := (Nat.log2_lt hn).mpr hlt
  have hmask : mask64 (ofSlots n).currentLevel = some (2 ^ n.log2 - 1) := if_pos (show n.log2 < 64 by omega)
  rw [incrementNextSplitSlotId, hmask, Option.bind_eq_bind, Option.bind_some,
    show (ofSlots n).nextSplitSlotId = n - 2 ^ n.log2 from rfl]
  rcases log2_succ hn with hfull | ⟨hsame, hroom⟩
  · rw [if_neg (by omega), incrementLevel_ofSlots, hfull]
  · have hpow : 2 ^ (n.log2 + 1) ≤ 2 ^ 30 := Nat.pow_le_pow_right (by omega) hlog
    rw [if_pos (by omega), if_pos (by omega)]
    simp only [ofSlots, hsame, Nat.sub_add_comm hbounds.1]
    rfl

theorem lt_slotsAfter (n : Nat) (s : Step) : n < slotsAfter n s := by
  cases s with
  | incrementNextSplitSlotId => exact Nat.lt_succ_self n
  | incrementLevel => exact Nat.lt_log2_self

theorem le_foldl_slotsAfter (n : Nat) (steps : List Step) : n ≤ steps.foldl slotsAfter n := by
  induction steps generalizing n with
  | nil => exact Nat.le_refl n
  | cons s steps ih => exact Nat.le_trans ((lt_slotsAfter n s).le) (ih _)

theorem run_ofSlots (hn : n ≠ 0) (hlt : n < 2 ^ 30) (steps : List Step) : steps.foldlM step (ofSlots n) =
      if steps.foldl slotsAfter n < 2 ^ 30 then some (ofSlots (steps.foldl slotsAfter n)) else none := by
  induction steps generalizing n with
  | nil =>
    rw [List.foldl_nil, if_pos hlt]
    rfl
  | cons s steps ih =>
    have hstep : step (ofSlots n) s = if slotsAfter n s < 2 ^ 30 then some (ofSlots (slotsAfter n s)) else none := by
      cases s with
      | incrementNextSplitSlotId => exact incrementNextSplitSlotId_ofSlots hn hlt
      | incrementLevel => exact incrementLevel_ofSlots n
    rw [List.foldlM_cons, List.foldl_cons, hstep]
    by_cases h : slotsAfter n s < 2 ^ 30
    · rw [if_pos h]
      exact ih (Nat.ne_zero_of_lt (lt_slotsAfter n s)) h
    · have hle := le_foldl_slotsAfter (slotsAfter n s) steps
      rw [if_neg h, if_neg (by omega)]
      rfl

/-! ## Addresses -/

theorem getPrimarySlotIdForHash_ofSlots (n : Nat) (hash : UInt64) : (ofSlots n).getPrimarySlotIdForHash hash =
      if hash.toNat % 2 ^ n.log2 < n - 2 ^ n.log2 then hash.toNat % 2 ^ (n.log2 + 1)
      else hash.toNat % 2 ^ n.log2 := by
  simp [getPrimarySlotIdForHash, ofSlots]

/-- A mask of one bit more. -/
theorem mod_two_pow_succ_cases (h k : Nat) : h % 2 ^ (k + 1) = h % 2 ^ k ∨ h % 2 ^ (k + 1) = 2 ^ k + h % 2 ^ k := by
  rw [Nat.mod_pow_succ]
  rcases Nat.mod_two_eq_zero_or_one (h / 2 ^ k) with hbit | hbit <;> rw [hbit] <;> omega

theorem getPrimarySlotIdForHash_lt (hn : n ≠ 0) (hash : UInt64) : (ofSlots n).getPrimarySlotIdForHash hash < n := by
  have hle := Nat.log2_self_le hn
  have hcases := mod_two_pow_succ_cases hash.toNat n.log2
  rw [getPrimarySlotIdForHash_ofSlots]
  split <;> omega

theorem getPrimarySlotIdForHash_succ (hn : n ≠ 0) (hash : UInt64) :
    (ofSlots (n + 1)).getPrimarySlotIdForHash hash = (ofSlots n).getPrimarySlotIdForHash hash ∨
    (ofSlots n).getPrimarySlotIdForHash hash = n - 2 ^ n.log2 ∧
      (ofSlots (n + 1)).getPrimarySlotIdForHash hash = n := by
  have hcases := mod_two_pow_succ_cases hash.toNat n.log2
  simp only [getPrimarySlotIdForHash_ofSlots]
  rcases log2_succ hn with hfull | ⟨hsame, -⟩
  · -- the level grows, and no slot of it is split
    rw [hfull, Nat.log2_two_pow, Nat.sub_self, if_neg (Nat.not_lt_zero _)]
    split <;> omega
  · rw [hsame]
    split <;> split <;> omega

/-- The addresses of a header are right: every hash has a slot, a further split moves hashes of the
slot that is split only, and the header on disk is the same one. -/
structure Addresses (header : HashIndexHeader) : Prop where
  lt : ∀ hash, header.getPrimarySlotIdForHash hash < 2 ^ header.currentLevel + header.nextSplitSlotId
  split : ∃ next, header.incrementNextSplitSlotId = some next ∧ ∀ hash,
    next.getPrimarySlotIdForHash hash ≠ header.getPrimarySlotIdForHash hash →
      header.getPrimarySlotIdForHash hash = header.nextSplitSlotId ∧
      (next.getPrimarySlotIdForHash hash = header.nextSplitSlotId ∨
        next.getPrimarySlotIdForHash hash = 2 ^ header.currentLevel + header.nextSplitSlotId)
  restored : ∀ numEntries firstFreeOverflowSlotId, let header := { header with
      numEntries := numEntries, firstFreeOverflowSlotId := firstFreeOverflowSlotId }
    ofOnDisk header.write = some header

theorem addresses_ofSlots (hn : n ≠ 0) (hlt : n + 1 < 2 ^ 30) : (ofSlots n).Addresses := by
  have hslots : 2 ^ (ofSlots n).currentLevel + (ofSlots n).nextSplitSlotId = n :=
    Nat.add_sub_of_le (Nat.log2_self_le hn)
  have hnext := incrementNextSplitSlotId_ofSlots hn (by omega)
  rw [if_pos hlt] at hnext
  refine ⟨fun hash => ?_, ⟨_, hnext, fun hash hne => ?_⟩, fun numEntries free => ?_⟩
  · rw [hslots]
    exact getPrimarySlotIdForHash_lt hn hash
  · obtain ⟨hold, hnew⟩ := (getPrimarySlotIdForHash_succ hn hash).resolve_left hne
    exact ⟨hold, .inr (hnew.trans hslots.symm)⟩
  · have hlog : n.log2 < 30 := (Nat.log2_lt hn).mpr (by omega)
    simp only [write, ofOnDisk, ofSlots, mask64, Nat.mod_eq_of_lt (show n.log2 < 2 ^ 8 by omega),
      if_pos (show n.log2 < 64 by omega), if_pos (show n.log2 + 1 < 64 by omega)]
    rfl

/-- The addresses are right after some steps iff one more slot leaves the number below `2 ^ 30`. -/
theorem run_addresses_iff (steps : List Step) :
    (∃ header, steps.foldlM step new = some header ∧ header.Addresses) ↔
      numSlots steps + 1 < 2 ^ 30 := by
  have hpos : numSlots steps ≠ 0 := Nat.ne_zero_of_lt (le_foldl_slotsAfter 2 steps)
  have hrun : steps.foldlM step new =
      if numSlots steps < 2 ^ 30 then some (ofSlots (numSlots steps)) else none :=
    run_ofSlots (n := 2) (by omega) (by omega) steps
  rw [hrun]
  constructor
  · rintro ⟨header, hheader, haddr⟩
    split at hheader
    · next hlt =>
      cases hheader
      obtain ⟨next, hnext, -⟩ := haddr.split
      rw [incrementNextSplitSlotId_ofSlots hpos hlt] at hnext
      by_contra hge
      rw [if_neg hge] at hnext
      cases hnext
    · cases hheader
  · intro hlt
    rw [if_pos (by omega)]
    exact ⟨_, rfl, addresses_ofSlots hpos hlt⟩

/-- `incrementLevel` cannot compute the masks of level 30. A header that is read from disk has them. -/
theorem incrementLevel_to_thirty : (List.replicate 29 .incrementLevel).foldlM step new = none ∧
    ofOnDisk ⟨0, 0, 0, 30⟩ = some ⟨30, 2 ^ 30 - 1, 2 ^ 31 - 1, 0, 0, 0⟩ := by
  decide +kernel

end HashIndexHeader
end CycleJoin
