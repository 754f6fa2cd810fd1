import Mathlib

/-!
# Sequences

`catalog/catalog_entry/sequence_catalog_entry.cpp`. A sequence hands out its start value first, and then
each value plus the increment. A sequence that does not cycle throws when it has come to its bound, and a
draw of several values that throws has advanced the sequence by the values before.

* `nextValNoLock_stateAt`: a draw goes to the next position, or throws when there is none.
* `nextKVal_stateAt`: the same for several values.
* `valueAt_injective`: the values at different positions differ.
-/

namespace CycleJoin

/-- `BoundCreateSequenceInfo`, with what `bindCreateSequence` checks of it. -/
structure SequenceInfo where
  startWith : Int
  increment : Int
  minValue : Int
  maxValue : Int
  cycle : Bool
  increment_ne_zero : increment ≠ 0
  min_le_start : minValue ≤ startWith
  start_le_max : startWith ≤ maxValue
  int64_min : -2 ^ 63 ≤ minValue
  int64_max : maxValue < 2 ^ 63

/-- The part of `SequenceData` that changes. `SequenceRollbackData` is a copy of it. -/
structure SequenceState where
  usageCount : Nat
  currVal : Int
  deriving DecidableEq, Repr

namespace SequenceInfo

variable (info : SequenceInfo)

/-- `SequenceData(info)`. -/
def initial : SequenceState := ⟨0, info.startWith⟩

/-- Whether `Add::operation` throws an `OverflowException`. -/
def overflows (sum : Int) : Bool := sum < -2 ^ 63 ∨ 2 ^ 63 ≤ sum

/-- The value after a sum that went past a bound of a sequence that cycles. -/
def cycled (sum : Int) : Int :=
  if overflows sum then (if info.increment < 0 then info.maxValue else info.minValue)
  else if sum < info.minValue then info.maxValue
  else if sum > info.maxValue then info.minValue
  else sum

/-- "nextval: reached minimum value of sequence". -/
def minError (sum : Int) : Bool := if overflows sum then info.increment < 0 else sum < info.minValue

/-- "nextval: reached maximum value of sequence". -/
def maxError (sum : Int) : Bool := if overflows sum then info.increment > 0 else sum > info.maxValue

/-- `nextValNoLock`; `none` when it throws. -/
def nextValNoLock (s : SequenceState) : Option SequenceState :=
  if s.usageCount = 0 then some { s with usageCount := 1 }
  else
    let next := s.currVal + info.increment
    let usageCount := (s.usageCount + 1) % 2 ^ 64
    if info.cycle then some ⟨usageCount, info.cycled next⟩
    else if info.minError next || info.maxError next then none
    else some ⟨usageCount, next⟩

/-- The loop of `nextKVal`: the state after it, and the values, or `none` when a draw has thrown. -/
def nextKVal : Nat → SequenceState → SequenceState × Option (List Int)
  | 0, s => (s, some [])
  | count + 1, s =>
    match info.nextValNoLock s with
    | none => (s, none)
    | some s' =>
      let (s'', values) := nextKVal count s'
      (s'', values.map (s'.currVal :: ·))

/-! ## Positions -/

/-- How many values the sequence has without cycling. -/
def numValues : Nat :=
  ((if info.increment > 0 then info.maxValue - info.startWith else info.startWith - info.minValue) /
    |info.increment|).toNat + 1

def valueAt (j : Nat) : Int := info.startWith + j * info.increment

def stateAt (p : Nat) : SequenceState := ⟨p, info.valueAt (p - 1)⟩

theorem valueAt_injective {i j : Nat} (h : info.valueAt i = info.valueAt j) : i = j := by
  have hmul : (i : Int) * info.increment = j * info.increment := by
    unfold valueAt at h
    linarith
  exact_mod_cast mul_right_cancel₀ info.increment_ne_zero hmul

/-- The positions of a sequence are those whose values lie between the bounds. -/
theorem lt_numValues_iff (j : Nat) :
    j < info.numValues ↔ info.minValue ≤ info.valueAt j ∧ info.valueAt j ≤ info.maxValue := by
  have hmin := info.min_le_start
  have hmax := info.start_le_max
  have habs : 0 < |info.increment| := abs_pos.mpr info.increment_ne_zero
  have hj : (0 : Int) ≤ j := Int.natCast_nonneg j
  rw [numValues, Nat.lt_succ_iff]
  have hbound (d : Int) (hd : 0 ≤ d) : j ≤ (d / |info.increment|).toNat ↔ j * |info.increment| ≤ d := by
    rw [Int.le_toNat (Int.ediv_nonneg hd habs.le), Int.le_ediv_iff_mul_le habs]
  unfold valueAt
  by_cases hpos : info.increment > 0
  · rw [if_pos hpos, hbound _ (by linarith), abs_of_pos hpos]
    have : 0 ≤ j * info.increment := mul_nonneg hj hpos.le
    constructor
    · intro h
      constructor <;> linarith
    · rintro ⟨-, h⟩
      linarith
  · have hneg : info.increment < 0 := lt_of_le_of_ne (not_lt.mp hpos) info.increment_ne_zero
    rw [if_neg hpos, hbound _ (by linarith), abs_of_neg hneg]
    have : j * info.increment ≤ 0 := mul_nonpos_of_nonneg_of_nonpos hj hneg.le
    constructor
    · intro h
      constructor <;> linarith
    · rintro ⟨h, -⟩
      linarith

theorem initial_eq : info.initial = info.stateAt 0 := by simp [initial, stateAt, valueAt]

section NoCycle

variable {info} (hcycle : info.cycle = false)

/-- A value between the bounds plus the increment: an error of either kind iff it is past a bound. -/
theorem errors_iff {value : Int} (hmin : info.minValue ≤ value) (hmax : value ≤ info.maxValue) :
    (info.minError (value + info.increment) || info.maxError (value + info.increment)) = true ↔
      ¬ (info.minValue ≤ value + info.increment ∧ value + info.increment ≤ info.maxValue) := by
  have h64min := info.int64_min
  have h64max := info.int64_max
  simp only [minError, maxError, overflows, Bool.or_eq_true]
  by_cases hover : value + info.increment < -2 ^ 63 ∨ 2 ^ 63 ≤ value + info.increment
  · simp only [hover, if_true, decide_eq_true_eq]
    omega
  · simp only [hover, if_false, decide_eq_true_eq]
    omega

include hcycle in
theorem nextValNoLock_stateAt (hsmall : info.numValues < 2 ^ 64) {p : Nat} (hp : p ≤ info.numValues) :
    info.nextValNoLock (info.stateAt p) = if p < info.numValues then some (info.stateAt (p + 1)) else none := by
  cases p with
  | zero => rfl
  | succ p =>
    have hnext : info.valueAt p + info.increment = info.valueAt (p + 1) := by
      unfold valueAt
      push_cast
      ring
    obtain ⟨hmin, hmax⟩ := (info.lt_numValues_iff p).mp hp
    have herr := errors_iff hmin hmax
    rw [hnext, ← info.lt_numValues_iff] at herr
    have hne : ¬ (info.stateAt (p + 1)).usageCount = 0 := Nat.succ_ne_zero p
    rw [nextValNoLock, if_neg hne]
    simp only [hcycle, Bool.false_eq_true, if_false, stateAt, Nat.add_sub_cancel, hnext]
    by_cases hlt : p + 1 < info.numValues
    · rw [if_neg (mt herr.mp (not_not.mpr hlt)), if_pos hlt, Nat.mod_eq_of_lt (by omega)]
    · rw [if_pos (herr.mpr hlt), if_neg hlt]

include hcycle in
/-- A draw of several values goes to the position after them; if there are not enough, it throws at the
end of the sequence. -/
theorem nextKVal_stateAt (hsmall : info.numValues < 2 ^ 64) (count : Nat) {p : Nat} (hp : p ≤ info.numValues) :
    info.nextKVal count (info.stateAt p) = if p + count ≤ info.numValues then
        (info.stateAt (p + count), some ((List.range' p count).map info.valueAt))
      else (info.stateAt info.numValues, none) := by
  induction count generalizing p with
  | zero =>
    rw [Nat.add_zero, if_pos hp]
    rfl
  | succ count ih =>
    rw [nextKVal, nextValNoLock_stateAt hcycle hsmall hp]
    by_cases hlt : p < info.numValues
    · simp only [if_pos hlt, ih (Nat.succ_le_of_lt hlt)]
      have hshift : p + 1 + count = p + (count + 1) := by omega
      rw [hshift]
      split <;> rfl
    · obtain rfl : p = info.numValues := by omega
      rw [if_neg hlt, if_neg (by omega)]

end NoCycle

/-- A sequence that cycles never throws. -/
theorem nextKVal_isSome_of_cycle (hcycle : info.cycle = true) (count : Nat) (s : SequenceState) :
    (info.nextKVal count s).2.isSome = true := by
  induction count generalizing s with
  | zero => rfl
  | succ count ih =>
    obtain ⟨s', hs'⟩ : ∃ s', info.nextValNoLock s = some s' := by
      simp only [nextValNoLock]
      split <;> exact ⟨_, rfl⟩
    simp only [nextKVal, hs', Option.isSome_map]
    exact ih s'

end SequenceInfo

end CycleJoin
