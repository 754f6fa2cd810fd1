import Mathlib

/-!
# Comparison of intervals

The operators of `interval_t` (`common/types/interval_t.cpp`) and the sort key of an interval
(`OrderByKeyEncoder::encodeData`). `>` compares whole months, then the days and then the microseconds
that are left over. Neither leftover is carried into the part before it. `==` compares the three
fields as they are, and the sort key keeps 32 bits of the months.

* `greaterThan_iff`: `>` is a lexicographic order of the parts.
* `agree_iff`: the pairs on which the operators, the total in microseconds and the sort key agree.
-/

namespace CycleJoin

/-- `interval_t`. -/
structure Interval where
  months : Int
  days : Int
  micros : Int
  deriving DecidableEq, Repr

namespace Interval

/-- `Interval::MICROS_PER_DAY`. -/
def microsPerDay : Int := 86400000000

/-- `Interval::MICROS_PER_MONTH`: a month counts as 30 days in comparisons. -/
def microsPerMonth : Int := microsPerDay * 30

/-- `Interval::normalizeIntervalEntries`: months, days and microseconds. -/
def normalizeIntervalEntries (input : Interval) : Int × Int × Int :=
  let extraMonthsD := input.days.tdiv 30
  let extraMonthsMicros := input.micros.tdiv microsPerMonth
  let days := input.days - extraMonthsD * 30
  let micros := input.micros - extraMonthsMicros * microsPerMonth
  let extraDaysMicros := micros.tdiv microsPerDay
  (input.months + extraMonthsD + extraMonthsMicros, days + extraDaysMicros,
    micros - extraDaysMicros * microsPerDay)

/-- `Interval::greaterThan`, `operator>`. -/
def greaterThan (left right : Interval) : Bool :=
  let (lMonths, lDays, lMicros) := normalizeIntervalEntries left
  let (rMonths, rDays, rMicros) := normalizeIntervalEntries right
  if lMonths > rMonths then true else if lMonths < rMonths then false
  else if lDays > rDays then true else if lDays < rDays then false
  else lMicros > rMicros

/-- `operator==`. -/
def equals (a b : Interval) : Bool := a.days == b.days && a.months == b.months && a.micros == b.micros

/-- `operator<=`. -/
def lessThanEquals (a b : Interval) : Bool := !greaterThan a b

/-- `operator>=`. -/
def greaterThanEquals (a b : Interval) : Bool := greaterThan a b || equals a b

/-- `operator<`. -/
def lessThan (a b : Interval) : Bool := !greaterThanEquals a b

/-- `Interval::getMicro`, without the overflow of an `int64_t`. -/
def getMicro (val : Interval) : Int :=
  val.micros + val.months * microsPerMonth + val.days * microsPerDay

/-- `OrderByKeyEncoder::encodeData` of an integer of `width` bits: two's complement with the sign bit
flipped, its bytes in big-endian order read as a number. -/
def encodeInt (width : Nat) (data : Int) : Int := (data + 2 ^ (width - 1)) % 2 ^ width

/-- `OrderByKeyEncoder::encodeData` of an interval. The casts to `int32_t` are the reductions of
`encodeInt`, and `memcmp` compares the 16 bytes as it compares this number. -/
def encodeData (data : Interval) : Int :=
  let (months, days, micros) := normalizeIntervalEntries data
  (encodeInt 32 months * 2 ^ 32 + encodeInt 32 days) * 2 ^ 64 + encodeInt 64 micros

/-- The months of an interval, with those its days and its microseconds hold. -/
def wholeMonths (i : Interval) : Int := i.months + i.days.tdiv 30 + i.micros.tdiv microsPerMonth

/-- The days past those months, with those the microseconds hold. -/
def restDays (i : Interval) : Int := i.days.tmod 30 + (i.micros.tmod microsPerMonth).tdiv microsPerDay

/-- The parts of an interval behind `months`, by weight. -/
def parts (months : Int) (i : Interval) : Int ×ₗ Int ×ₗ Int :=
  toLex (months, toLex (i.restDays, i.micros.tmod microsPerDay))

/-- `a` is below `b` by the total, by the parts, and by the parts with the months as an `int32_t`. -/
def Below (a b : Interval) : Prop :=
  a.getMicro < b.getMicro ∧ parts a.wholeMonths a < parts b.wholeMonths b ∧
    parts (encodeInt 32 a.wholeMonths) a < parts (encodeInt 32 b.wholeMonths) b

/-- What the operators, the total and the sort key owe to each other on `a` and `b`. -/
structure Agree (a b : Interval) : Prop where
  trichotomy : [lessThan a b, equals a b, greaterThan a b].count true = 1
  le_iff : lessThanEquals a b ↔ lessThan a b ∨ equals a b
  gt_iff : greaterThan a b ↔ b.getMicro < a.getMicro
  lt_iff : lessThan a b ↔ greaterThan b a
  orderBy_iff : encodeData b < encodeData a ↔ greaterThan a b

theorem normalizeIntervalEntries_eq (i : Interval) : normalizeIntervalEntries i =
    (i.wholeMonths, i.restDays, i.micros.tmod microsPerDay) := by
  have hdays := Int.tmod_def i.days 30
  have hmonth := Int.tmod_def i.micros microsPerMonth
  have hday := Int.tmod_def (i.micros.tmod microsPerMonth) microsPerDay
  rw [Int.tmod_tmod_of_dvd _ (show microsPerDay ∣ microsPerMonth from ⟨30, rfl⟩)] at hday
  rw [Int.mul_comm] at hdays hmonth hday
  simp [normalizeIntervalEntries, wholeMonths, restDays, ← hdays, ← hmonth, ← hday]

theorem parts_lt {m n : Int} {a b : Interval} : parts m a < parts n b ↔ m < n ∨ m = n ∧
    (a.restDays < b.restDays ∨ a.restDays = b.restDays ∧
      a.micros.tmod microsPerDay < b.micros.tmod microsPerDay) := by
  simp [parts, Prod.Lex.toLex_lt_toLex]

theorem greaterThan_iff {a b : Interval} : greaterThan a b ↔ parts b.wholeMonths b < parts a.wholeMonths a := by
  simp only [greaterThan, normalizeIntervalEntries_eq, parts_lt]
  split_ifs <;> simp <;> omega

theorem equals_iff {a b : Interval} : equals a b ↔ a = b := by
  cases a
  cases b
  simp [equals]
  tauto

theorem tmod_bounds (a : Int) {d : Int} (hd : 0 < d) : -d < a.tmod d ∧ a.tmod d < d :=
  ⟨Int.lt_tmod_of_pos a hd, Int.tmod_lt_of_pos a hd⟩

theorem restDays_bounds (i : Interval) : -60 < i.restDays ∧ i.restDays < 60 := by
  have hday := Int.mul_tdiv_add_tmod (i.micros.tmod microsPerMonth) microsPerDay
  have hdays := tmod_bounds i.days (d := 30) (by decide)
  have hmonth := tmod_bounds i.micros (d := microsPerMonth) (by decide)
  have hrest := tmod_bounds (i.micros.tmod microsPerMonth) (d := microsPerDay) (by decide)
  simp only [restDays, microsPerMonth, microsPerDay] at *
  omega

theorem encodeData_lt {a b : Interval} : encodeData a < encodeData b ↔
    parts (encodeInt 32 a.wholeMonths) a < parts (encodeInt 32 b.wholeMonths) b := by
  have ha := tmod_bounds a.micros (d := microsPerDay) (by decide)
  have hb := tmod_bounds b.micros (d := microsPerDay) (by decide)
  have hda := restDays_bounds a
  have hdb := restDays_bounds b
  simp only [encodeData, normalizeIntervalEntries_eq, parts_lt, encodeInt, microsPerDay] at *
  omega

theorem greaterThan_trans {a b c : Interval} (hab : greaterThan a b) (hbc : greaterThan b c) : greaterThan a c :=
  greaterThan_iff.2 ((greaterThan_iff.1 hbc).trans (greaterThan_iff.1 hab))

theorem not_greaterThan_self (a : Interval) : ¬ greaterThan a a :=
  fun h => lt_irrefl _ (greaterThan_iff.1 h)

theorem lessThan_iff {a b : Interval} : lessThan a b ↔ ¬ greaterThan a b ∧ a ≠ b := by
  simp [lessThan, greaterThanEquals, ← equals_iff]

/-- The first two parts hold of every pair, since `<` and `<=` are defined from `>` and `==`. -/
theorem Agree.of {a b : Interval} (hgt : greaterThan a b ↔ b.getMicro < a.getMicro)
    (hlt : lessThan a b ↔ greaterThan b a) (hkey : encodeData b < encodeData a ↔ greaterThan a b) :
    Agree a b := by
  have hne : equals a b → greaterThan a b = false := by
    intro h
    obtain rfl := equals_iff.1 h
    simpa using not_greaterThan_self a
  refine ⟨?_, ?_, hgt, hlt, hkey⟩ <;> cases hg : greaterThan a b <;> cases he : equals a b <;>
      simp_all [lessThan, lessThanEquals, greaterThanEquals]

theorem agree_self (a : Interval) : Agree a a :=
  .of (by simp [not_greaterThan_self]) (by simp [lessThan_iff, not_greaterThan_self]) (by simp [not_greaterThan_self])

theorem Below.agree {a b : Interval} (h : Below a b) : Agree a b ∧ Agree b a := by
  obtain ⟨hmicro, hparts, hkey⟩ := h
  have hab : ¬ greaterThan a b := fun h => hparts.asymm (greaterThan_iff.1 h)
  have hba : greaterThan b a := greaterThan_iff.2 hparts
  have hne : a ≠ b := fun h => lt_irrefl _ (h ▸ hmicro)
  rw [← encodeData_lt] at hkey
  exact ⟨.of (iff_of_false hab hmicro.asymm) (iff_of_true (lessThan_iff.2 ⟨hab, hne⟩) hba)
    (iff_of_false hkey.asymm hab), .of (iff_of_true hba hmicro)
    (iff_of_false (fun h => (lessThan_iff.1 h).1 hba) hab) (iff_of_true hkey hba)⟩

theorem Agree.below {a b : Interval} (h : Agree a b) (hgt : greaterThan a b) : Below b a :=
  ⟨h.gt_iff.1 hgt, greaterThan_iff.1 hgt, encodeData_lt.1 (h.orderBy_iff.2 hgt)⟩

/-- The operators, the total and the sort key agree on two different intervals exactly if each of
the three orders puts the same one first. `>` by itself is transitive. -/
theorem agree_iff (a b : Interval) : (∀ c, greaterThan a b → greaterThan b c → greaterThan a c) ∧
      ((Agree a b ∧ Agree b a) ↔ a = b ∨ Below a b ∨ Below b a) := by
  refine ⟨fun _ => greaterThan_trans, fun ⟨hab, hba⟩ => ?_, ?_⟩
  · by_cases hgt : greaterThan a b
    · exact .inr (.inr (hab.below hgt))
    by_cases h : a = b
    · exact .inl h
    exact .inr (.inl (hba.below (hab.lt_iff.1 (lessThan_iff.2 ⟨hgt, h⟩))))
  · rintro (rfl | h | h)
    · exact ⟨agree_self a, agree_self a⟩
    · exact h.agree
    · exact h.agree.symm

/-- A month is below 30 days and 30 days are below a month. Thirty-one days, given as 29 days and 48
hours, are not above a month. -/
theorem lessThan_both_ways : lessThan ⟨1, 0, 0⟩ ⟨0, 30, 0⟩ ∧ lessThan ⟨0, 30, 0⟩ ⟨1, 0, 0⟩ ∧
      greaterThan ⟨0, 29, 2 * microsPerDay⟩ ⟨1, 0, 0⟩ = false ∧
      getMicro ⟨1, 0, 0⟩ < getMicro ⟨0, 29, 2 * microsPerDay⟩ := by
  decide

end Interval

end CycleJoin
