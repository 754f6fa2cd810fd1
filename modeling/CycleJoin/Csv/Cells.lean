import CycleJoin.Csv.Basic

/-!
# CSV: cells

The value of a cell, its text when it is exported (`CastToString`), and the cast of a text that
was read back to a value (`CastString::copyStringToVector`), for string and integer columns.

The casts of the integer types share `tryIntegerCast`; they differ in the operation that takes the
next digit. `CastOperation.Exact` says what makes such an operation a cast: it multiplies by ten
and adds the digit, and it refuses nothing that stays in range.
-/

namespace CycleJoin.Csv

open List

inductive IntegerType where
  | int8 | int16 | int32 | int64 | int128 | uint8 | uint16 | uint32 | uint64
  deriving DecidableEq

namespace IntegerType

def isSigned : IntegerType → Bool
  | int8 | int16 | int32 | int64 | int128 => true
  | uint8 | uint16 | uint32 | uint64 => false

/-- `std::numeric_limits<T>::min()`. -/
def minimum : IntegerType → Int
  | int8 => -2 ^ 7
  | int16 => -2 ^ 15
  | int32 => -2 ^ 31
  | int64 => -2 ^ 63
  | int128 => -2 ^ 127
  | uint8 | uint16 | uint32 | uint64 => 0

/-- `std::numeric_limits<T>::max()`. -/
def maximum : IntegerType → Int
  | int8 => 2 ^ 7 - 1
  | int16 => 2 ^ 15 - 1
  | int32 => 2 ^ 31 - 1
  | int64 => 2 ^ 63 - 1
  | int128 => 2 ^ 127 - 1
  | uint8 => 2 ^ 8 - 1
  | uint16 => 2 ^ 16 - 1
  | uint32 => 2 ^ 32 - 1
  | uint64 => 2 ^ 64 - 1

end IntegerType

inductive ColumnType where
  | string
  | integer (type : IntegerType)
  deriving DecidableEq

inductive Value where
  | string (text : Bytes)
  | integer (value : Int)
  deriving DecidableEq

/-- A cell; `none` is null. -/
abbrev Cell := Option Value

/-- The errors the readers report, with the text of each. -/
inductive ErrorMessage where
  /-- `Invalid UTF8-encoded string.` -/
  | invalidUtf8
  /-- `expected {} values per row, but got more.` -/
  | tooManyValues (expected : Nat)
  /-- `expected {} values per row, but got {}.` -/
  | tooFewValues (expected got : Nat)
  /-- `Cast failed. Could not convert "{}" to {}.` -/
  | couldNotConvert (text : Bytes) (type : IntegerType)
  /-- `Cast failed. {} is not within INT128 range.` -/
  | notWithinInt128 (text : Bytes)
  /-- `unterminated quotes.` -/
  | unterminatedQuotes
  /-- `quote should be followed by end of file, end of value, end of row or another quote.` -/
  | afterQuote
  /-- `escape at end of file.` -/
  | escapeAtEndOfFile
  /-- `neither QUOTE nor ESCAPE is proceeded by ESCAPE.` -/
  | afterEscape
  /-- `Quoted newlines are not supported in parallel CSV reader. Please specify PARALLEL=FALSE in
  the options.` -/
  | quotedNewline
  deriving DecidableEq

/-! ## The text of a value -/

def digitByte (d : Nat) : UInt8 := UInt8.ofNat (48 + d)

/-- The decimal digits of a number, most significant first. -/
def decimalDigits (n : Nat) : Bytes :=
  if n < 10 then [digitByte n] else decimalDigits (n / 10) ++ [digitByte (n % 10)]
termination_by n

/-- The byte `-`. -/
def minus : UInt8 := 45

/-- The text of an integer, `std::to_string`. -/
def integerText (i : Int) : Bytes :=
  if i < 0 then minus :: decimalDigits i.natAbs else decimalDigits i.natAbs

/-- `CastToString::operation`: the text that is exported for a value. -/
def Value.text : Value → Bytes
  | .string text => text
  | .integer i => integerText i

/-! ## Casts from text -/

/-- `isspace`. -/
def isSpace (c : UInt8) : Bool := c == 32 || (9 ≤ c && c ≤ 13)

/-- `StringUtils::CharacterIsDigit`. -/
def isDigit (c : UInt8) : Bool := 48 ≤ c && c ≤ 57

/-- `StringUtils::removeCStringWhiteSpaces`. -/
def removeCStringWhiteSpaces (input : Bytes) : Bytes :=
  ((input.dropWhile isSpace).reverse.dropWhile isSpace).reverse

/-- What a cast does with the next digit, and at the end. -/
structure CastOperation (σ : Type) where
  handleDigit : (negative : Bool) → σ → Nat → Option σ
  finalize : σ → Option σ

/-- `IntegerCastOperation` at a type with the given limits. -/
def integerCastOperation (minimum maximum : Int) : CastOperation Int where
  handleDigit negative result digit :=
    if negative then
      if result < (minimum + digit).tdiv 10 then none else some (result * 10 - digit)
    else
      if result > (maximum - digit).tdiv 10 then none else some (result * 10 + digit)
  finalize := some

structure Int128CastData where
  result : Int
  intermediate : Int
  digits : Nat
  deriving DecidableEq

/-- `Int128_t::tryMultiply`. -/
def tryMultiply (lhs rhs : Int) : Option Int :=
  if (lhs * rhs).natAbs < 2 ^ 127 then some (lhs * rhs) else none

/-- `Int128_t::addInPlace`. -/
def addInPlace (lhs rhs : Int) : Option Int :=
  if -2 ^ 127 ≤ lhs + rhs ∧ lhs + rhs ≤ 2 ^ 127 - 1 then some (lhs + rhs) else none

/-- `DECIMAL_PRECISION_LIMIT`. -/
def decimalPrecisionLimit : Nat := 38

/-- The multiplication in `Int128CastData::flush`, left out while nothing has been flushed. -/
def Int128CastData.shifted (data : Int128CastData) : Option Int :=
  if data.result ≠ 0 then
    if decimalPrecisionLimit < data.digits then none
    else tryMultiply data.result (10 ^ data.digits)
  else some data.result

/-- `Int128CastData::flush`. -/
def Int128CastData.flush (data : Int128CastData) : Option Int128CastData :=
  if data.digits = 0 ∧ data.intermediate = 0 then some data
  else do
    let result ← addInPlace (← data.shifted) data.intermediate
    return ⟨result, 0, 0⟩

/-- `Int128CastOperation::handleDigit` before the digit is appended: the intermediate value is
flushed when it would leave the range of `int64_t`. -/
def Int128CastData.makeRoom (negative : Bool) (data : Int128CastData) (digit : Nat) :
    Option Int128CastData :=
  if negative then
    if data.intermediate < (-2 ^ 63 + (digit : Int)).tdiv 10 then data.flush else some data
  else
    if data.intermediate > (2 ^ 63 - 1 - (digit : Int)).tdiv 10 then data.flush else some data

/-- `Int128CastOperation`. -/
def int128CastOperation : CastOperation Int128CastData where
  handleDigit negative data digit := do
    let data ← data.makeRoom negative digit
    let intermediate :=
      if negative then data.intermediate * 10 - digit else data.intermediate * 10 + digit
    return { data with intermediate := intermediate, digits := data.digits + 1 }
  finalize := Int128CastData.flush

section
variable {σ : Type} (op : CastOperation σ)

/-- The loop of `integerCastLoop` over the bytes after the sign. -/
def castDigits (negative : Bool) : σ → Bytes → Option σ
  | s, [] => some s
  | s, c :: rest =>
    if isDigit c then (op.handleDigit negative s (c.toNat - 48)).bind (castDigits negative · rest)
    else none

/-- `integerCastLoop`; a sign alone is not a number. -/
def integerCastLoop (negative : Bool) (s : σ) (digits : Bytes) : Option σ :=
  if digits = [] then none else (castDigits op negative s digits).bind op.finalize

/-- `tryIntegerCast`. -/
def tryIntegerCast (isSigned : Bool) (s : σ) (input : Bytes) : Option σ :=
  match removeCStringWhiteSpaces input with
  | [] => none
  | c :: rest =>
    if c = minus then
      -- an unsigned column takes no negative number but `-0`
      if ¬isSigned ∧ rest.any (· ≠ 48) then none else integerCastLoop op true s rest
    else if rest ≠ [] ∧ c = 48 then none
    else integerCastLoop op false s (c :: rest)

end

/-- `CastStringHelper::cast` to an integer type. -/
def castInteger (type : IntegerType) (input : Bytes) : Except ErrorMessage Int :=
  match type with
  | .int128 =>
    match tryIntegerCast int128CastOperation true ⟨0, 0, 0⟩ input with
    | some data => .ok data.result
    | none => .error (.notWithinInt128 input)
  | type =>
    match tryIntegerCast (integerCastOperation type.minimum type.maximum) type.isSigned 0 input with
    | some result => .ok result
    | none => .error (.couldNotConvert input type)

/-- The text `null` in any case. -/
def isNullWord (s : Bytes) : Bool :=
  match s with
  | [n, u, l, l'] => (n == 78 || n == 110) && (u == 85 || u == 117) && (l == 76 || l == 108) &&
      (l' == 76 || l' == 108)
  | _ => false

/-- `isNull` of `cast_from_string_functions.cpp`: white space, or `null` between white space. -/
def isNull (s : Bytes) : Bool :=
  match s.dropWhile isSpace with
  | [] => true
  | rest => isNullWord (rest.take 4) && ((rest.drop 4).dropWhile isSpace).isEmpty

/-- `CastString::copyStringToVector`, with `setVectorNull`. -/
def copyStringToVector (option : CSVOption) (type : ColumnType) (text : Bytes) :
    Except ErrorMessage Cell :=
  match type with
  | .string => .ok (if option.nullStrings.contains text then none else some (.string text))
  | .integer type =>
    if isNull text then .ok none
    else match castInteger type text with
      | .ok i => .ok (some (.integer i))
      | .error e => .error e

/-! ## Decimal texts -/

def signed (negative : Bool) (n : Nat) : Int := if negative then -(n : Int) else n

theorem toNat_digitByte {d : Nat} (hd : d < 10) : (digitByte d).toNat = 48 + d := by
  simp only [digitByte, UInt8.toNat_ofNat']
  omega

theorem isDigit_digitByte {d : Nat} (hd : d < 10) : isDigit (digitByte d) = true := by
  have hbyte : ∀ d < 10, isDigit (digitByte d) = true := by decide
  exact hbyte d hd

theorem isDigit_iff (c : UInt8) : isDigit c = true ↔ 48 ≤ c.toNat ∧ c.toNat ≤ 57 := by
  simp only [isDigit, Bool.and_eq_true, decide_eq_true_eq]
  rfl

variable {n : Nat}

theorem decimalDigits_of_lt (hn : n < 10) : decimalDigits n = [digitByte n] := by
  rw [decimalDigits, if_pos hn]

theorem decimalDigits_of_le (hn : 10 ≤ n) : decimalDigits n = decimalDigits (n / 10) ++ [digitByte (n % 10)] := by
  rw [decimalDigits, if_neg (not_lt.mpr hn)]

theorem decimalDigits_ne_nil (n : Nat) : decimalDigits n ≠ [] := by
  by_cases hn : n < 10
  · rw [decimalDigits_of_lt hn]
    exact cons_ne_nil _ _
  · rw [decimalDigits_of_le (not_lt.mp hn)]
    exact append_ne_nil_of_right_ne_nil _ (cons_ne_nil _ _)

variable {c : UInt8}

theorem isDigit_of_mem_decimalDigits (hc : c ∈ decimalDigits n) : isDigit c = true := by
  induction n using Nat.strongRecOn with
  | ind n ih =>
    by_cases hn : n < 10
    · rw [decimalDigits_of_lt hn, mem_singleton] at hc
      rw [hc]
      exact isDigit_digitByte hn
    · rw [decimalDigits_of_le (not_lt.mp hn), mem_append, mem_singleton] at hc
      rcases hc with hc | hc
      · exact ih (n / 10) (by omega) hc
      · rw [hc]
        exact isDigit_digitByte (Nat.mod_lt _ (by decide))

/-- The first digit of a number of several digits is not a zero. -/
theorem decimalDigits_head {rest : Bytes} (h : decimalDigits n = c :: rest) (hrest : rest ≠ []) : c ≠ 48 := by
  induction n using Nat.strongRecOn generalizing c rest with
  | ind n ih =>
    by_cases hn : n < 10
    · rw [decimalDigits_of_lt hn] at h
      exact absurd (cons.inj h).2.symm hrest
    · rw [decimalDigits_of_le (not_lt.mp hn)] at h
      obtain ⟨c', rest', hdigits⟩ := exists_cons_of_ne_nil (decimalDigits_ne_nil (n / 10))
      rw [hdigits] at h
      obtain ⟨rfl, -⟩ := cons.inj h
      by_cases hsmall : n / 10 < 10
      · -- two digits: the first one is the quotient, which is positive
        rw [decimalDigits_of_lt hsmall] at hdigits
        obtain ⟨rfl, -⟩ := cons.inj hdigits
        have hne : ∀ d < 10, d ≠ 0 → digitByte d ≠ 48 := by decide
        exact hne _ hsmall (by omega)
      · refine ih (n / 10) (by omega) hdigits ?_
        rintro rfl
        have hlen := congrArg length hdigits
        rw [decimalDigits_of_le (not_lt.mp hsmall)] at hlen
        have hpos := length_pos_of_ne_nil (decimalDigits_ne_nil (n / 10 / 10))
        simp only [length_append, length_cons] at hlen
        omega

/-! ## The cast of an integer's text -/

/-- What makes an operation the cast to a type with the limits `lo` and `hi`: `val` is the number
read so far, `out` the one that is returned, and `good` holds of what the loop has built. -/
structure CastOperation.Exact {σ : Type} (op : CastOperation σ) (val out : σ → Int)
    (good : Bool → σ → Prop) (lo hi : Int) : Prop where
  step : ∀ {negative s d s'}, good negative s → op.handleDigit negative s d = some s' →
    good negative s' ∧ val s' = val s * 10 + signed negative d
  accept : ∀ {negative s d}, good negative s → d < 10 →
    lo ≤ val s * 10 + signed negative d → val s * 10 + signed negative d ≤ hi →
    ∃ s', op.handleDigit negative s d = some s'
  finish : ∀ {s s'}, op.finalize s = some s' → out s' = val s
  finish_accept : ∀ {negative s}, good negative s → lo ≤ val s → val s ≤ hi →
    ∃ s', op.finalize s = some s'

theorem signed_mul_add (negative : Bool) (a d : Nat) :
    signed negative a * 10 + signed negative d = signed negative (a * 10 + d) := by
  cases negative <;> simp only [signed, Bool.false_eq_true, if_true, if_false] <;> omega

section
variable {σ : Type} {op : CastOperation σ} {val out : σ → Int} {good : Bool → σ → Prop}
  {lo hi : Int} {negative : Bool} {s s' : σ}

theorem castDigits_append (s : σ) (t u : Bytes) : castDigits op negative s (t ++ u) =
      (castDigits op negative s t).bind (castDigits op negative · u) := by
  induction t generalizing s with
  | nil => rfl
  | cons c rest ih =>
    simp only [cons_append, castDigits]
    split
    · cases op.handleDigit negative s (c.toNat - 48) with
      | none => rfl
      | some s' => exact ih s'
    · rfl

theorem castDigits_decimalDigits (hop : op.Exact val out good lo hi) (hgood : good negative s)
    (hval : val s = 0) (hlo : lo ≤ 0) (hhi : 0 ≤ hi) {n : Nat} (hn : lo ≤ signed negative n)
    (hn' : signed negative n ≤ hi) :
    ∃ s', castDigits op negative s (decimalDigits n) = some s' ∧ good negative s' ∧ val s' = signed negative n := by
  have hdigit {s : σ} {d : Nat} (hd : d < 10) : castDigits op negative s [digitByte d] =
      op.handleDigit negative s d := by
    simp only [castDigits, isDigit_digitByte hd, toNat_digitByte hd, Nat.add_sub_cancel_left]
    cases op.handleDigit negative s d <;> rfl
  -- the digits before the last one are those of a number between zero and `n`
  induction n using Nat.strongRecOn with
  | ind n ih =>
    by_cases hsmall : n < 10
    · rw [decimalDigits_of_lt hsmall, hdigit hsmall]
      have hnext : val s * 10 + signed negative n = signed negative n := by omega
      obtain ⟨s', hs'⟩ := hop.accept hgood hsmall (by rwa [hnext]) (by rwa [hnext])
      obtain ⟨hgood', hval'⟩ := hop.step hgood hs'
      exact ⟨s', hs', hgood', hval'.trans hnext⟩
    · have hsplit : signed negative (n / 10) * 10 + signed negative (n % 10) = signed negative n := by
        rw [signed_mul_add, Nat.div_add_mod']
      have hrange : lo ≤ signed negative (n / 10) ∧ signed negative (n / 10) ≤ hi := by
        cases negative <;> simp only [signed] at * <;> omega
      obtain ⟨s₁, hs₁, hgood₁, hval₁⟩ := ih (n / 10) (by omega) hrange.1 hrange.2
      have hmod : n % 10 < 10 := Nat.mod_lt _ (by decide)
      rw [← hval₁] at hsplit
      obtain ⟨s', hs'⟩ := hop.accept hgood₁ hmod (by rwa [hsplit]) (by rwa [hsplit])
      obtain ⟨hgood', hval'⟩ := hop.step hgood₁ hs'
      refine ⟨s', ?_, hgood', hval'.trans hsplit⟩
      rw [decimalDigits_of_le (not_lt.mp hsmall), castDigits_append, hs₁, Option.bind_some, hdigit hmod, hs']

end

theorem tdiv_ten_le {a b : Int} (h : a ≤ b * 10) : a.tdiv 10 ≤ b := by
  rcases le_total 0 a with ha | ha
  · rw [Int.tdiv_eq_ediv_of_nonneg ha]
    omega
  · have hneg : a.tdiv 10 = -((-a) / 10) := by
      rw [← Int.tdiv_eq_ediv_of_nonneg (by omega), Int.neg_tdiv, neg_neg]
    omega

theorem le_tdiv_ten {a b : Int} (h : b * 10 ≤ a) : b ≤ a.tdiv 10 := by
  have h' := tdiv_ten_le (a := -a) (b := -b) (by omega)
  rw [Int.neg_tdiv] at h'
  omega

theorem integerCastOperation_exact (lo hi : Int) :
    (integerCastOperation lo hi).Exact id id (fun _ _ => True) lo hi where
  step := by
    intro negative s d s' _ h
    refine ⟨trivial, ?_⟩
    simp only [integerCastOperation] at h
    cases negative
    · rw [if_neg (by decide)] at h
      split at h <;> cases h
      rfl
    · rw [if_pos rfl] at h
      split at h <;> cases h
      exact Int.sub_eq_add_neg
  accept := by
    intro negative s d _ _ hlo hhi
    simp only [integerCastOperation]
    cases negative <;> simp only [id, signed, Bool.false_eq_true, if_true, if_false] at *
    · rw [if_neg (not_lt.mpr (le_tdiv_ten (by omega)))]
      exact ⟨_, rfl⟩
    · rw [if_neg (not_lt.mpr (tdiv_ten_le (by omega)))]
      exact ⟨_, rfl⟩
  finish := by
    intro s s' h
    cases h
    rfl
  finish_accept := fun _ _ _ => ⟨_, rfl⟩

namespace Int128CastData

/-- The number read so far. -/
def val (data : Int128CastData) : Int := data.result * 10 ^ data.digits + data.intermediate

/-- The two parts have the sign of the number, and there is nothing to flush right after a
flush. -/
structure Good (negative : Bool) (data : Int128CastData) : Prop where
  result : 0 ≤ (if negative then -data.result else data.result)
  intermediate : 0 ≤ (if negative then -data.intermediate else data.intermediate)
  digits : data.digits = 0 → data.intermediate = 0

variable {negative : Bool} {data data' : Int128CastData}

theorem flush_val (h : data.flush = some data') :
    data'.val = data.val ∧ data'.result = data.val ∧ data'.intermediate = 0 ∧ data'.digits = 0 := by
  unfold flush at h
  split at h
  · rename_i hzero
    cases h
    simp [val, hzero.1, hzero.2]
  · obtain ⟨product, hproduct, h⟩ := Option.bind_eq_some_iff.mp h
    obtain ⟨sum, hsum, h⟩ := Option.bind_eq_some_iff.mp h
    have hp : product = data.result * 10 ^ data.digits := by
      unfold shifted at hproduct
      split at hproduct
      · split at hproduct
        · cases hproduct
        · unfold tryMultiply at hproduct
          split at hproduct <;> cases hproduct
          rfl
      · rename_i hresult
        cases hproduct
        rw [not_not.mp hresult, zero_mul]
    have hs : sum = product + data.intermediate := by
      unfold addInPlace at hsum
      split at hsum <;> cases hsum
      rfl
    cases h
    simp [val, hs, hp]

variable (hgood : data.Good negative)
include hgood

/-- The part that is multiplied is no larger than the number. -/
theorem Good.natAbs_le : (data.result * 10 ^ data.digits).natAbs ≤ data.val.natAbs := by
  have hpow : (0 : Int) ≤ 10 ^ data.digits := by positivity
  have hres := hgood.result
  have hint := hgood.intermediate
  unfold val
  cases negative
  · simp only [Bool.false_eq_true, if_false] at hres hint
    have := Int.mul_nonneg hres hpow
    omega
  · simp only [if_true] at hres hint
    have := Int.mul_nonneg hres hpow
    rw [neg_mul] at this
    omega

/-- No flush fails while the number is in range. -/
theorem Good.flush_accept (hlo : -2 ^ 127 ≤ data.val)
    (hhi : data.val ≤ 2 ^ 127 - 1) : ∃ data', data.flush = some data' := by
  unfold flush
  split
  · exact ⟨_, rfl⟩
  · rename_i hzero
    have hdigits : data.digits ≠ 0 := fun h => hzero ⟨h, hgood.digits h⟩
    have hle : (data.result * 10 ^ data.digits).natAbs ≤ 2 ^ 127 := by
      have := hgood.natAbs_le
      omega
    -- a multiple of ten is not a power of two
    have hlt : (data.result * 10 ^ data.digits).natAbs < 2 ^ 127 := by
      refine lt_of_le_of_ne hle fun heq => ?_
      obtain ⟨k, hk⟩ := Nat.exists_eq_succ_of_ne_zero hdigits
      have hdvd : 5 ∣ 2 ^ 127 := by
        rw [← heq, hk, Int.natAbs_mul]
        exact Dvd.dvd.mul_left (Dvd.dvd.mul_left (by decide) _) _
      exact absurd hdvd (by decide)
    have hshifted : data.shifted = some (data.result * 10 ^ data.digits) := by
      unfold shifted
      split
      · rename_i hresult
        have hlimit : data.digits ≤ decimalPrecisionLimit := by
          by_contra hlarge
          have hpow : 10 ^ 39 ≤ 10 ^ data.digits := Nat.pow_le_pow_right (by decide) (not_le.mp hlarge)
          rw [Int.natAbs_mul] at hlt
          have hone : 1 ≤ data.result.natAbs := Int.natAbs_pos.mpr hresult
          have hmul := Nat.mul_le_mul hone hpow
          have hnum : 2 ^ 127 < 1 * 10 ^ 39 := by decide
          exact absurd (lt_trans hlt hnum) (not_lt.mpr hmul)
        rw [if_neg (not_lt.mpr hlimit), tryMultiply, if_pos hlt]
      · rename_i hresult
        rw [not_not.mp hresult, zero_mul]
    have hsum : addInPlace (data.result * 10 ^ data.digits) data.intermediate = some data.val := by
      rw [addInPlace, if_pos ⟨hlo, hhi⟩]
      rfl
    refine ⟨⟨data.val, 0, 0⟩, ?_⟩
    simp only [hshifted, hsum, Option.bind_eq_bind, Option.bind_some]
    rfl

theorem Good.flush (h : data.flush = some data') : data'.Good negative := by
  obtain ⟨-, hresult, hint, -⟩ := flush_val h
  refine ⟨?_, ?_, fun _ => hint⟩
  · have hpow : (0 : Int) ≤ 10 ^ data.digits := by positivity
    have hres := hgood.result
    have hint' := hgood.intermediate
    rw [hresult, val]
    cases negative
    · simp only [Bool.false_eq_true, if_false] at *
      have := Int.mul_nonneg hres hpow
      omega
    · simp only [if_true] at *
      have := Int.mul_nonneg hres hpow
      rw [neg_mul] at this
      omega
  · rw [hint]
    cases negative <;> simp

theorem Good.makeRoom {d : Nat}
    (h : data.makeRoom negative d = some data') : data'.Good negative ∧ data'.val = data.val := by
  unfold Int128CastData.makeRoom at h
  repeat' split at h
  all_goals first
    | exact ⟨hgood.flush h, (flush_val h).1⟩
    | (cases h; exact ⟨hgood, rfl⟩)

end Int128CastData

theorem int128CastOperation_exact : int128CastOperation.Exact Int128CastData.val Int128CastData.result
      (fun negative data => data.Good negative) (-2 ^ 127) (2 ^ 127 - 1) where
  step := by
    intro negative s d s' hgood h
    obtain ⟨data, hroom, h⟩ := Option.bind_eq_some_iff.mp h
    obtain ⟨hgood', hval⟩ := hgood.makeRoom hroom
    cases h
    rw [← hval]
    refine ⟨⟨hgood'.result, ?_, fun h => absurd h (Nat.succ_ne_zero _)⟩, ?_⟩
    · have hint := hgood'.intermediate
      cases negative <;> simp only [Bool.false_eq_true, if_true, if_false] at hint ⊢ <;> omega
    · simp only [Int128CastData.val]
      cases negative <;> simp only [signed, Bool.false_eq_true, if_true, if_false] <;> ring
  accept := by
    intro negative s d hgood _ hlo hhi
    have hval : -2 ^ 127 ≤ s.val ∧ s.val ≤ 2 ^ 127 - 1 := by
      cases negative <;> simp only [signed] at * <;> omega
    obtain ⟨flushed, hflushed⟩ := hgood.flush_accept hval.1 hval.2
    obtain ⟨data, hdata⟩ : ∃ data, s.makeRoom negative d = some data := by
      unfold Int128CastData.makeRoom
      repeat' split
      all_goals first
        | exact ⟨_, hflushed⟩
        | exact ⟨_, rfl⟩
    simp only [int128CastOperation, hdata]
    exact ⟨_, rfl⟩
  finish := fun h => (Int128CastData.flush_val h).2.1
  finish_accept := fun hgood hlo hhi => hgood.flush_accept hlo hhi

/-! ## Integer texts -/

theorem removeCStringWhiteSpaces_of_forall {s : Bytes} (h : ∀ c ∈ s, isSpace c = false) :
    removeCStringWhiteSpaces s = s := by
  have hdrop {t : Bytes} (ht : ∀ c ∈ t, isSpace c = false) : t.dropWhile isSpace = t := by
    cases t with
    | nil => rfl
    | cons c rest => simp [ht c mem_cons_self]
  rw [removeCStringWhiteSpaces, hdrop h, hdrop fun c hc => h c (mem_reverse.mp hc), reverse_reverse]

variable {i : Int}

/-- What a byte of the text of an integer is. -/
theorem mem_integerText (hc : c ∈ integerText i) : c = minus ∨ isDigit c = true := by
  unfold integerText at hc
  split at hc
  · rcases mem_cons.mp hc with rfl | hc
    · exact Or.inl rfl
    · exact Or.inr (isDigit_of_mem_decimalDigits hc)
  · exact Or.inr (isDigit_of_mem_decimalDigits hc)

theorem toNat_of_mem_integerText (hc : c ∈ integerText i) : 45 ≤ c.toNat ∧ c.toNat ≤ 57 := by
  rcases mem_integerText hc with rfl | hc
  · decide
  · have := (isDigit_iff c).mp hc
    omega

theorem isSpace_of_mem_integerText (hc : c ∈ integerText i) : isSpace c = false := by
  have hbound := toNat_of_mem_integerText hc
  have hbyte : ∀ n ≤ 57, 45 ≤ n → isSpace (UInt8.ofNat n) = false := by decide
  have h := hbyte c.toNat hbound.2 hbound.1
  rwa [UInt8.ofNat_toNat] at h

theorem isValid_integerText (i : Int) : isValid (integerText i) = true := by
  refine isValid_of_ascii fun c hc => UInt8.lt_iff_toNat_lt.mpr ?_
  have := toNat_of_mem_integerText hc
  exact this.2.trans_lt (by decide)

theorem integerText_ne_nil (i : Int) : integerText i ≠ [] := by
  unfold integerText
  split
  · exact cons_ne_nil _ _
  · exact decimalDigits_ne_nil _

/-- The text of an integer is not taken for a null. -/
theorem isNull_integerText (i : Int) : isNull (integerText i) = false := by
  obtain ⟨c, rest, htext⟩ := exists_cons_of_ne_nil (integerText_ne_nil i)
  have hc : c ∈ integerText i := htext ▸ mem_cons_self
  have hspace := isSpace_of_mem_integerText hc
  have hne : (c == 78 || c == 110) = false := by
    have hbound := toNat_of_mem_integerText hc
    have hbyte : ∀ n ≤ 57, (UInt8.ofNat n == 78 || UInt8.ofNat n == 110) = false := by decide
    have h := hbyte c.toNat hbound.2
    rwa [UInt8.ofNat_toNat] at h
  have hword : isNullWord (take 4 (c :: rest)) = false := by
    unfold isNullWord
    split
    · rename_i n u l l' hword
      have hn : c = n := (cons.inj (by simpa using hword)).1
      rw [← hn, hne]
      rfl
    · rfl
  rw [htext, isNull, dropWhile_cons, hspace, if_neg (by decide)]
  simp only [hword, Bool.false_and]

theorem signed_natAbs (i : Int) : signed (decide (i < 0)) i.natAbs = i := by
  unfold signed
  split
  · rename_i h
    have := of_decide_eq_true h
    omega
  · rename_i h
    have := of_decide_eq_false (Bool.not_eq_true _ ▸ h)
    omega

section
variable {σ : Type} {op : CastOperation σ} {val out : σ → Int} {good : Bool → σ → Prop}
  {lo hi : Int} {isSigned : Bool} {s s' : σ}

theorem integerCastLoop_decimalDigits (hop : op.Exact val out good lo hi) {negative : Bool}
    (hgood : good negative s) (hval : val s = 0) (hlo : lo ≤ 0) (hhi : 0 ≤ hi) {n : Nat}
    (hn : lo ≤ signed negative n) (hn' : signed negative n ≤ hi) :
    ∃ s', integerCastLoop op negative s (decimalDigits n) = some s' ∧ out s' = signed negative n := by
  obtain ⟨s₁, hs₁, hgood₁, hval₁⟩ := castDigits_decimalDigits hop hgood hval hlo hhi hn hn'
  obtain ⟨s', hs'⟩ := hop.finish_accept hgood₁ (hval₁ ▸ hn) (hval₁ ▸ hn')
  refine ⟨s', ?_, (hop.finish hs').trans hval₁⟩
  rw [integerCastLoop, if_neg (decimalDigits_ne_nil n), hs₁, Option.bind_some, hs']

theorem tryIntegerCast_integerText (hop : op.Exact val out good lo hi)
    (hgood : ∀ negative, good negative s) (hval : val s = 0) (hlo : lo ≤ 0) (hhi : 0 ≤ hi)
    (hsigned : isSigned = true ∨ lo = 0) {i : Int} (hi₁ : lo ≤ i) (hi₂ : i ≤ hi) :
    ∃ s', tryIntegerCast op isSigned s (integerText i) = some s' ∧ out s' = i := by
  have hloop : ∃ s', integerCastLoop op (decide (i < 0)) s (decimalDigits i.natAbs) = some s' ∧
      out s' = signed (decide (i < 0)) i.natAbs :=
    integerCastLoop_decimalDigits hop (hgood _) hval hlo hhi (by rwa [signed_natAbs]) (by rwa [signed_natAbs])
  rw [signed_natAbs] at hloop
  unfold tryIntegerCast
  rw [removeCStringWhiteSpaces_of_forall fun c hc => isSpace_of_mem_integerText hc]
  by_cases hneg : i < 0
  · have htrue : isSigned = true := hsigned.resolve_right (by omega)
    simpa [integerText, hneg, htrue] using hloop
  · obtain ⟨c, rest, hdigits⟩ := exists_cons_of_ne_nil (decimalDigits_ne_nil i.natAbs)
    have hc : c ≠ minus := by
      rintro rfl
      have := isDigit_of_mem_decimalDigits (n := i.natAbs) (hdigits ▸ mem_cons_self)
      exact absurd this (by decide)
    have hzero : ¬(rest ≠ [] ∧ c = 48) := fun h => decimalDigits_head hdigits h.1 h.2
    simp only [hneg, hdigits] at hloop
    simp only [integerText, if_neg hneg, hdigits, if_neg hc, if_neg hzero]
    exact hloop

end

theorem IntegerType.limits (type : IntegerType) :
    type.minimum ≤ 0 ∧ 0 ≤ type.maximum ∧ (type.isSigned = true ∨ type.minimum = 0) := by
  cases type <;> decide

theorem castInteger_integerText {type : IntegerType} (hlo : type.minimum ≤ i)
    (hhi : i ≤ type.maximum) : castInteger type (integerText i) = .ok i := by
  obtain ⟨hmin, hmax, hsigned⟩ := type.limits
  by_cases htype : type = .int128
  · subst htype
    have hgood (negative : Bool) : (⟨0, 0, 0⟩ : Int128CastData).Good negative :=
      ⟨by cases negative <;> decide, by cases negative <;> decide, fun _ => rfl⟩
    obtain ⟨data, hdata, hout⟩ := tryIntegerCast_integerText int128CastOperation_exact hgood rfl
      hmin hmax (Or.inl rfl) hlo hhi
    simp [castInteger, hdata, hout]
  · obtain ⟨result, hresult, hout⟩ := tryIntegerCast_integerText
      (integerCastOperation_exact type.minimum type.maximum) (fun _ => trivial) rfl hmin hmax
      hsigned hlo hhi
    cases type <;> first
      | exact absurd rfl htype
      | (simp only [castInteger, hresult]; exact congrArg Except.ok hout)

end CycleJoin.Csv
