import CycleJoin.Storage.Compression.PackingInfo

/-!
# Bitpacking loses no value

Values that are compressed page by page are read back from any range of any page, exactly when the
packing info gives each of them back. The one exception is the minimum of a signed type.
-/

namespace CycleJoin

open List BitpackInfo

namespace BitpackInfo

variable {t : IntegerType} {info : BitpackInfo t}

/-- The values of a page. -/
def pageValues (info : BitpackInfo t) (values : List t.Value) (p : Nat) : List t.Value :=
  (values.drop (p * info.numValues)).take info.numValues

/-- The pages hold all values, and any range of a page is read back. -/
def RoundTrips (info : BitpackInfo t) (values : List t.Value) : Prop :=
  ∀ buffer, ∃ pages, info.compress values buffer = some pages ∧
    values.length ≤ pages.length * info.numValues ∧
    ∀ p page, pages[p]? = some page →
      ∀ srcOffset n, srcOffset + n ≤ (info.pageValues values p).length →
        info.decompressFromPage page srcOffset n =
          some (((info.pageValues values p).drop srcOffset).take n)

theorem length_pageValues (values : List t.Value) (p : Nat) : (info.pageValues values p).length =
      min (values.length - p * info.numValues) info.numValues := by
  rw [pageValues, length_take, length_drop, Nat.min_comm]

theorem getElem?_pageValues {values : List t.Value} {p i : Nat} (hi : i < (info.pageValues values p).length) :
    (info.pageValues values p)[i]? = some (values.getD (p * info.numValues + i) 0) := by
  rw [length_pageValues] at hi
  rw [pageValues, getElem?_take_of_lt (by omega), getElem?_drop, getD_eq_getElem?_getD,
    getElem?_eq_getElem (by omega), Option.getD_some]

theorem mapM_range'_eq {α : Type*} {f : Nat → Option α} {l : List α} (off n : Nat)
    (hle : off + n ≤ l.length) (h : ∀ i, off ≤ i → i < off + n → f i = l[i]?) :
    (range' off n).mapM f = some ((l.drop off).take n) := by
  induction n generalizing off with
  | zero => simp
  | succ n ih =>
    have hoff : off < l.length := by omega
    have hrest := ih (off + 1) (by omega) fun i hlo hhi => h i (by omega) (by omega)
    rw [range'_succ, mapM_cons, h off le_rfl (by omega), hrest, getElem?_eq_getElem hoff, drop_eq_getElem_cons hoff]
    rfl

theorem getD_mem {α : Type*} {l : List α} {j : Nat} (hj : j < l.length) (d : α) : l.getD j d ∈ l := by
  rw [getD_eq_getElem _ _ hj]
  exact getElem_mem hj

/-- Values are read back exactly if each of them is given back. -/
theorem roundTrips_iff {values : List t.Value} (hw : info.bitWidth < t.bits)
    (hencodes : ∀ v ∈ values, info.Encodes v) :
    info.RoundTrips values ↔ ∀ v ∈ values, info.decode (lowBits info.bitWidth (v - info.offset)) = some v := by
  have hpos := info.numValues_pos hw
  have hsrc : ∀ j < values.length, info.Encodes (values.getD j 0) :=
    fun j hj => hencodes _ (getD_mem hj 0)
  constructor
  · intro h v hv
    obtain ⟨k, hk, rfl⟩ := getElem_of_mem hv
    obtain ⟨pages, hpages, hlength, hread⟩ := h fun _ => 0
    obtain ⟨pages', hpages', -, hstores⟩ := compressPages_eq hw values.length le_rfl hsrc fun _ => 0
    obtain rfl : pages = pages' := Option.mem_unique hpages hpages'
    -- the page and the position of the value
    have hdiv := Nat.div_add_mod' k info.numValues
    have hmod := Nat.mod_lt k hpos
    have hpage : k / info.numValues < pages.length := by
      rw [Nat.div_lt_iff_lt_mul hpos]
      omega
    have hi : k % info.numValues < (info.pageValues values (k / info.numValues)).length := by
      rw [length_pageValues]
      omega
    have hget := getElem?_eq_getElem hpage
    have hone := hread _ _ hget (k % info.numValues) 1 (by omega)
    have hfield := hstores _ _ hget (k % info.numValues) (length_pageValues values _ ▸ hi)
    have hvalue : values.getD (k / info.numValues * info.numValues + k % info.numValues) 0 = values[k] := by
      rw [hdiv, getD_eq_getElem?_getD, getElem?_eq_getElem hk, Option.getD_some]
    have hlist := getElem?_pageValues hi
    dsimp only at hfield
    rw [hvalue] at hfield hlist
    obtain ⟨hi', heq⟩ := List.getElem?_eq_some_iff.mp hlist
    rw [decompressFromPage_eq (.inl hw), drop_eq_getElem_cons hi, heq,
      range'_one, mapM_cons, readValue, hfield] at hone
    cases hdecode : info.decode (lowBits info.bitWidth (values[k] - info.offset)) with
    | none =>
      rw [lowBits] at hdecode
      rw [hdecode] at hone
      exact absurd hone (by simp)
    | some v =>
      rw [lowBits] at hdecode
      rw [hdecode] at hone
      simpa using hone
  · intro h buffer
    obtain ⟨pages, hpages, hlength, hstores⟩ := compressPages_eq hw values.length le_rfl hsrc buffer
    refine ⟨pages, hpages, hlength, fun p page hpage srcOffset n hle => ?_⟩
    rw [decompressFromPage_eq (.inl hw)]
    refine mapM_range'_eq srcOffset n hle fun i _ hi => ?_
    have hi' : i < (info.pageValues values p).length := by omega
    have hlt := hi'
    rw [length_pageValues] at hlt
    rw [getElem?_pageValues hi', readValue, hstores p page hpage i hlt]
    exact h _ (getD_mem (by omega) 0)

end BitpackInfo

namespace IntegerType

variable {t : IntegerType}

/-- The minimum and the maximum of the values. -/
structure Bounds (t : IntegerType) (values : List t.Value) (min max : t.Value) : Prop where
  min_mem : min ∈ values
  max_mem : max ∈ values
  min_le : ∀ v ∈ values, ¬ t.lt v min
  le_max : ∀ v ∈ values, ¬ t.lt max v

/-- Integer bitpacking, when it is chosen, loses no value, except the minimum of a signed type that
comes with other values. -/
theorem roundTrips_iff_of_chosen (values : List t.Value) (min max : t.Value)
    (hbounds : t.Bounds values min max) (info : BitpackInfo t)
    (hinfo : t.getPackingInfo min max = some info)
    (hchosen : t.getBitpackingMetadata min max = some .integerBitpacking) :
    info.RoundTrips values ↔ ¬ (t.signed ∧ min = BitVec.intMin t.bits ∧ max ≠ min) := by
  have hw : info.bitWidth < t.bits := by
    rw [getBitpackingMetadata, hinfo, Option.map_some] at hchosen
    by_contra hge
    rw [if_pos (by omega)] at hchosen
    exact absurd hchosen (by decide)
  have hmin : ∀ v ∈ values, t.toInt min ≤ t.toInt v := fun v hv => not_lt.mp (hbounds.min_le v hv)
  have hmax : ∀ v ∈ values, t.toInt v ≤ t.toInt max := fun v hv => not_lt.mp (hbounds.le_max v hv)
  constructor
  · rintro h ⟨hsigned, rfl, hne⟩
    obtain ⟨hoffset, hdecode⟩ := decode_intMin hinfo hw hsigned hne
    have hback := (roundTrips_iff hw fun v _ => .inl hoffset).mp h _ hbounds.min_mem
    have hzero := Option.mem_unique hdecode hback
    have hneg := intMin_neg hsigned
    rw [← hzero, toInt_zero] at hneg
    exact absurd hneg (by decide)
  · intro hgood
    have hback := fun v hv => givesBack_of_between hinfo hw (hmin v hv) (hmax v hv) hgood
    exact (roundTrips_iff hw fun v hv => (hback v hv).1).mpr fun v hv => (hback v hv).2

/-- Values of 7 bits with their sign. -/
def sevenBits : List int8.Value := [5, -63]

theorem sevenBits_roundTrips : RoundTrips (t := int8) ⟨7, true, 0⟩ sevenBits :=
  (roundTrips_iff_of_chosen sevenBits (-63) 5 ⟨by decide, by decide, by decide, by decide⟩
    ⟨7, true, 0⟩ (by decide) (by decide)).mpr (by decide)

/-- The minimum of the type and a value of 4 bits with its sign. -/
def minimumAndFive : List int8.Value := [BitVec.intMin int8.bits, 5]

/-- Both are stored in 4 bits, where the minimum is 0. -/
theorem minimumAndFive_lost : int8.Bounds minimumAndFive (BitVec.intMin int8.bits) 5 ∧
      int8.getBitpackingMetadata (BitVec.intMin int8.bits) 5 = some .integerBitpacking ∧
      int8.getPackingInfo (BitVec.intMin int8.bits) 5 = some ⟨4, true, 0⟩ ∧
      ((compress (t := int8) ⟨4, true, 0⟩ minimumAndFive fun _ => 0).bind fun pages =>
        pages.head?.bind fun page => decompressFromPage ⟨4, true, 0⟩ page 0 2) =
        some [0, 5] :=
  ⟨⟨by decide, by decide, by decide, by decide⟩, by decide, by decide, by decide⟩

end IntegerType

end CycleJoin
