import CycleJoin.Common.NullMask
import CycleJoin.Storage.Compression.PackingInfo

/-!
# The two ways to read a compressed page

`ReadCompressedValuesFromPageToVector` and `ReadCompressedValuesFromPage`
(`storage/compression/compression.cpp`) decompress values of a page into a value vector and into a byte
buffer. Both choose a codec by the compression and the physical type, each with a table of its own. A
value is a boolean or some bits; the byte buffer has its booleans as single bits.

* `readsAgree_of_ne`: the tables agree on everything but bitpacked `UINT8` values, which
  `ReadCompressedValuesFromPage` reads as `int8_t`.
* `readPaths_agree_iff`: the values that are read are the same exactly when no bitpacked `UINT8` value is
  above 127.

`none` is an exception.
-/

namespace CycleJoin

open BitpackInfo NullMask List Option

inductive PhysicalTypeID where
  | any | bool | int64 | int32 | int16 | int8 | uint64 | uint32 | uint16 | uint8 | int128 | double
  | float | interval | internalId | alpExceptionFloat | alpExceptionDouble
  | string | list | array | struct | pointer
deriving DecidableEq, Repr

/-- `getDataTypeSizeInChunk`, in bytes. -/
def getDataTypeSizeInChunk : PhysicalTypeID → Option Nat
  | .string | .array | .list | .struct => some 0
  | .internalId => some 8
  | .bool | .int8 | .uint8 => some 1
  | .int16 | .uint16 => some 2
  | .int32 | .uint32 | .float => some 4
  | .int64 | .uint64 | .double => some 8
  | .int128 | .interval => some 16
  | .alpExceptionFloat => some 8
  | .alpExceptionDouble => some 12
  | .any | .pointer => none

/-- `StorageValue`: a union whose members all start at its lowest byte. -/
abbrev StorageValue := BitVec 128

/-- The values of a column chunk as the codecs see them. -/
structure ChunkStatistics where
  min : StorageValue
  max : StorageValue
  compression : CompressionType

structure ALPMetadata where
  exp : Nat
  fac : Nat

/-- `CompressionMetadata`. The last two members are used for `ALP` only. -/
structure CompressionMetadata extends ChunkStatistics where
  floatMetadata : ALPMetadata
  /-- `getChild(BITPACKING_CHILD_IDX)`. -/
  bitpackingChild : ChunkStatistics

/-- The operations on floating-point numbers, which are given by their bits. -/
structure FloatOps where
  /-- The conversion to `float`. -/
  toFloat : BitVec 64 → BitVec 32
  /-- `AlpDecode<double>::decode_value`. -/
  decodeDouble : BitVec 64 → Nat → Nat → BitVec 64
  /-- `AlpDecode<float>::decode_value`. -/
  decodeFloat : BitVec 32 → Nat → Nat → BitVec 32

inductive Element where
  | bool (value : Bool)
  | bits (width : Nat) (value : BitVec width)
deriving DecidableEq

/-- What is read: the page, the position of the first value in it, the position of the first value in
the result, and the number of values. Both positions have 32 bits. -/
structure PageRead where
  frame : Words 8
  elemPosInPage : Nat
  posInResult : Nat
  numValuesToRead : Nat
  elemPosInPage_le : elemPosInPage + numValuesToRead ≤ 2 ^ 32
  posInResult_le : posInResult + numValuesToRead ≤ 2 ^ 32

/-! ## Codecs -/

/-- `StorageValue::get` of an integer. -/
def StorageValue.get (t : IntegerType) (value : StorageValue) : t.Value := value.setWidth t.bits

/-- `StorageValue::get` of a boolean. -/
def StorageValue.getBool (value : StorageValue) : Bool := value.setWidth 64 != 0#64

/-- `IntegerBitpacking<T>::decompressFromPage`. -/
def IntegerType.readBitpacked (t : IntegerType) (metadata : ChunkStatistics) (read : PageRead) :
    Option (List Element) := do
  let info ← t.getPackingInfo (metadata.min.get t) (metadata.max.get t)
  let values ← info.decompressFromPage (read.frame.regroup t.compressedBits) read.elemPosInPage
    read.numValuesToRead
  return values.map (Element.bits t.bits)

namespace ConstantCompression

/-- The value that `decompressValues` fills in. -/
def constantValue (floats : FloatOps) (physicalType : PhysicalTypeID) (min : StorageValue) :
    Option Element :=
  match physicalType with
  | .internalId => some (.bits 64 (min.setWidth 64))
  | .int8 => some (.bits _ (min.get .int8))
  | .uint8 => some (.bits _ (min.get .uint8))
  | .int16 => some (.bits _ (min.get .int16))
  | .uint16 => some (.bits _ (min.get .uint16))
  | .int32 => some (.bits _ (min.get .int32))
  | .uint32 => some (.bits _ (min.get .uint32))
  | .int64 => some (.bits _ (min.get .int64))
  | .uint64 => some (.bits _ (min.get .uint64))
  | .int128 => some (.bits _ (min.get .int128))
  | .bool => some (.bool min.getBool)
  | .double => some (.bits 64 (min.setWidth 64))
  | .float => some (.bits 32 (floats.toFloat (min.setWidth 64)))
  | _ => none

/-- `decompressFromPage`. -/
def decompressFromPage (floats : FloatOps) (physicalType : PhysicalTypeID) (metadata : ChunkStatistics)
    (numValues : Nat) : Option (List Element) :=
  (constantValue floats physicalType metadata.min).map (replicate numValues)

/-- The bits of a buffer that hold booleans. -/
def boolsAt (buffer : Entries) (pos numValues : Nat) : List Element :=
  (range numValues).map fun i => .bool (buffer.bit (pos + i))

/-- `copyFromPage`, with the values that are in the buffer after it. -/
def copyFromPage (floats : FloatOps) (physicalType : PhysicalTypeID) (metadata : ChunkStatistics)
    (buffer : Entries) (dstOffset numValues : Nat) : Option (List Element) :=
  if physicalType = .bool then
    some (boolsAt (setNullRange buffer dstOffset numValues metadata.min.getBool) dstOffset
      numValues)
  else decompressFromPage floats physicalType metadata numValues

end ConstantCompression

/-- `Uncompressed::decompressFromPage`. -/
def Uncompressed.decompressFromPage (physicalType : PhysicalTypeID) (read : PageRead) :
    Option (List Element) :=
  (getDataTypeSizeInChunk physicalType).map fun numBytesPerValue =>
    (range read.numValuesToRead).map fun i =>
      .bits (numBytesPerValue * 8)
        (read.frame.field (numBytesPerValue * 8) ((read.elemPosInPage + i) * (numBytesPerValue * 8))
          (numBytesPerValue * 8))

namespace BooleanBitpacking

/-- `decompressFromPage`. -/
def decompressFromPage (read : PageRead) : List Element :=
  (range read.numValuesToRead).map fun i =>
    .bool (isNull (read.frame.regroup 64) (read.elemPosInPage + i))

/-- `copyFromPage`, with the values that are in the buffer after it. -/
def copyFromPage (read : PageRead) (buffer : Entries) : List Element :=
  ConstantCompression.boolsAt
    (copyNullMask (read.frame.regroup 64) read.elemPosInPage buffer read.posInResult
      read.numValuesToRead false).1
    read.posInResult read.numValuesToRead

end BooleanBitpacking

namespace FloatCompression

/-- Decodes an integer of type `T`. -/
def decodeElement {t : IntegerType} (decode : t.Value → t.Value) : Element → Element
  | .bits _ value => .bits t.bits (decode (value.setWidth t.bits))
  | .bool value => .bool value

/-- `decompressFromPage` with the encoded type `T`, whose values are decoded in place. -/
def decompressFromPage (floats : FloatOps) (t : IntegerType) (encodedType : PhysicalTypeID)
    (decode : t.Value → Nat → Nat → t.Value) (metadata : CompressionMetadata) (read : PageRead) :
    Option (List Element) :=
  let encoded :=
    if metadata.bitpackingChild.compression = .constant then
      ConstantCompression.decompressFromPage floats encodedType metadata.bitpackingChild
        read.numValuesToRead
    else t.readBitpacked metadata.bitpackingChild read
  encoded.map <| map <|
    decodeElement fun x => decode x metadata.floatMetadata.fac metadata.floatMetadata.exp

/-- The switch for `ALP`, which is the same in both tables. -/
def read (floats : FloatOps) (physicalType : PhysicalTypeID) (metadata : CompressionMetadata)
    (read : PageRead) : Option (List Element) :=
  match physicalType with
  | .double => decompressFromPage floats .int64 .int64 floats.decodeDouble metadata read
  | .float => decompressFromPage floats .int32 .int32 floats.decodeFloat metadata read
  | _ => none

end FloatCompression

/-! ## Dispatch -/

namespace ReadCompressedValuesFromPageToVector

/-- The codec of each physical type for `INTEGER_BITPACKING`. -/
def integerType : PhysicalTypeID → Option IntegerType
  | .int128 => some .int128
  | .int64 => some .int64
  | .int32 => some .int32
  | .int16 => some .int16
  | .int8 => some .int8
  | .internalId | .uint64 => some .uint64
  | .uint32 => some .uint32
  | .uint16 => some .uint16
  | .uint8 => some .uint8
  | _ => none

/-- The values that are written to the vector. -/
def values (floats : FloatOps) (physicalType : PhysicalTypeID) (metadata : CompressionMetadata)
    (read : PageRead) : Option (List Element) :=
  match metadata.compression with
  | .constant =>
    ConstantCompression.decompressFromPage floats physicalType metadata.toChunkStatistics
      read.numValuesToRead
  | .uncompressed => Uncompressed.decompressFromPage physicalType read
  | .alp => FloatCompression.read floats physicalType metadata read
  | .integerBitpacking =>
    (integerType physicalType).bind fun t => t.readBitpacked metadata.toChunkStatistics read
  | .booleanBitpacking => some (BooleanBitpacking.decompressFromPage read)

end ReadCompressedValuesFromPageToVector

namespace ReadCompressedValuesFromPage

/-- The codec of each physical type for `INTEGER_BITPACKING`. -/
def integerType : PhysicalTypeID → Option IntegerType
  | .int128 => some .int128
  | .int64 => some .int64
  | .int32 => some .int32
  | .int16 => some .int16
  | .int8 => some .int8
  | .internalId | .uint64 => some .uint64
  | .uint32 => some .uint32
  | .uint16 => some .uint16
  | .uint8 => some .int8
  | _ => none

/-- The values that are in the buffer after the read. -/
def values (floats : FloatOps) (physicalType : PhysicalTypeID) (metadata : CompressionMetadata)
    (read : PageRead) (result : Entries) : Option (List Element) :=
  match metadata.compression with
  | .constant =>
    ConstantCompression.copyFromPage floats physicalType metadata.toChunkStatistics result
      read.posInResult read.numValuesToRead
  | .uncompressed => Uncompressed.decompressFromPage physicalType read
  | .alp => FloatCompression.read floats physicalType metadata read
  | .integerBitpacking =>
    (integerType physicalType).bind fun t => t.readBitpacked metadata.toChunkStatistics read
  | .booleanBitpacking => some (BooleanBitpacking.copyFromPage read result)

end ReadCompressedValuesFromPage

/-- Both paths read the same values, from every page and at every position. -/
def ReadsAgree (floats : FloatOps) (physicalType : PhysicalTypeID) (metadata : CompressionMetadata) :
    Prop :=
  ∀ (read : PageRead) (result : Entries),
    ReadCompressedValuesFromPage.values floats physicalType metadata read result =
      ReadCompressedValuesFromPageToVector.values floats physicalType metadata read

/-! ## Booleans -/

theorem boolsAt_eq {buffer buffer' : Entries} {pos n : Nat} {f : Nat → Bool} (h : SetsBits pos n f buffer buffer') :
    ConstantCompression.boolsAt buffer' pos n = (range n).map fun i => .bool (f i) :=
  map_congr_left fun i hi => by rw [h.bit_of_lt (mem_range.mp hi)]

theorem copyFromPage_constant_eq (floats : FloatOps) (physicalType : PhysicalTypeID)
    (metadata : ChunkStatistics) (buffer : Entries) (dstOffset n : Nat) :
    ConstantCompression.copyFromPage floats physicalType metadata buffer dstOffset n =
      ConstantCompression.decompressFromPage floats physicalType metadata n := by
  rw [ConstantCompression.copyFromPage]
  split
  · rename_i hbool
    subst hbool
    rw [boolsAt_eq (setsBits_setNullRange buffer dstOffset n metadata.min.getBool), map_const', length_range]
    rfl
  · rfl

theorem copyFromPage_boolean_eq (read : PageRead) (buffer : Entries) :
    BooleanBitpacking.copyFromPage read buffer = BooleanBitpacking.decompressFromPage read := by
  have hsrc := read.elemPosInPage_le
  rw [BooleanBitpacking.copyFromPage, boolsAt_eq
    (setsBits_copyNullMask _ buffer false read.elemPosInPage_le read.posInResult_le)]
  refine map_congr_left fun i hi => ?_
  have hlt := mem_range.mp hi
  rw [Bool.xor_false, isNull_eq_bit _ (by omega)]

theorem readsAgree_of_ne (floats : FloatOps) {physicalType : PhysicalTypeID}
    {metadata : CompressionMetadata}
    (h : ¬ (metadata.compression = .integerBitpacking ∧ physicalType = .uint8)) :
    ReadsAgree floats physicalType metadata := by
  intro read result
  rw [ReadCompressedValuesFromPage.values, ReadCompressedValuesFromPageToVector.values]
  cases hc : metadata.compression with
  | constant => exact copyFromPage_constant_eq ..
  | uncompressed => rfl
  | alp => rfl
  | booleanBitpacking => exact congrArg some (copyFromPage_boolean_eq read result)
  | integerBitpacking =>
    have hne : physicalType ≠ .uint8 := fun heq => h ⟨hc, heq⟩
    have heq : ReadCompressedValuesFromPage.integerType physicalType =
        ReadCompressedValuesFromPageToVector.integerType physicalType := by
      cases physicalType <;> first | rfl | exact absurd rfl hne
    simp [heq]

/-! ## Packing info of the narrow types -/

namespace IntegerType

variable {t : IntegerType}

/-- The absolute value of a type whose arithmetic wraps around. -/
def wrappingAbs (t : IntegerType) (x : t.Value) : t.Value :=
  if t.signed = false ∨ 0 ≤ t.toInt x then x else -x

theorem abs_eq (ht : t ≠ int128) (x : t.Value) : t.abs x = some (t.wrappingAbs x) := by
  rw [abs, wrappingAbs]
  split
  · rfl
  · rw [if_neg fun h => ht h.1]

theorem sub_eq (ht : t ≠ int128) (x y : t.Value) : t.sub x y = some (x - y) := by
  rw [sub, if_neg fun h => ht h.1]

theorem add_eq (ht : t ≠ int128) (x y : t.Value) : t.add x y = some (x + y) := by
  rw [add, if_neg fun h => ht h.1]

/-- The packing info without a frame of reference. -/
def plainInfo (t : IntegerType) (min max : t.Value) : BitpackInfo t :=
  let width := t.bitWidth (t.max (t.wrappingAbs min) (t.wrappingAbs max))
  if t.lt min 0 then ⟨width + 1, true, 0⟩ else ⟨width, false, 0⟩

theorem plainInfo_of_neg {min max : t.Value} (h : t.lt min 0) : t.plainInfo min max =
      ⟨t.bitWidth (t.max (t.wrappingAbs min) (t.wrappingAbs max)) + 1, true, 0⟩ := by
  rw [plainInfo, if_pos h]

theorem plainInfo_of_nonneg {min max : t.Value} (h : ¬ t.lt min 0) :
    t.plainInfo min max = ⟨t.bitWidth (t.max (t.wrappingAbs min) (t.wrappingAbs max)), false, 0⟩ := by
  rw [plainInfo, if_neg h]

theorem getPackingInfo_eq (ht : t ≠ int128) (min max : t.Value) : t.getPackingInfo min max =
      some (if t.lt 0 min ∧ t.lt 0 max ∧ t.bitWidth (max - min) < t.bitWidth max then
        ⟨t.bitWidth (max - min), false, min⟩
      else if t.lt min 0 ∧ t.lt max 0 ∧ t.bitWidth (min - max) < t.bitWidth max then
        ⟨t.bitWidth (min - max) + 1, true, max⟩
      else t.plainInfo min max) := by
  have hplain : (do
      let absMin ← t.abs min
      let absMax ← t.abs max
      if t.lt min 0 then
        return ⟨t.bitWidth (t.max absMin absMax) + 1, true, 0⟩
      else
        return ⟨t.bitWidth (t.max absMin absMax), false, 0⟩ : Option (BitpackInfo t)) =
      some (t.plainInfo min max) := by
    rw [abs_eq ht, abs_eq ht, plainInfo]
    split <;> rfl
  have hasymm : ∀ x : t.Value, t.lt 0 x → ¬ t.lt x 0 := fun x h h' => by
    unfold lt at h h'
    omega
  rw [getPackingInfo, hplain, frameRange, sub_eq ht, sub_eq ht]
  by_cases hpos : t.lt 0 min ∧ t.lt 0 max
  · have hneg : ¬ (t.lt min 0) := hasymm min hpos.1
    simp only [hpos, hneg, true_and, if_true, bind_eq_bind, bind_some]
    split <;> rfl
  · have hpos' : ¬ (t.lt 0 min ∧ t.lt 0 max ∧ t.bitWidth (max - min) < t.bitWidth max) :=
      fun h => hpos ⟨h.1, h.2.1⟩
    rw [if_neg hpos']
    by_cases hneg : t.lt min 0 ∧ t.lt max 0
    · simp only [hpos, hneg, true_and, if_true, bind_eq_bind, bind_some, false_and, if_false]
      split <;> rfl
    · have hneg' : ¬ (t.lt min 0 ∧ t.lt max 0 ∧ t.bitWidth (min - max) < t.bitWidth max) :=
        fun h => hneg ⟨h.1, h.2.1⟩
      simp only [hpos, hneg, hneg', bind_eq_bind, bind_some, false_and, if_false]

/-! ## Bytes -/

theorem uint8_lt (x y : BitVec 8) : uint8.lt x y ↔ x.toNat < y.toNat := Int.ofNat_lt

theorem int8_toInt (x : BitVec 8) : int8.toInt x = if x.toNat < 128 then (x.toNat : Int) else x.toNat - 256 := by
  refine (BitVec.toInt_eq_toNat_cond x).trans ?_
  split <;> split <;> omega

theorem int8_lt (x y : BitVec 8) : int8.lt x y ↔ (if x.toNat < 128 then (x.toNat : Int) else x.toNat - 256) <
      if y.toNat < 128 then (y.toNat : Int) else y.toNat - 256 := by
  rw [← int8_toInt, ← int8_toInt]
  rfl

theorem toNat_byte_sub (x y : BitVec 8) :
    (x - y).toNat = if y.toNat ≤ x.toNat then x.toNat - y.toNat else 256 + x.toNat - y.toNat := by
  rw [BitVec.toNat_sub]
  split <;> omega

variable {min max : BitVec 8}

theorem int8_lt_zero (x : BitVec 8) : int8.lt x 0 ↔ 128 ≤ x.toNat := by
  refine (int8_lt x 0#8).trans ?_
  simp only [BitVec.toNat_zero]
  split <;> omega

theorem int8_zero_lt (x : BitVec 8) : int8.lt 0 x ↔ 0 < x.toNat ∧ x.toNat < 128 := by
  refine (int8_lt 0#8 x).trans ?_
  simp only [BitVec.toNat_zero]
  split <;> omega

theorem uint8_frame (hmin : 0 < min.toNat) (hmax : 0 < max.toNat) (hsaves : (max - min).toNat.size < max.toNat.size) :
    uint8.getPackingInfo min max = some ⟨(max - min).toNat.size, false, min⟩ :=
  (getPackingInfo_eq (t := uint8) (by decide) min max).trans <|
    congrArg some (if_pos ⟨(uint8_lt 0 min).mpr hmin, (uint8_lt 0 max).mpr hmax, hsaves⟩)

theorem uint8_plain (h : ¬ (0 < min.toNat ∧ 0 < max.toNat ∧ (max - min).toNat.size < max.toNat.size)) :
    uint8.getPackingInfo min max = some ⟨(Max.max min.toNat max.toNat).size, false, 0⟩ := by
  have hlt (x : BitVec 8) : ¬ uint8.lt x 0 := fun h => Nat.not_lt_zero _ ((uint8_lt x 0).mp h)
  have hpos : ¬ (uint8.lt 0 min ∧ uint8.lt 0 max ∧ uint8.bitWidth (max - min) < uint8.bitWidth max) :=
    fun hpos => h ⟨(uint8_lt 0 min).mp hpos.1, (uint8_lt 0 max).mp hpos.2.1, hpos.2.2⟩
  have hmax : (uint8.max min max).toNat = Max.max min.toNat max.toNat := by
    by_cases hle : uint8.lt min max
    · exact (congrArg BitVec.toNat (if_pos hle)).trans (Nat.max_eq_right (((uint8_lt min max).mp hle).le)).symm
    · exact (congrArg BitVec.toNat (if_neg hle)).trans
        (Nat.max_eq_left (Nat.le_of_not_lt (mt (uint8_lt min max).mpr hle))).symm
  have hplain : uint8.plainInfo min max = ⟨(uint8.max min max).toNat.size, false, 0⟩ :=
    plainInfo_of_nonneg (t := uint8) (hlt min)
  rw [hmax] at hplain
  exact (getPackingInfo_eq (t := uint8) (by decide) min max).trans <| congrArg some <|
    (if_neg hpos).trans ((if_neg fun hneg => hlt min hneg.1).trans hplain)

theorem int8_frame (hmin : 0 < min.toNat ∧ min.toNat < 128) (hmax : 0 < max.toNat ∧ max.toNat < 128)
    (hsaves : (max - min).toNat.size < max.toNat.size) :
    int8.getPackingInfo min max = some ⟨(max - min).toNat.size, false, min⟩ :=
  (getPackingInfo_eq (t := int8) (by decide) min max).trans <|
    congrArg some (if_pos ⟨(int8_zero_lt min).mpr hmin, (int8_zero_lt max).mpr hmax, hsaves⟩)

theorem int8_frame_of_neg (hmin : 128 ≤ min.toNat) (hmax : 128 ≤ max.toNat)
    (hsaves : (min - max).toNat.size < max.toNat.size) :
    int8.getPackingInfo min max = some ⟨(min - max).toNat.size + 1, true, max⟩ := by
  have hpos : ¬ (int8.lt 0 min ∧ int8.lt 0 max ∧ int8.bitWidth (max - min) < int8.bitWidth max) :=
    fun hpos => by
      have := (int8_zero_lt min).mp hpos.1
      omega
  exact (getPackingInfo_eq (t := int8) (by decide) min max).trans <| congrArg some <|
    (if_neg hpos).trans (if_pos ⟨(int8_lt_zero min).mpr hmin, (int8_lt_zero max).mpr hmax, hsaves⟩)

/-- The absolute value of a byte. The one of -128 is 128, which `std::max` takes for -128. -/
def byteAbs (x : Nat) : Nat := if x < 128 then x else 256 - x

theorem toNat_wrappingAbs (x : BitVec 8) : (int8.wrappingAbs x).toNat = byteAbs x.toNat := by
  have hsign := int8_toInt x
  rw [byteAbs]
  by_cases hneg : x.toNat < 128
  · rw [if_pos hneg] at hsign ⊢
    exact congrArg BitVec.toNat (if_pos (.inr (by omega)))
  · rw [if_neg hneg] at hsign ⊢
    have habs : int8.wrappingAbs x = -x := if_neg fun h => h.elim (fun h => absurd h (by decide)) (by omega)
    refine (congrArg BitVec.toNat habs).trans ((BitVec.toNat_neg x).trans ?_)
    omega

/-- The larger absolute value of two bytes. -/
def byteMagnitude (x y : Nat) : Nat :=
  if byteAbs x = 128 ∨ (byteAbs x < byteAbs y ∧ byteAbs y < 128) then byteAbs y else byteAbs x

variable {x : Nat}

theorem byteAbs_of_lt (hx : x < 128) : byteAbs x = x := if_pos hx

theorem byteAbs_of_ge (hx : 128 ≤ x) : byteAbs x = 256 - x := if_neg (not_lt.mpr hx)

theorem byteAbs_le (hx : x < 256) : byteAbs x ≤ 128 := by
  rw [byteAbs]
  split <;> omega

theorem toNat_int8_max {x y : BitVec 8} {a b : Nat} (hx : x.toNat = byteAbs a) (hy : y.toNat = byteAbs b)
    (ha : byteAbs a ≤ 128) (hb : byteAbs b ≤ 128) : (int8.max x y).toNat = byteMagnitude a b := by
  have hlt := int8_lt x y
  rw [byteMagnitude, ← hx, ← hy]
  by_cases h : int8.lt x y
  · refine (congrArg BitVec.toNat (if_pos h)).trans ?_
    change y.toNat = _
    have := hlt.mp h
    rw [if_pos]
    split at this <;> split at this <;> omega
  · refine (congrArg BitVec.toNat (if_neg h)).trans ?_
    change x.toNat = _
    have := mt hlt.mpr h
    split
    · split at this <;> split at this <;> omega
    · rfl

theorem int8_plain (hpos : ¬ (0 < min.toNat ∧ min.toNat < 128 ∧ 0 < max.toNat ∧ max.toNat < 128 ∧
      (max - min).toNat.size < max.toNat.size))
    (hneg : ¬ (128 ≤ min.toNat ∧ 128 ≤ max.toNat ∧ (min - max).toNat.size < max.toNat.size)) :
    int8.getPackingInfo min max =
      some (if 128 ≤ min.toNat then ⟨(byteMagnitude min.toNat max.toNat).size + 1, true, 0⟩
        else ⟨(byteMagnitude min.toNat max.toNat).size, false, 0⟩) := by
  have hpos' : ¬ (int8.lt 0 min ∧ int8.lt 0 max ∧ int8.bitWidth (max - min) < int8.bitWidth max) :=
    fun h => hpos ⟨((int8_zero_lt min).mp h.1).1, ((int8_zero_lt min).mp h.1).2,
      ((int8_zero_lt max).mp h.2.1).1, ((int8_zero_lt max).mp h.2.1).2, h.2.2⟩
  have hneg' : ¬ (int8.lt min 0 ∧ int8.lt max 0 ∧ int8.bitWidth (min - max) < int8.bitWidth max) :=
    fun h => hneg ⟨(int8_lt_zero min).mp h.1, (int8_lt_zero max).mp h.2.1, h.2.2⟩
  have hmax : (int8.max (int8.wrappingAbs min) (int8.wrappingAbs max)).toNat = byteMagnitude min.toNat max.toNat := by
    exact toNat_int8_max (toNat_wrappingAbs min) (toNat_wrappingAbs max) (byteAbs_le min.isLt) (byteAbs_le max.isLt)
  have hplain : int8.plainInfo min max = if 128 ≤ min.toNat then
        ⟨(int8.max (int8.wrappingAbs min) (int8.wrappingAbs max)).toNat.size + 1, true, 0⟩
      else ⟨(int8.max (int8.wrappingAbs min) (int8.wrappingAbs max)).toNat.size, false, 0⟩ := by
    by_cases h : 128 ≤ min.toNat
    · rw [if_pos h]
      exact plainInfo_of_neg (t := int8) ((int8_lt_zero min).mpr h)
    · rw [if_neg h]
      exact plainInfo_of_nonneg (t := int8) (mt (int8_lt_zero min).mp h)
  rw [hmax] at hplain
  exact (getPackingInfo_eq (t := int8) (by decide) min max).trans <| congrArg some <|
    (if_neg hpos').trans ((if_neg hneg').trans hplain)

end IntegerType

/-! ## Reads of bytes -/

namespace BitpackInfo

variable {t : IntegerType}

theorem decode_zero (ht : t ≠ .int128) (info : BitpackInfo t) : info.decode 0 = some info.offset := by
  have hextend : signExtend (t := t) info.bitWidth 0 = some 0 := by
    rw [signExtend, IntegerType.sub_eq ht]
    simp
  rw [decode, hextend, ite_self]
  dsimp only [bind_eq_bind, bind_some]
  split
  · rw [IntegerType.add_eq ht]
    simp
  · rename_i h
    rw [not_not.mp h]

end BitpackInfo

open IntegerType

variable {metadata : ChunkStatistics}

theorem IntegerType.readBitpacked_eq {t : IntegerType} {info : BitpackInfo t}
    (hinfo : t.getPackingInfo (metadata.min.get t) (metadata.max.get t) = some info)
    (hw : t.Unpacks info.bitWidth) (read : PageRead) :
    t.readBitpacked metadata read = (range' read.elemPosInPage read.numValuesToRead).mapM
        fun i => (info.readValue (read.frame.regroup t.compressedBits) i).map (Element.bits t.bits) := by
  rw [readBitpacked, hinfo]
  dsimp only [bind_eq_bind, bind_some]
  rw [decompressFromPage_eq hw]
  generalize range' read.elemPosInPage read.numValuesToRead = l
  induction l with
  | nil => rfl
  | cons i l ih =>
    rw [mapM_cons, mapM_cons, ← ih]
    cases info.readValue (read.frame.regroup t.compressedBits) i with
    | none => rfl
    | some v => cases mapM (info.readValue (read.frame.regroup t.compressedBits)) l <;> rfl

/-- One value of a page whose bytes are all `x`. -/
def byteRead (x : BitVec 8) : PageRead where
  frame := fun _ => x
  elemPosInPage := 0
  posInResult := 0
  numValuesToRead := 1
  elemPosInPage_le := by decide
  posInResult_le := by decide

theorem field_byteRead (x : BitVec 8) (w : Nat) :
    ((byteRead x).frame.regroup 8).field 8 (0 * w) w = (x.setWidth w).setWidth 8 := by
  refine BitVec.eq_of_getLsbD_eq fun k hk => ?_
  rw [Words.getLsbD_field, Words.bit_regroup (by decide), BitVec.getLsbD_setWidth,
    BitVec.getLsbD_setWidth, Words.bit, zero_mul, zero_add, Nat.mod_eq_of_lt hk]
  rfl

namespace ChunkStatistics

def minByte (metadata : ChunkStatistics) : BitVec 8 := metadata.min.setWidth 8

def maxByte (metadata : ChunkStatistics) : BitVec 8 := metadata.max.setWidth 8

end ChunkStatistics

/-- Both byte codecs read the same values. -/
def BytesAgree (metadata : ChunkStatistics) : Prop :=
  ∀ read, int8.readBitpacked metadata read = uint8.readBitpacked metadata read

theorem unpacks_of_le {w : Nat} (hw : w ≤ 8) : int8.Unpacks w ∧ uint8.Unpacks w := by
  rcases Nat.lt_or_eq_of_le hw with hlt | rfl
  · exact ⟨.inl hlt, .inl hlt⟩
  · exact ⟨.inr ⟨by decide, rfl⟩, .inr ⟨by decide, rfl⟩⟩

/-- The statistics of bitpacked `UINT8` values that both codecs read alike. In the second case the
minimum is above the maximum, and every byte is stored as it is. -/
def ByteRangesAgree (min max : Nat) : Prop :=
  min < 128 ∧ max < 128 ∨ 128 ≤ min ∧ max < 128 ∧ 64 ≤ byteMagnitude min max

instance (min max : Nat) : Decidable (ByteRangesAgree min max) :=
  inferInstanceAs (Decidable (_ ∨ _))

theorem decode_of_nonneg (w : Nat) (o x : BitVec 8) :
    decode (t := .int8) ⟨w, false, o⟩ x = decode (t := .uint8) ⟨w, false, o⟩ x :=
  rfl

theorem decode_plainByte (x : BitVec 8) :
    decode (t := .int8) ⟨8, true, 0⟩ x = decode (t := .uint8) ⟨8, false, 0⟩ x := by
  have hextend : ∀ x : BitVec 8, ((x &&& BitVec.allOnes 8) ^^^ 128#8) - 128#8 = x := by decide
  exact congrArg some (hextend x)

/-- A single bit that is set stands for -1. -/
theorem decode_oneBit {o : BitVec 8} (ho : o ≠ 0) : decode (t := .int8) ⟨1, true, o⟩ 1#8 = some (255#8 + o) := by
  have hextend : signExtend (t := .int8) 1 1#8 = some 255#8 := rfl
  refine (congrArg (fun out : Option (BitVec 8) => out.bind fun out =>
    if o ≠ 0 then int8.add out o else some out) hextend).trans ?_
  exact if_pos ho

/-- A byte above 127 is only unpacked with 8 bits. -/
theorem setWidth_high {w : Nat} (hw : w ≤ 7) : ((128#8).setWidth w).setWidth 8 = 0#8 := by
  revert w
  decide

variable {n : Nat}

theorem size_le_of_lt_256 (h : n < 256) : n.size ≤ 8 := Nat.size_le.mpr h

theorem size_le_of_lt_128 (h : n < 128) : n.size ≤ 7 := Nat.size_le.mpr h

theorem size_of_ge_128 (h : 128 ≤ n) (h' : n < 256) : n.size = 8 :=
  le_antisymm (size_le_of_lt_256 h') (Nat.lt_size.mpr h)

/-! ## The values for which the codecs agree -/

section Bytes

variable {min max : BitVec 8} {w w' : Nat} {neg neg' : Bool} {o o' : BitVec 8}
  (hlo : metadata.minByte = min) (hhi : metadata.maxByte = max)

section Decoders

variable (hinfo : int8.getPackingInfo min max = some ⟨w, neg, o⟩)

include hlo hhi hinfo

/-- Equal widths and decoders read the same values. -/
theorem bytesAgree_of_decode (hw : w ≤ 8) (hinfo' : uint8.getPackingInfo min max = some ⟨w, neg', o'⟩)
    (hdecode : ∀ x : BitVec 8, decode (t := .int8) ⟨w, neg, o⟩ x =
      decode (t := .uint8) ⟨w, neg', o'⟩ x) : BytesAgree metadata := by
  subst hlo hhi
  intro read
  refine (readBitpacked_eq hinfo (unpacks_of_le hw).1 read).trans ?_
  refine Eq.trans ?_ (readBitpacked_eq hinfo' (unpacks_of_le hw).2 read).symm
  refine mapM_congr fun i _ => ?_
  exact congrArg (fun v : Option (BitVec 8) => v.map (Element.bits 8)) (hdecode _)

section
variable (hw : w ≤ 8) (hinfo' : uint8.getPackingInfo min max = some ⟨w', neg', o'⟩) (hw' : w' ≤ 8)
  (h : BytesAgree metadata)
include hw hinfo' hw' h

/-- Where the values agree, the decoders agree on the low bits of every byte. -/
theorem decode_eq_of_bytesAgree (x : BitVec 8) : decode (t := .int8) ⟨w, neg, o⟩ ((x.setWidth w).setWidth 8) =
      decode (t := .uint8) ⟨w', neg', o'⟩ ((x.setWidth w').setWidth 8) := by
  subst hlo hhi
  have hread := h (byteRead x)
  rw [readBitpacked_eq hinfo (unpacks_of_le hw).1, readBitpacked_eq hinfo' (unpacks_of_le hw').2] at hread
  have hone (t : IntegerType) (info : BitpackInfo t) :
      (range' (byteRead x).elemPosInPage (byteRead x).numValuesToRead).mapM
        (fun i => (info.readValue ((byteRead x).frame.regroup t.compressedBits) i).map (Element.bits t.bits)) =
      (info.readValue ((byteRead x).frame.regroup t.compressedBits) 0).map fun v => [Element.bits t.bits v] := by
    change mapM _ [0] = _
    rw [mapM_cons]
    cases info.readValue ((byteRead x).frame.regroup t.compressedBits) 0 <;> rfl
  rw [hone, hone] at hread
  have hinj : Function.Injective (fun v : BitVec 8 => [Element.bits 8 v]) := fun v v' heq => by
    injection heq with heq
    injection heq
  have hvalue := map_injective hinj hread
  rw [← field_byteRead, ← field_byteRead]
  exact hvalue

/-- Codecs with different offsets differ on a page of zeros. -/
theorem offset_eq_of_bytesAgree : o = o' := by
  have hzero := decode_eq_of_bytesAgree hlo hhi hinfo hw hinfo' hw' h 0
  have hlow (w : Nat) : ((0 : BitVec 8).setWidth w).setWidth 8 = 0 := by simp
  rw [hlow, hlow] at hzero
  exact some.inj <| (decode_zero (t := .int8) (by decide) _).symm.trans <|
    hzero.trans (decode_zero (t := .uint8) (by decide) _)

end

/-- A codec of fewer bits loses the highest bit of a byte. -/
theorem not_bytesAgree_of_plain (hw : w ≤ 7)
    (hinfo' : uint8.getPackingInfo min max = some ⟨8, false, 0⟩) : ¬ BytesAgree metadata := by
  intro h
  have hhigh := decode_eq_of_bytesAgree hlo hhi hinfo (by omega) hinfo' le_rfl h 128#8
  rw [setWidth_high hw] at hhigh
  have hzero : o = 0#8 := offset_eq_of_bytesAgree hlo hhi hinfo (by omega) hinfo' le_rfl h
  have hvalue := (decode_zero (t := .int8) (by decide) ⟨w, neg, o⟩).symm.trans hhigh
  have hbit : o = 128#8 := some.inj hvalue
  rw [hzero] at hbit
  exact absurd hbit (by decide)

end Decoders

include hlo hhi

/-- Bytes below 128 are read alike. -/
theorem bytesAgree_of_lt (hmin : min.toNat < 128) (hmax : max.toNat < 128) : BytesAgree metadata := by
  by_cases hframe : 0 < min.toNat ∧ 0 < max.toNat ∧ (max - min).toNat.size < max.toNat.size
  · obtain ⟨hmin', hmax', hsaves⟩ := hframe
    exact bytesAgree_of_decode hlo hhi (int8_frame ⟨hmin', hmin⟩ ⟨hmax', hmax⟩ hsaves)
      (size_le_of_lt_256 (BitVec.isLt _)) (uint8_frame hmin' hmax' hsaves) (decode_of_nonneg _ _)
  · have hinfo := int8_plain (fun h => hframe ⟨h.1, h.2.2.1, h.2.2.2.2⟩) fun h => by omega
    rw [if_neg (by omega)] at hinfo
    have hmagnitude : byteMagnitude min.toNat max.toNat = Max.max min.toNat max.toNat := by
      rw [byteMagnitude, byteAbs_of_lt hmin, byteAbs_of_lt hmax]
      split <;> omega
    rw [hmagnitude] at hinfo
    exact bytesAgree_of_decode hlo hhi hinfo (size_le_of_lt_256 (by omega)) (uint8_plain hframe)
      (decode_of_nonneg _ _)

/-- Where only the maximum is above 127, some byte is read in two ways. -/
theorem not_bytesAgree_of_max (hmin : min.toNat < 128) (hmax : 128 ≤ max.toNat) : ¬ BytesAgree metadata := by
  have hmaxLt : max.toNat < 256 := BitVec.isLt _
  have hinfo := @int8_plain min max (fun h => by omega) fun h => by omega
  rw [if_neg (by omega)] at hinfo
  have hw : (byteMagnitude min.toNat max.toNat).size ≤ 7 := by
    refine size_le_of_lt_128 ?_
    rw [byteMagnitude, byteAbs_of_lt hmin]
    split <;> omega
  by_cases hframe : 0 < min.toNat ∧ 0 < max.toNat ∧ (max - min).toNat.size < max.toNat.size
  · intro h
    have hzero : 0#8 = min := offset_eq_of_bytesAgree hlo hhi hinfo (by omega)
      (uint8_frame hframe.1 hframe.2.1 hframe.2.2) (size_le_of_lt_256 (BitVec.isLt _)) h
    rw [← hzero] at hframe
    exact absurd hframe.1 (by decide)
  · have hinfo' := uint8_plain hframe
    rw [Nat.max_eq_right (by omega), size_of_ge_128 hmax hmaxLt] at hinfo'
    exact not_bytesAgree_of_plain hlo hhi hinfo hw hinfo'

/-- Where all bytes are above 127, some byte is read in two ways. -/
theorem not_bytesAgree_of_min (hmin : 128 ≤ min.toNat) (hmax : 128 ≤ max.toNat) : ¬ BytesAgree metadata := by
  intro h
  have hmaxLt : max.toNat < 256 := BitVec.isLt _
  have hsize := size_of_ge_128 hmax hmaxLt
  have hrange := toNat_byte_sub max min
  have hrange' := toNat_byte_sub min max
  rcases lt_trichotomy min.toNat max.toNat with
    hlt | heq | hgt
  · -- only the unsigned codec subtracts the minimum
    rw [if_pos (by omega)] at hrange
    rw [if_neg (by omega)] at hrange'
    have hsaves : (max - min).toNat.size < max.toNat.size := by
      rw [hsize]
      exact Nat.lt_succ_of_le (size_le_of_lt_128 (by omega))
    have hinfo := @int8_plain min max (fun h => by omega) fun h => by
        have := size_of_ge_128 (show 128 ≤ (min - max).toNat by omega) (BitVec.isLt _)
        omega
    rw [if_pos hmin] at hinfo
    have hw : (byteMagnitude min.toNat max.toNat).size + 1 ≤ 8 := by
      refine Nat.succ_le_succ (size_le_of_lt_128 ?_)
      rw [byteMagnitude, byteAbs_of_ge hmin, byteAbs_of_ge hmax]
      split <;> omega
    have hinfo' := @uint8_frame min max (by omega) (by omega) hsaves
    have hoffset : 0#8 = min := offset_eq_of_bytesAgree hlo hhi hinfo hw hinfo' (size_le_of_lt_256 (BitVec.isLt _)) h
    rw [← hoffset] at hmin
    exact absurd hmin (by decide)
  · -- one value: the signed codec stores a bit for it
    have hne : max ≠ 0 := fun h => by
      rw [h] at hmax
      exact absurd hmax (by decide)
    have hzero : (min - max).toNat = 0 := by
      rw [hrange', if_pos (by omega)]
      omega
    have hzero' : (max - min).toNat = 0 := by
      rw [hrange, if_pos (by omega)]
      omega
    have hinfo := int8_frame_of_neg hmin hmax (by rw [hzero, hsize]; decide)
    have hinfo' := @uint8_frame min max (by omega) (by omega) (by rw [hzero', hsize]; decide)
    rw [hzero] at hinfo
    rw [hzero'] at hinfo'
    have hone := decode_eq_of_bytesAgree hlo hhi hinfo (by decide) hinfo' (by decide) h (BitVec.allOnes 8)
    have hvalue := (decode_oneBit hne).symm.trans <| hone.trans (decode_zero (t := .uint8) (by decide) _)
    have hsum : (255#8 + max).toNat = min.toNat := congrArg BitVec.toNat (some.inj hvalue)
    rw [BitVec.toNat_add, BitVec.toNat_ofNat] at hsum
    omega
  · -- only the signed codec subtracts the maximum
    rw [if_neg (by omega)] at hrange
    rw [if_pos (by omega)] at hrange'
    have hsaves : (min - max).toNat.size < max.toNat.size := by
      rw [hsize]
      exact Nat.lt_succ_of_le (size_le_of_lt_128 (by omega))
    have hinfo' := @uint8_plain min max fun h => by
      have := size_of_ge_128 (show 128 ≤ (max - min).toNat by omega) (BitVec.isLt _)
      omega
    have hw : (min - max).toNat.size + 1 ≤ 8 := by omega
    have hoffset : max = 0#8 := offset_eq_of_bytesAgree hlo hhi
      (int8_frame_of_neg hmin hmax hsaves) hw hinfo' (size_le_of_lt_256 (by omega)) h
    rw [hoffset] at hmax
    exact absurd hmax (by decide)

/-- Where the minimum is above the maximum, bytes are read alike if the signed codec stores all bits. -/
theorem bytesAgree_iff_of_gt (hmin : 128 ≤ min.toNat) (hmax : max.toNat < 128) :
    BytesAgree metadata ↔ 64 ≤ byteMagnitude min.toNat max.toNat := by
  have hminLt : min.toNat < 256 := BitVec.isLt _
  have hrange := toNat_byte_sub max min
  rw [if_neg (by omega)] at hrange
  have hinfo := @int8_plain min max (fun h => by omega) fun h => by omega
  rw [if_pos hmin] at hinfo
  have hinfo' := @uint8_plain min max fun h => by
    have hle : max.toNat.size ≤ (max - min).toNat.size := Nat.size_le_size (by omega)
    omega
  rw [Nat.max_eq_left (by omega), size_of_ge_128 hmin hminLt] at hinfo'
  have hlt : byteMagnitude min.toNat max.toNat < 128 := by
    rw [byteMagnitude, byteAbs_of_ge hmin, byteAbs_of_lt hmax]
    split <;> omega
  have hle := size_le_of_lt_128 hlt
  constructor
  · intro h
    by_contra hsmall
    have hw : (byteMagnitude min.toNat max.toNat).size ≤ 6 := Nat.size_le.mpr (by omega)
    exact not_bytesAgree_of_plain hlo hhi hinfo (by omega) hinfo' h
  · intro hge
    have hw : (byteMagnitude min.toNat max.toNat).size = 7 := le_antisymm hle (Nat.lt_size.mpr hge)
    rw [hw] at hinfo
    exact bytesAgree_of_decode hlo hhi hinfo le_rfl hinfo' decode_plainByte

end Bytes

theorem bytesAgree_iff (metadata : ChunkStatistics) :
    BytesAgree metadata ↔ ByteRangesAgree metadata.minByte.toNat metadata.maxByte.toNat := by
  by_cases hmin : metadata.minByte.toNat < 128 <;> by_cases hmax : metadata.maxByte.toNat < 128
  · exact iff_of_true (bytesAgree_of_lt rfl rfl hmin hmax) (.inl ⟨hmin, hmax⟩)
  · refine iff_of_false (not_bytesAgree_of_max rfl rfl hmin (by omega)) ?_
    rintro (h | h) <;> omega
  · rw [bytesAgree_iff_of_gt rfl rfl (by omega) hmax]
    exact ⟨fun h => .inr ⟨by omega, hmax, h⟩, fun h => h.elim (fun h => by omega) fun h => h.2.2⟩
  · refine iff_of_false (not_bytesAgree_of_min rfl rfl (by omega) (by omega)) ?_
    rintro (h | h) <;> omega

/-- Both paths read the same values exactly when the codecs of `UINT8` do, or are not used. -/
theorem readPaths_agree_iff (floats : FloatOps) (physicalType : PhysicalTypeID)
    (metadata : CompressionMetadata) :
    ReadsAgree floats physicalType metadata ↔
      (metadata.compression = .integerBitpacking → physicalType = .uint8 →
        ByteRangesAgree metadata.minByte.toNat metadata.maxByte.toNat) := by
  by_cases h : metadata.compression = .integerBitpacking ∧ physicalType = .uint8
  · obtain ⟨hc, rfl⟩ := h
    have hiff : ReadsAgree floats .uint8 metadata ↔ BytesAgree metadata.toChunkStatistics := by
      have hbuffer (read : PageRead) (result : Entries) :
          ReadCompressedValuesFromPage.values floats .uint8 metadata read result =
            int8.readBitpacked metadata.toChunkStatistics read := by
        rw [ReadCompressedValuesFromPage.values, hc]
        rfl
      have hvector (read : PageRead) :
          ReadCompressedValuesFromPageToVector.values floats .uint8 metadata read =
            uint8.readBitpacked metadata.toChunkStatistics read := by
        rw [ReadCompressedValuesFromPageToVector.values, hc]
        rfl
      constructor
      · intro hagree read
        rw [← hbuffer read fun _ => 0, ← hvector read]
        exact hagree read _
      · intro hagree read result
        rw [hbuffer, hvector]
        exact hagree read
    rw [hiff, bytesAgree_iff]
    exact ⟨fun hrange _ _ => hrange, fun hrange => hrange hc rfl⟩
  · exact iff_of_true (readsAgree_of_ne floats h) fun hc ht => absurd ⟨hc, ht⟩ h

/-- Values of 100 and 200. -/
def hundredToTwoHundred : CompressionMetadata where
  min := 100
  max := 200
  compression := .integerBitpacking
  floatMetadata := ⟨0, 0⟩
  bitpackingChild := ⟨0, 0, .uncompressed⟩

def noFloats : FloatOps := ⟨fun _ => 0, fun _ _ _ => 0, fun _ _ _ => 0⟩

/-- The value 100, which is stored as 0, is read as 0 into the buffer. -/
theorem hundred_read_as_zero :
    ReadCompressedValuesFromPageToVector.values noFloats .uint8 hundredToTwoHundred (byteRead 0) =
        some [.bits 8 100] ∧
      ReadCompressedValuesFromPage.values noFloats .uint8 hundredToTwoHundred (byteRead 0)
        (fun _ => 0) = some [.bits 8 0] :=
  ⟨by decide, by decide⟩

end CycleJoin
