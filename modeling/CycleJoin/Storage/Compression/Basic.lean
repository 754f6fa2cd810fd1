import CycleJoin.Lib.BitStrings

/-!
# Integer bitpacking

`IntegerBitpacking<T>` (`storage/compression/compression.cpp`) stores the values of a column chunk with
fewer bits than their type has. The number of bits and an offset are computed from the minimum and the
maximum of the values. A page is a string of words of the type that `BitpackingUtils` writes with
(`CompressedType`), and a byte pointer is a word index there: the code only uses word-aligned ones.

`none` is an overflow exception of `int128_t`.
-/

namespace CycleJoin

/-- The types `T` of `IntegerBitpacking<T>`. -/
inductive IntegerType where
  | int8 | int16 | int32 | int64 | int128 | uint8 | uint16 | uint32 | uint64
deriving DecidableEq, Repr

namespace IntegerType

/-- `sizeof(T) * 8`. -/
def bits : IntegerType → Nat
  | int8 | uint8 => 8
  | int16 | uint16 => 16
  | int32 | uint32 => 32
  | int64 | uint64 => 64
  | int128 => 128

def signed : IntegerType → Bool
  | int8 | int16 | int32 | int64 | int128 => true
  | uint8 | uint16 | uint32 | uint64 => false

/-- `sizeOfCompressedTypeBits`. -/
def compressedBits (t : IntegerType) : Nat := if 32 ≤ t.bits then 32 else 8

abbrev Value (t : IntegerType) := BitVec t.bits

abbrev Page (t : IntegerType) := Words t.compressedBits

variable (t : IntegerType)

/-- The number that a value stands for. -/
def toInt (x : t.Value) : Int := if t.signed then BitVec.toInt x else x.toNat

def lt (x y : t.Value) : Prop := t.toInt x < t.toInt y

instance (x y : t.Value) : Decidable (t.lt x y) := inferInstanceAs (Decidable (_ < _))

/-- `std::max`. -/
def max (x y : t.Value) : t.Value := if t.lt x y then y else x

/-- A difference. `Int128_t::subInPlace` rejects the minimum as a result, too. -/
def sub (x y : t.Value) : Option t.Value :=
  if t = int128 ∧ (t.toInt x - t.toInt y ≤ -2 ^ 127 ∨ 2 ^ 127 ≤ t.toInt x - t.toInt y) then none
  else some (x - y)

/-- A sum, as `Int128_t::addInPlace` has it for `int128_t`. -/
def add (x y : t.Value) : Option t.Value :=
  if t = int128 ∧ (t.toInt x + t.toInt y < -2 ^ 127 ∨ 2 ^ 127 ≤ t.toInt x + t.toInt y) then none
  else some (x + y)

/-- `abs<T>`. The absolute value of the minimum of a type does not fit: it is the minimum again, except
for `int128_t`, where `negateInPlace` throws. (For `int32_t` and `int64_t`, `std::abs` leaves it
undefined; two's complement negation is what it compiles to.) -/
def abs (x : t.Value) : Option t.Value :=
  if t.signed = false ∨ 0 ≤ t.toInt x then some x
  else if t = int128 ∧ x = BitVec.intMin t.bits then none
  else some (-x)

/-- `>>`, which is arithmetic for `int128_t`, its own unsigned type. -/
def shiftRight (x : t.Value) (n : Nat) : t.Value :=
  if t = int128 then x.sshiftRight n else x >>> n

/-- `all1sMaskForLeastSignificantBits`. For 128 bits of an `int128_t` the source shifts by 127 - 128, which is
undefined and taken as 0 here. -/
def all1sMask (numBits : Nat) : t.Value :=
  if t = int128 then t.shiftRight (~~~(1#t.bits <<< (t.bits - 1))) (t.bits - 1 - numBits)
  else if numBits = t.bits then BitVec.allOnes t.bits
  else 1#t.bits <<< numBits - 1#t.bits

/-- The word of a byte pointer. -/
def wordIdx (byteOffset : Nat) : Nat := byteOffset / (t.compressedBits / 8)

/-! ## BitpackingUtils -/

/-- `setValueForBitsMatchingMask<shiftRight>`. -/
def setValueForBitsMatchingMask (shiftsRight : Bool) (out : BitVec t.compressedBits)
    (unshiftedValue unshiftedMask : t.Value) (shift : Nat) : BitVec t.compressedBits :=
  let shifted (x : t.Value) : BitVec t.compressedBits :=
    (if shiftsRight then t.shiftRight x shift else x <<< shift).setWidth t.compressedBits
  let valueToSet := shifted (unshiftedValue &&& unshiftedMask)
  let mask := shifted unshiftedMask
  let bitsToSet := valueToSet &&& mask
  let bitsToClear := ~~~mask ||| valueToSet
  (out ||| bitsToSet) &&& bitsToClear

/-- `packSingleField`, for the words from `cursor` on. -/
def packSingleField (value : t.Value) (cursor shiftLeft : Nat) (mask : t.Value) :
    Nat → t.Page → t.Page
  | 0, out =>
    Function.update out cursor
      (t.setValueForBitsMatchingMask false (out cursor) value mask shiftLeft)
  | field + 1, out =>
    let out := packSingleField value cursor shiftLeft mask field out
    Function.update out (cursor + (field + 1))
      (t.setValueForBitsMatchingMask true (out (cursor + (field + 1))) value mask
        ((field + 1) * t.compressedBits - shiftLeft))

/-- The last of the words that hold `delta` bits after the first `shift` bits. -/
def compressedField (delta shift : Nat) : Nat :=
  if delta + shift ≤ t.compressedBits then 0
  else if delta + shift ≤ 2 * t.compressedBits then 1
  else if delta + shift ≤ 3 * t.compressedBits then 2
  else if delta + shift ≤ 4 * t.compressedBits then 3
  else 4

/-- `packSingle`, for the chunk at `cursor`. -/
def packSingle (src : t.Value) (dst : t.Page) (cursor bitWidth dstOffset : Nat) : t.Page :=
  let dstBufferOffset := dstOffset * bitWidth / t.compressedBits
  let shiftLeft := dstOffset * bitWidth % t.compressedBits
  t.packSingleField src (cursor + dstBufferOffset) shiftLeft (t.all1sMask bitWidth)
    (t.compressedField bitWidth shiftLeft) dst

/-- `unpackSingleField`, for the words from `cursor` on. -/
def unpackSingleField (src : t.Page) (cursor shiftRight : Nat) : Nat → t.Value
  | 0 => t.shiftRight ((src cursor).setWidth t.bits) shiftRight
  | field + 1 =>
    unpackSingleField src cursor shiftRight field |||
      ((src (cursor + (field + 1))).setWidth t.bits <<<
        ((field + 1) * t.compressedBits - shiftRight))

/-- `unpackSingle`, for the chunk at `cursor`. -/
def unpackSingle (src : t.Page) (cursor bitWidth srcOffset : Nat) : t.Value :=
  let srcBufferOffset := srcOffset * bitWidth / t.compressedBits
  let shiftRight := srcOffset * bitWidth % t.compressedBits
  t.unpackSingleField src (cursor + srcBufferOffset) shiftRight (t.compressedField bitWidth shiftRight) &&&
    t.all1sMask bitWidth

end IntegerType

/-- `IntegerBitpacking<T>::CHUNK_SIZE`. -/
def chunkSize : Nat := 32

/-- `KUZU_PAGE_SIZE`. -/
def pageSize : Nat := 4096

/-! ## Int128Packer -/

namespace Int128Packer

/-- Packs values of `numWords` words of 32 bits. -/
def packDelta (numWords : Nat) (src : Nat → BitVec 128) (cursor : Nat) (out : Words 32) : Words 32 :=
  (List.range chunkSize).foldl (fun out i =>
      (List.range numWords).foldl (fun out word =>
          Function.update out (cursor + (numWords * i + word))
            (((src i).sshiftRight (32 * word)).setWidth 32))
        out)
    out

def packDelta32 := packDelta 1

def packDelta64 := packDelta 2

def packDelta96 := packDelta 3

def packDelta128 := packDelta 4

def pack (src : Nat → BitVec 128) (out : Words 32) (cursor width : Nat) : Words 32 :=
  match width with
  | 0 => out
  | 32 => packDelta32 src cursor out
  | 64 => packDelta64 src cursor out
  | 96 => packDelta96 src cursor out
  | 128 => packDelta128 src cursor out
  | _ =>
    (List.range chunkSize).foldl
      (fun out oindex => IntegerType.int128.packSingle (src oindex) out cursor width oindex) out

/-- The value of the words from `cursor` on, without the lowest `shift` bits: its first word is
shifted as a word of 32 bits, the others are put above it. -/
def joinWords (src : Words 32) (cursor shift : Nat) : Nat → BitVec 128
  | 0 => (src cursor >>> shift).setWidth 128
  | word + 1 =>
    joinWords src cursor shift word |||
      ((src (cursor + (word + 1))).setWidth 128 <<< (32 * (word + 1) - shift))

/-- `unpackLast`. -/
def unpackLast (src : Words 32) (cursor delta : Nat) : BitVec 128 :=
  let shift := delta * 31 % 32
  if delta > 96 then joinWords src cursor shift 3
  else if delta > 64 then joinWords src cursor shift 2
  else if delta > 32 then joinWords src cursor shift 1
  else joinWords src cursor shift 0

/-- Unpacks values of `lastWord + 1` words of 32 bits. -/
def unpackDelta (lastWord : Nat) (src : Words 32) (cursor : Nat) : Nat → BitVec 128 :=
  fun i => joinWords src (cursor + (lastWord + 1) * i) 0 lastWord

def unpackDelta0 : Nat → BitVec 128 := fun _ => 0

def unpackDelta32 := unpackDelta 0

def unpackDelta64 := unpackDelta 1

def unpackDelta96 := unpackDelta 2

def unpackDelta128 := unpackDelta 3

def unpack (src : Words 32) (cursor width : Nat) : Nat → BitVec 128 :=
  match width with
  | 0 => unpackDelta0
  | 32 => unpackDelta32 src cursor
  | 64 => unpackDelta64 src cursor
  | 96 => unpackDelta96 src cursor
  | 128 => unpackDelta128 src cursor
  | _ => fun oindex =>
    if oindex < chunkSize - 1 then IntegerType.int128.unpackSingle src cursor width oindex
    else unpackLast src (cursor + (chunkSize - 1) * width / 32) width

end Int128Packer

/-! ## IntegerBitpacking -/

structure BitpackInfo (t : IntegerType) where
  bitWidth : Nat
  hasNegative : Bool
  offset : t.Value
deriving DecidableEq

inductive CompressionType where
  | uncompressed
  | integerBitpacking
  | booleanBitpacking
  | constant
  | alp
deriving DecidableEq, Repr

namespace IntegerType

variable (t : IntegerType)

/-- `numeric_utils::bitWidth`. -/
def bitWidth (x : t.Value) : Nat := x.toNat.size

/-- The difference that `getPackingInfo` computes when the values are all positive or all negative. -/
def frameRange (min max : t.Value) : Option t.Value :=
  if t.lt 0 min ∧ t.lt 0 max then t.sub max min
  else if t.lt min 0 ∧ t.lt max 0 then t.sub min max
  else some 0

/-- `getPackingInfo`. A frame of reference is used when the values are all positive or all negative,
and when it saves a bit. -/
def getPackingInfo (min max : t.Value) : Option (BitpackInfo t) := do
  let range ← t.frameRange min max
  if (t.lt 0 min ∧ t.lt 0 max) ∧ t.bitWidth range < t.bitWidth max then
    return ⟨t.bitWidth range, false, min⟩
  else if (t.lt min 0 ∧ t.lt max 0) ∧ t.bitWidth range < t.bitWidth max then
    return ⟨t.bitWidth range + 1, true, max⟩
  else
    let absMin ← t.abs min
    let absMax ← t.abs max
    if t.lt min 0 then
      return ⟨t.bitWidth (t.max absMin absMax) + 1, true, 0⟩
    else
      return ⟨t.bitWidth (t.max absMin absMax), false, 0⟩

/-- The compression that `GetBitpackingMetadata` chooses. -/
def getBitpackingMetadata (min max : t.Value) : Option CompressionType :=
  (t.getPackingInfo min max).map fun info =>
    if info.bitWidth ≥ t.bits then .uncompressed else .integerBitpacking

end IntegerType

namespace BitpackInfo

variable {t : IntegerType}

/-- `numValues` of a page. -/
def numValues (info : BitpackInfo t) : Nat :=
  if info.bitWidth = 0 then 2 ^ 64 - 1 else pageSize * 8 / info.bitWidth

/-- `fastpack` of one chunk. For the types of up to 64 bits it is the one of FastPFor, which puts value
`i` of the chunk in bits `[i * bitWidth, (i + 1) * bitWidth)`. -/
def fastpack : {t : IntegerType} → (Nat → t.Value) → t.Page → (cursor bitWidth : Nat) → t.Page
  | .int128, src, out, cursor, bitWidth => Int128Packer.pack src out cursor bitWidth
  | t, src, out, cursor, bitWidth => fun word =>
    if cursor ≤ word ∧ word < cursor + chunkSize * bitWidth / t.compressedBits then
      ofBits (fun b =>
        let k := (word - cursor) * t.compressedBits + b
        (src (k / bitWidth)).getLsbD (k % bitWidth)) t.compressedBits
    else out word

/-- `fastunpack` of one chunk, as FastPFor does it for the types of up to 64 bits. -/
def fastunpack : {t : IntegerType} → t.Page → (cursor bitWidth : Nat) → Nat → t.Value
  | .int128, src, cursor, bitWidth => Int128Packer.unpack src cursor bitWidth
  | t, src, cursor, bitWidth => fun i =>
    src.field t.bits (cursor * t.compressedBits + i * bitWidth) bitWidth

/-! ### Compression -/

/-- `packPartialChunk`, from the start of a chunk. -/
def packPartialChunk (src : Nat → t.Value) (dst : t.Page) (cursor : Nat) (info : BitpackInfo t)
    (numValuesToPack : Nat) : t.Page :=
  (List.range numValuesToPack).foldl
    (fun dst i => t.packSingle (src i) dst cursor info.bitWidth i) dst

section
variable (src : Nat → t.Value) (info : BitpackInfo t) (numValuesToCopy : Nat)

/-- `copyValuesToTempChunkWithOffset`. -/
def copyValuesToTempChunkWithOffset : Option (Nat → t.Value) :=
  ((List.range numValuesToCopy).mapM fun j => t.sub (src j) info.offset).map fun tmp j => tmp.getD j 0

/-- The chunk that is packed: the values, without the offset if there is one. -/
def chunkToPack : Option (Nat → t.Value) :=
  if info.offset = 0 then some src else copyValuesToTempChunkWithOffset src info numValuesToCopy

end

/-- The loop over the full chunks. -/
def packFullChunks (info : BitpackInfo t) (src : Nat → t.Value) : Nat → t.Page → Option t.Page
  | 0, dst => some dst
  | chunk + 1, dst => do
    let dst ← packFullChunks info src chunk dst
    let i := chunk * chunkSize
    let tmp ← chunkToPack (fun j => src (i + j)) info chunkSize
    return fastpack tmp dst (t.wordIdx (i * info.bitWidth / 8)) info.bitWidth

/-- `compressNextPage` for values that are compressed with `INTEGER_BITPACKING`: the buffer, the size of
its compressed part and how many values were compressed. -/
def compressNextPage (info : BitpackInfo t) (src : Nat → t.Value) (numValuesRemaining : Nat)
    (dst : t.Page) : Option (t.Page × Nat × Nat) :=
  if info.bitWidth = 0 then some (dst, 0, 0)
  else do
    let numValuesToCompress := min numValuesRemaining info.numValues
    let numBits := numValuesToCompress * info.bitWidth
    let sizeToCompress := numBits / 8 + if numBits % 8 ≠ 0 then 1 else 0
    let lastFullChunkEnd := numValuesToCompress - numValuesToCompress % chunkSize
    let dst ← packFullChunks info src (lastFullChunkEnd / chunkSize) dst
    let remainingValues := numValuesToCompress % chunkSize
    let dst ← if remainingValues > 0 then
        (chunkToPack (fun j => src (lastFullChunkEnd + j)) info remainingValues).map fun tmp =>
          packPartialChunk tmp dst (t.wordIdx (lastFullChunkEnd * info.bitWidth / 8)) info
            remainingValues
      else some dst
    return (dst, sizeToCompress, numValuesToCompress)

/-- The bytes from `size` on are set to 0. -/
def clearFrom (size : Nat) (page : t.Page) : t.Page := fun word =>
  ofBits (fun b => decide (word * t.compressedBits + b < size * 8) && (page word).getLsbD b)
    t.compressedBits

/-- The loop of `CompressedFlushBuffer` over the pages, which uses one buffer for all of them. -/
def compressPages (info : BitpackInfo t) : Nat → Nat → (Nat → t.Value) → t.Page → Option (List t.Page)
  | 0, _, _, _ => some []
  | fuel + 1, valuesRemaining, src, buffer =>
    if valuesRemaining = 0 then some []
    else do
      let (page, compressedSize, numValuesCompressed) ←
        info.compressNextPage src valuesRemaining buffer
      let page := clearFrom compressedSize page
      let pages ← compressPages info fuel
        (if info.numValues > valuesRemaining then 0 else valuesRemaining - info.numValues)
        (fun i => src (numValuesCompressed + i)) page
      return page :: pages

/-- The pages of a list of values. -/
def compress (info : BitpackInfo t) (values : List t.Value) (buffer : t.Page) : Option (List t.Page) :=
  info.compressPages values.length values.length (fun i => values.getD i 0) buffer

/-! ### Decompression -/

/-- `SignExtend` of one value. -/
def signExtend (width : Nat) (value : t.Value) : Option t.Value :=
  let mask := 1#t.bits <<< (width - 1)
  t.sub ((value &&& t.all1sMask width) ^^^ mask) mask

/-- What is done with each unpacked value. -/
def decode (info : BitpackInfo t) (out : t.Value) : Option t.Value := do
  let out ← if info.hasNegative ∧ info.bitWidth > 0 then signExtend info.bitWidth out else some out
  if info.offset ≠ 0 then t.add out info.offset else some out

/-- `getValues`. -/
def getValues (info : BitpackInfo t) (page : t.Page) (cursor pos numValuesToRead : Nat) :
    Option (List t.Value) :=
  (List.range' pos numValuesToRead).mapM fun i =>
    info.decode (t.unpackSingle page cursor info.bitWidth i)

/-- The loop over the full chunks from `cursor` on. -/
def unpackFullChunks (info : BitpackInfo t) (page : t.Page) : Nat → Nat → Option (List t.Value)
  | 0, _ => some []
  | chunks + 1, cursor => do
    let values ← (List.range chunkSize).mapM fun i =>
      info.decode (fastunpack page (t.wordIdx cursor) info.bitWidth i)
    let rest ← unpackFullChunks info page chunks (cursor + chunkSize / 8 * info.bitWidth)
    return values ++ rest

/-- The full chunks from byte `cursor` on and the values in the last chunk. -/
def decompressAligned (info : BitpackInfo t) (page : t.Page) (cursor numValues : Nat) :
    Option (List t.Value) := do
  let chunks := numValues / chunkSize
  let full ← info.unpackFullChunks page chunks cursor
  if chunks * chunkSize < numValues then
    let last ← info.getValues page (t.wordIdx (cursor + chunks * (chunkSize / 8 * info.bitWidth))) 0
      (numValues - chunks * chunkSize)
    return full ++ last
  else return full

/-- `decompressFromPage`, with the values that it writes. -/
def decompressFromPage (info : BitpackInfo t) (page : t.Page) (srcOffset numValues : Nat) :
    Option (List t.Value) := do
  let srcCursor := srcOffset / chunkSize * info.bitWidth * chunkSize / 8
  let valuesInFirstChunk := min (chunkSize - srcOffset % chunkSize) numValues
  if valuesInFirstChunk < chunkSize then
    let first ← info.getValues page (t.wordIdx srcCursor) (srcOffset % chunkSize) valuesInFirstChunk
    if numValues = valuesInFirstChunk then return first
    else
      let rest ← info.decompressAligned page (srcCursor + chunkSize / 8 * info.bitWidth)
        (numValues - valuesInFirstChunk)
      return first ++ rest
  else info.decompressAligned page srcCursor numValues

end BitpackInfo

end CycleJoin
