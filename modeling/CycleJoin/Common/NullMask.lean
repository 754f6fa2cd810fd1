import CycleJoin.Lib.BitStrings

/-!
# Null masks

`NullMask` (`common/null_mask.cpp`) keeps one bit for each value in entries of 64 bits. The page of a
boolean column has the same layout, and its values are copied with the same functions.

* `setsBits_copyNullMask`: a copy sets exactly the bits it is asked to.
* `copyNullMask_exact_iff`: what it reports is whether one of them is set, unless it copies a few bits and
  inverts them.
* `setsBits_setNullRange`: a fill sets exactly the bits it is asked to.
-/

namespace CycleJoin

open BitVec Function

namespace NullMask

abbrev Entries := Words 64

/-- `NULL_LOWER_MASKS`. -/
def nullLowerMasks (n : Nat) : BitVec 64 := BitVec.ofNat 64 (2 ^ n - 1)

/-- `NULL_HIGH_MASKS`. -/
def nullHighMasks (n : Nat) : BitVec 64 := ~~~nullLowerMasks (64 - n)

/-- `setNull`, whose position has 32 bits. -/
def setNull (nullEntries : Entries) (pos : Nat) (isNull : Bool) : Entries :=
  let entryPos := pos % 2 ^ 32 / 64
  let bitPosInEntry := pos % 2 ^ 32 % 64
  update nullEntries entryPos
    (if isNull then nullEntries entryPos ||| 1#64 <<< bitPosInEntry
      else nullEntries entryPos &&& ~~~(1#64 <<< bitPosInEntry))

/-- `isNull`, whose position has 32 bits. -/
def isNull (nullEntries : Entries) (pos : Nat) : Bool :=
  nullEntries (pos % 2 ^ 32 / 64) &&& 1#64 <<< (pos % 2 ^ 32 % 64) != 0

/-! ## Copies -/

/-- The variables of the loop of `copyUnaligned`. -/
structure CopyState where
  bitPos : Nat
  srcNullEntryPos : Nat
  srcNullBitPos : Nat
  dstNullEntryPos : Nat
  dstNullBitPos : Nat
  dstNullEntries : Entries
  hasNullInSrcNullMask : Bool

/-- `numBitsToReadInCurrentEntry`. -/
def numBitsToReadInCurrentEntry (srcNullBitPos dstNullBitPos remaining : Nat) : Nat :=
  if dstNullBitPos < srcNullBitPos then min (64 - srcNullBitPos) remaining
  else min (64 - dstNullBitPos) remaining

/-- The bits of the source entry that are copied, at their place in the destination entry. -/
def alignEntry (srcNullMaskEntry : BitVec 64) (srcNullBitPos dstNullBitPos numBits : Nat) : BitVec 64 :=
  if dstNullBitPos < srcNullBitPos then
    (srcNullMaskEntry &&& ~~~nullHighMasks (64 - (srcNullBitPos + numBits))) >>>
      (srcNullBitPos - dstNullBitPos) &&& ~~~nullLowerMasks dstNullBitPos
  else if dstNullBitPos > srcNullBitPos then
    (srcNullMaskEntry &&& ~~~nullLowerMasks srcNullBitPos) <<< (dstNullBitPos - srcNullBitPos) &&&
      ~~~nullHighMasks (64 - (dstNullBitPos + numBits))
  else
    srcNullMaskEntry &&& ~~~nullLowerMasks srcNullBitPos &&&
      ~~~nullHighMasks (64 - (dstNullBitPos + numBits))

/-- The positions after a step: the operand with the higher bit position moves on to its next entry. -/
def nextPositions (s : CopyState) (numBits : Nat) : CopyState :=
  if s.dstNullBitPos < s.srcNullBitPos then
    { s with
      srcNullEntryPos := s.srcNullEntryPos + 1
      srcNullBitPos := 0
      dstNullBitPos := s.dstNullBitPos + numBits }
  else if s.dstNullBitPos > s.srcNullBitPos then
    { s with
      dstNullEntryPos := s.dstNullEntryPos + 1
      dstNullBitPos := 0
      srcNullBitPos := s.srcNullBitPos + numBits }
  else
    { s with
      srcNullEntryPos := s.srcNullEntryPos + 1
      dstNullEntryPos := s.dstNullEntryPos + 1
      srcNullBitPos := 0
      dstNullBitPos := 0 }

/-- The body of the loop of `copyUnaligned`. -/
def copyEntry (srcNullEntries : Entries) (numBitsToCopy : Nat) (invert : Bool) (s : CopyState) :
    CopyState :=
  let numBits :=
    numBitsToReadInCurrentEntry s.srcNullBitPos s.dstNullBitPos (numBitsToCopy - s.bitPos)
  let srcNullMaskEntry :=
    alignEntry
      (if invert then ~~~srcNullEntries s.srcNullEntryPos else srcNullEntries s.srcNullEntryPos)
      s.srcNullBitPos s.dstNullBitPos numBits
  let cleared :=
    s.dstNullEntries s.dstNullEntryPos &&& ~~~(nullLowerMasks numBits <<< s.dstNullBitPos)
  { nextPositions s numBits with
    bitPos := s.bitPos + numBits
    dstNullEntries :=
      update s.dstNullEntries s.dstNullEntryPos
        (if srcNullMaskEntry ≠ 0 then cleared ||| srcNullMaskEntry else cleared)
    hasNullInSrcNullMask := s.hasNullInSrcNullMask || srcNullMaskEntry != 0 }

/-- The loop of `copyUnaligned`. Each round copies a bit, so that `numBitsToCopy` rounds are enough. -/
def copyEntries (srcNullEntries : Entries) (numBitsToCopy : Nat) (invert : Bool) :
    Nat → CopyState → CopyState
  | 0, s => s
  | fuel + 1, s =>
    if s.bitPos < numBitsToCopy then
      copyEntries srcNullEntries numBitsToCopy invert fuel
        (copyEntry srcNullEntries numBitsToCopy invert s)
    else s

/-- `copyUnaligned`: the destination, and whether a copied bit is set. -/
def copyUnaligned (srcNullEntries : Entries) (srcOffset : Nat) (dstNullEntries : Entries)
    (dstOffset numBitsToCopy : Nat) (invert : Bool) : Entries × Bool :=
  let s := copyEntries srcNullEntries numBitsToCopy invert numBitsToCopy
    { bitPos := 0
      srcNullEntryPos := srcOffset / 64
      srcNullBitPos := srcOffset % 64
      dstNullEntryPos := dstOffset / 64
      dstNullBitPos := dstOffset % 64
      dstNullEntries
      hasNullInSrcNullMask := false }
  (s.dstNullEntries, s.hasNullInSrcNullMask)

/-- `memcpy` of bytes between two arrays of entries. -/
def copyBytes (src : Entries) (srcByte : Nat) (dst : Entries) (dstByte numBytes : Nat) : Entries :=
  fun k => ofBits (fun b =>
    let j := k * 64 + b
    if dstByte * 8 ≤ j ∧ j < dstByte * 8 + numBytes * 8 then src.bit (srcByte * 8 + (j - dstByte * 8))
    else dst.bit j) 64

/-- Whether one of the bytes is not 0. -/
def anyByteSet (src : Entries) (srcByte numBytes : Nat) : Bool :=
  (List.range (numBytes * 8)).any fun k => src.bit (srcByte * 8 + k)

section
variable (srcNullEntries : Entries) (srcOffset : Nat) (dstNullEntries : Entries)

/-- The part of `copyNullMask` after the first byte: the bytes, and then the bits of the last byte. -/
def copyAfterFirstByte (dstOffset numBitsToCopy numBitsInFirstByte : Nat) (hasNull : Bool) : Entries × Bool :=
  let numBytesForAlignedCopy := (numBitsToCopy - numBitsInFirstByte) / 8
  let srcByte := (srcOffset + numBitsInFirstByte) / 8
  let dst :=
    copyBytes srcNullEntries srcByte dstNullEntries ((dstOffset + numBitsInFirstByte) / 8)
      numBytesForAlignedCopy
  let hasNull := hasNull || anyByteSet srcNullEntries srcByte numBytesForAlignedCopy
  let lastByteStart := numBitsInFirstByte + numBytesForAlignedCopy * 8
  let numBitsInLastByte := numBitsToCopy - numBitsInFirstByte - numBytesForAlignedCopy * 8
  if numBitsInLastByte > 0 then
    let last :=
      copyUnaligned srcNullEntries (srcOffset + lastByteStart) dst (dstOffset + lastByteStart)
        numBitsInLastByte false
    (last.1, last.2 || hasNull)
  else (dst, hasNull)

/-- `copyNullMask`: the destination, and whether a copied bit is set. -/
def copyNullMask (dstOffset numBitsToCopy : Nat) (invert : Bool) : Entries × Bool :=
  if numBitsToCopy ≤ 3 then
    ((List.range numBitsToCopy).foldl
        (fun dst i => setNull dst (dstOffset + i) (isNull srcNullEntries (srcOffset + i) ^^ invert))
        dstNullEntries,
      (List.range numBitsToCopy).any fun i => isNull srcNullEntries (srcOffset + i))
  else if invert = false ∧ srcOffset % 8 = dstOffset % 8 ∧ numBitsToCopy ≥ 8 ∧
      numBitsToCopy - srcOffset % 8 ≥ 8 then
    if srcOffset ≠ 0 then
      let numBitsInFirstByte := 8 - srcOffset % 8
      let first :=
        copyUnaligned srcNullEntries srcOffset dstNullEntries dstOffset numBitsInFirstByte false
      copyAfterFirstByte srcNullEntries srcOffset first.1 dstOffset numBitsToCopy numBitsInFirstByte
        first.2
    else
      copyAfterFirstByte srcNullEntries srcOffset dstNullEntries dstOffset numBitsToCopy 0 false
  else copyUnaligned srcNullEntries srcOffset dstNullEntries dstOffset numBitsToCopy invert

end

/-- `setNullRange`. -/
def setNullRange (nullEntries : Entries) (offset numBitsToSet : Nat) (isNull : Bool) : Entries :=
  if numBitsToSet = 0 then nullEntries
  else
    let firstEntryPos := offset / 64
    let firstBitPos := offset % 64
    let lastEntryPos := (offset + numBitsToSet) / 64
    let lastBitPos := (offset + numBitsToSet) % 64
    let nullEntries : Entries := fun k =>
      if firstEntryPos < k ∧ k < lastEntryPos then if isNull then allOnes 64 else 0
      else nullEntries k
    if firstEntryPos = lastEntryPos then
      update nullEntries firstEntryPos
        (if isNull then
          nullEntries firstEntryPos |||
            (~~~nullLowerMasks firstBitPos &&& ~~~nullHighMasks (64 - lastBitPos))
        else
          nullEntries firstEntryPos &&&
            (nullLowerMasks firstBitPos ||| nullHighMasks (64 - lastBitPos)))
    else
      let nullEntries :=
        update nullEntries firstEntryPos
          (if isNull then nullEntries firstEntryPos ||| ~~~nullLowerMasks firstBitPos
          else nullEntries firstEntryPos &&& nullLowerMasks firstBitPos)
      if lastBitPos > 0 then
        update nullEntries lastEntryPos
          (if isNull then nullEntries lastEntryPos ||| nullLowerMasks lastBitPos
          else nullEntries lastEntryPos &&& ~~~nullLowerMasks lastBitPos)
      else nullEntries

/-! ## Single bits -/

@[simp]
theorem getLsbD_nullLowerMasks (n k : Nat) : (nullLowerMasks n).getLsbD k = (decide (k < 64) && decide (k < n)) := by
  rw [nullLowerMasks, getLsbD_ofNat, Nat.testBit_two_pow_sub_one]

@[simp]
theorem getLsbD_nullHighMasks (n k : Nat) :
    (nullHighMasks n).getLsbD k = (decide (k < 64) && decide (64 - n ≤ k)) := by
  rw [nullHighMasks]
  by_cases hk : k < 64 <;> by_cases hn : 64 - n ≤ k <;> simp [hn] <;> omega

theorem getLsbD_not_nullLowerMasks (n : Nat) {k : Nat} (hk : k < 64) :
    (~~~nullLowerMasks n).getLsbD k = decide (n ≤ k) := by
  simp only [getLsbD_not, getLsbD_nullLowerMasks, hk, decide_true, Bool.true_and, ← decide_not, not_lt]

theorem getLsbD_not_nullHighMasks {n : Nat} (hn : n ≤ 64) (k : Nat) :
    (~~~nullHighMasks (64 - n)).getLsbD k = decide (k < n) := by
  rw [getLsbD_not, getLsbD_nullHighMasks, Nat.sub_sub_self hn]
  by_cases hk : k < 64
  · simp [hk, ← decide_not]
  · have hlt : ¬ k < n := by omega
    simp [hk, hlt]

theorem and_decide_eq {x y : Bool} {p q : Prop} [Decidable p] [Decidable q] (hpq : p ↔ q)
    (hxy : q → x = y) : (x && decide p) = (decide q && y) := by
  by_cases hq : q
  · simp [hpq, hq, hxy hq]
  · simp [hpq, hq]

theorem getLsbD_one_shiftLeft {n : Nat} (k : Nat) (hn : n < 64) : (1#64 <<< n).getLsbD k = decide (k = n) := by
  rw [← twoPow_eq, getLsbD_twoPow]
  simp [hn, eq_comm]

theorem ne_zero_iff (x : BitVec 64) : x ≠ 0 ↔ ∃ b < 64, x.getLsbD b = true := by
  rw [Ne, eq_of_getLsbD_eq_iff]
  simp

section
variable (nullEntries : Entries)

theorem isNull_eq (pos : Nat) : isNull nullEntries pos = nullEntries.bit (pos % 2 ^ 32) := by
  have hlt : pos % 2 ^ 32 % 64 < 64 := Nat.mod_lt _ (by decide)
  rw [isNull, Words.bit, Bool.eq_iff_iff, bne_iff_ne, ne_zero_iff]
  simp only [getLsbD_and, getLsbD_one_shiftLeft _ hlt, Bool.and_eq_true, decide_eq_true_eq]
  constructor
  · rintro ⟨b, -, hbit, hb⟩
    exact hb ▸ hbit
  · exact fun hbit => ⟨_, hlt, hbit, rfl⟩

theorem isNull_eq_bit {pos : Nat} (h : pos < 2 ^ 32) : isNull nullEntries pos = nullEntries.bit pos := by
  rw [isNull_eq, Nat.mod_eq_of_lt h]

theorem setsBits_setNull_mod (pos : Nat) (isNull : Bool) :
    SetsBits (pos % 2 ^ 32) 1 (fun _ => isNull) nullEntries (setNull nullEntries pos isNull) := by
  rw [setNull]
  generalize pos % 2 ^ 32 = pos
  have hlt : pos % 64 < 64 := Nat.mod_lt _ (by decide)
  refine SetsBits.update (by decide) (by omega) (by omega) fun b hb => ?_
  have hiff : (pos ≤ pos / 64 * 64 + b ∧ pos / 64 * 64 + b < pos + 1) ↔ b = pos % 64 := by omega
  cases isNull <;> simp only [Bool.false_eq_true, if_true, if_false, getLsbD_or, getLsbD_and,
      getLsbD_not, getLsbD_one_shiftLeft _ hlt, hb, hiff] <;>
    by_cases hbit : b = pos % 64 <;> simp [hbit]

theorem setsBits_setNull {pos : Nat} (h : pos < 2 ^ 32) (isNull : Bool) :
    SetsBits pos 1 (fun _ => isNull) nullEntries (setNull nullEntries pos isNull) := by
  have hsets := setsBits_setNull_mod nullEntries pos isNull
  rwa [Nat.mod_eq_of_lt h] at hsets

end

/-! ## Copies of entries -/

theorem numBitsToRead_eq (srcBit dstBit remaining : Nat) :
    numBitsToReadInCurrentEntry srcBit dstBit remaining = min (64 - max srcBit dstBit) remaining := by
  rw [numBitsToReadInCurrentEntry]
  split <;> omega

section
variable (entry : BitVec 64) {srcBit dstBit numBits : Nat} (hsrc : srcBit + numBits ≤ 64)
  (hdst : dstBit + numBits ≤ 64)
include hsrc hdst

theorem getLsbD_alignEntry {b : Nat} (hb : b < 64) : (alignEntry entry srcBit dstBit numBits).getLsbD b =
      (decide (dstBit ≤ b ∧ b < dstBit + numBits) && entry.getLsbD (srcBit + (b - dstBit))) := by
  rw [alignEntry]
  split
  · rw [getLsbD_and, getLsbD_ushiftRight, getLsbD_and,
      getLsbD_not_nullHighMasks hsrc, getLsbD_not_nullLowerMasks _ hb, Bool.and_assoc, ← Bool.decide_and]
    refine and_decide_eq (by omega) fun hin => ?_
    congr 1
    omega
  split
  · rw [getLsbD_and, getLsbD_shiftLeft, getLsbD_and,
      getLsbD_not_nullHighMasks hdst, getLsbD_not_nullLowerMasks _ (by omega),
      Bool.and_left_comm (decide _ && _), Bool.and_assoc, ← decide_not, ← Bool.decide_and,
      ← Bool.decide_and, ← Bool.decide_and]
    refine and_decide_eq (by omega) fun hin => ?_
    congr 1
    omega
  · rw [getLsbD_and, getLsbD_and, getLsbD_not_nullHighMasks hdst,
      getLsbD_not_nullLowerMasks _ hb, Bool.and_assoc, ← Bool.decide_and]
    refine and_decide_eq (by omega) fun hin => ?_
    congr 1
    omega

theorem alignEntry_ne_zero_iff :
    alignEntry entry srcBit dstBit numBits ≠ 0 ↔ ∃ k < numBits, entry.getLsbD (srcBit + k) = true := by
  rw [ne_zero_iff]
  constructor
  · rintro ⟨b, hb, hbit⟩
    rw [getLsbD_alignEntry entry hsrc hdst hb, Bool.and_eq_true, decide_eq_true_eq] at hbit
    exact ⟨b - dstBit, by omega, hbit.2⟩
  · rintro ⟨k, hk, hbit⟩
    refine ⟨dstBit + k, by omega, ?_⟩
    rw [getLsbD_alignEntry entry hsrc hdst (by omega), Nat.add_sub_cancel_left, hbit, Bool.and_true,
      decide_eq_true_eq]
    omega

end

theorem getLsbD_sourceEntry (src : Entries) (invert : Bool) {q r : Nat} (hr : r < 64) :
    (if invert then ~~~src q else src q).getLsbD r = (src.bit (q * 64 + r) ^^ invert) := by
  rw [← Words.getLsbD_eq_bit hr]
  cases invert <;> simp [hr]

/-- A copy sets the bits that it copies to `f`, and reports whether one of them is set. -/
structure Copies (start len : Nat) (f : Nat → Bool) (dst : Entries) (result : Entries × Bool) : Prop where
  sets : SetsBits start len f dst result.1
  report : result.2 = true ↔ ∃ k < len, f k = true

namespace Copies

variable {start start' len len' total : Nat} {f g : Nat → Bool} {dst : Entries}
  {result result' : Entries × Bool}

theorem append (h : Copies start len f dst result) (h' : Copies start' len' g result.1 result')
    (hstart : start' = start + len) (htotal : len + len' = total) (hg : ∀ k < len', g k = f (len + k)) :
    Copies start total f dst (result'.1, result.2 || result'.2) := by
  refine ⟨h.sets.append h'.sets hstart htotal hg, ?_⟩
  rw [Bool.or_eq_true, h.report, h'.report]
  constructor
  · rintro (⟨k, hk, hbit⟩ | ⟨k, hk, hbit⟩)
    · exact ⟨k, by omega, hbit⟩
    · exact ⟨len + k, by omega, hg k hk ▸ hbit⟩
  · rintro ⟨k, hk, hbit⟩
    by_cases hlt : k < len
    · exact .inl ⟨k, hlt, hbit⟩
    · refine .inr ⟨k - len, by omega, ?_⟩
      rwa [hg _ (by omega), Nat.add_sub_cancel' (Nat.le_of_not_lt hlt)]

end Copies

theorem copies_copyEntry (src : Entries) {n : Nat} (invert : Bool) (s : CopyState)
    (hsrc : s.srcNullBitPos < 64) (hdst : s.dstNullBitPos < 64) : ∃ report,
      (copyEntry src n invert s).hasNullInSrcNullMask = (s.hasNullInSrcNullMask || report) ∧
      Copies (s.dstNullEntryPos * 64 + s.dstNullBitPos)
        (numBitsToReadInCurrentEntry s.srcNullBitPos s.dstNullBitPos (n - s.bitPos))
        (fun k => src.bit (s.srcNullEntryPos * 64 + s.srcNullBitPos + k) ^^ invert)
        s.dstNullEntries ((copyEntry src n invert s).dstNullEntries, report) := by
  refine ⟨_, rfl, ?_⟩
  rw [copyEntry, numBitsToRead_eq]
  generalize hnum : min (64 - max s.srcNullBitPos s.dstNullBitPos) (n - s.bitPos) = numBits
  constructor
  case report =>
    rw [bne_iff_ne, alignEntry_ne_zero_iff _ (by omega) (by omega)]
    refine exists_congr fun k => and_congr_right fun hk => ?_
    rw [getLsbD_sourceEntry src invert (by omega), add_assoc]
  refine SetsBits.update (by decide) (by omega) (by omega) fun b hb => ?_
  -- Nothing is lost when no copied bit is set and the entry is only cleared.
  have hor (cleared x : BitVec 64) : (if x ≠ 0 then cleared ||| x else cleared) = cleared ||| x := by
    by_cases hx : x = 0
    · simp [hx]
    · rw [if_pos hx]
  have hmask : (nullLowerMasks numBits <<< s.dstNullBitPos).getLsbD b =
      decide (s.dstNullBitPos ≤ b ∧ b < s.dstNullBitPos + numBits) := by
    rw [getLsbD_shiftLeft, getLsbD_nullLowerMasks]
    by_cases hle : s.dstNullBitPos ≤ b
    · have h1 : b - s.dstNullBitPos < 64 := by omega
      have h2 : b - s.dstNullBitPos < numBits ↔ b < s.dstNullBitPos + numBits := by omega
      simp [hb, hle, h1, h2]
    · simp [hle]
  rw [hor, getLsbD_or, getLsbD_and, getLsbD_not, hmask, getLsbD_alignEntry _ (by omega) (by omega) hb]
  by_cases hin : s.dstNullBitPos ≤ b ∧ b < s.dstNullBitPos + numBits
  · have hidx : s.srcNullBitPos + (b - s.dstNullBitPos) < 64 := by omega
    have hpos : s.srcNullEntryPos * 64 + (s.srcNullBitPos + (b - s.dstNullBitPos)) =
        s.srcNullEntryPos * 64 + s.srcNullBitPos +
          (s.dstNullEntryPos * 64 + b - (s.dstNullEntryPos * 64 + s.dstNullBitPos)) := by omega
    have hrange : s.dstNullEntryPos * 64 + s.dstNullBitPos ≤ s.dstNullEntryPos * 64 + b ∧
        s.dstNullEntryPos * 64 + b < s.dstNullEntryPos * 64 + s.dstNullBitPos + numBits := by omega
    rw [if_pos hrange, getLsbD_sourceEntry src invert hidx, hpos]
    simp [hin]
  · have hrange : ¬ (s.dstNullEntryPos * 64 + s.dstNullBitPos ≤ s.dstNullEntryPos * 64 + b ∧
        s.dstNullEntryPos * 64 + b < s.dstNullEntryPos * 64 + s.dstNullBitPos + numBits) := by omega
    rw [if_neg hrange]
    simp [hin, hb]

/-- What holds before each round of `copyUnaligned`: the bits before `bitPos` are copied, and the
positions are those of the next bit. -/
structure CopyInv (src : Entries) (srcOffset : Nat) (dst : Entries) (dstOffset n : Nat) (invert : Bool)
    (s : CopyState) : Prop where
  bitPos_le : s.bitPos ≤ n
  positions : s.bitPos < n → s.srcNullBitPos < 64 ∧ s.dstNullBitPos < 64 ∧
    s.srcNullEntryPos * 64 + s.srcNullBitPos = srcOffset + s.bitPos ∧
    s.dstNullEntryPos * 64 + s.dstNullBitPos = dstOffset + s.bitPos
  sets : SetsBits dstOffset s.bitPos (fun k => src.bit (srcOffset + k) ^^ invert) dst s.dstNullEntries

variable {src dst : Entries} {srcOffset dstOffset n : Nat} {invert : Bool}

theorem CopyInv.copyEntry {s : CopyState} (h : CopyInv src srcOffset dst dstOffset n invert s)
    (hcopies : Copies dstOffset s.bitPos (fun k => src.bit (srcOffset + k) ^^ invert) dst
      (s.dstNullEntries, s.hasNullInSrcNullMask))
    (hlt : s.bitPos < n) : ∃ s', s' = copyEntry src n invert s ∧ s.bitPos < s'.bitPos ∧
      CopyInv src srcOffset dst dstOffset n invert s' ∧
      Copies dstOffset s'.bitPos (fun k => src.bit (srcOffset + k) ^^ invert) dst
        (s'.dstNullEntries, s'.hasNullInSrcNullMask) := by
  obtain ⟨hsrc, hdst, hsrcPos, hdstPos⟩ := h.positions hlt
  obtain ⟨report, hreport, hstep⟩ := copies_copyEntry src (n := n) invert s hsrc hdst
  have hnum := numBitsToRead_eq s.srcNullBitPos s.dstNullBitPos (n - s.bitPos)
  have hbitPos : (NullMask.copyEntry src n invert s).bitPos = s.bitPos +
      numBitsToReadInCurrentEntry s.srcNullBitPos s.dstNullBitPos (n - s.bitPos) := rfl
  have hall := hcopies.append hstep hdstPos hbitPos.symm fun k _ => by rw [hsrcPos, add_assoc]
  rw [← hreport] at hall
  refine ⟨_, rfl, by omega, ⟨by omega, ?_, hall.sets⟩, hall⟩
  simp only [NullMask.copyEntry, nextPositions]
  split
  · simp only
    omega
  · split
    · simp only
      omega
    · simp only
      omega

theorem CopyInv.copyEntries (fuel : Nat) {s : CopyState} (h : CopyInv src srcOffset dst dstOffset n invert s)
    (hcopies : Copies dstOffset s.bitPos (fun k => src.bit (srcOffset + k) ^^ invert) dst
      (s.dstNullEntries, s.hasNullInSrcNullMask))
    (hfuel : n ≤ s.bitPos + fuel) :
    Copies dstOffset n (fun k => src.bit (srcOffset + k) ^^ invert) dst
      ((copyEntries src n invert fuel s).dstNullEntries, (copyEntries src n invert fuel s).hasNullInSrcNullMask) := by
  induction fuel generalizing s with
  | zero =>
    have heq : s.bitPos = n := le_antisymm h.bitPos_le hfuel
    exact heq ▸ hcopies
  | succ fuel ih =>
    rw [NullMask.copyEntries]
    by_cases hlt : s.bitPos < n
    · obtain ⟨s', rfl, hgrow, hinv, hcopies'⟩ := h.copyEntry hcopies hlt
      rw [if_pos hlt]
      exact ih hinv hcopies' (by omega)
    · have heq : s.bitPos = n := le_antisymm h.bitPos_le (Nat.le_of_not_lt hlt)
      rw [if_neg hlt]
      exact heq ▸ hcopies

theorem copies_copyUnaligned (src : Entries) (srcOffset : Nat) (dst : Entries) (dstOffset n : Nat) (invert : Bool) :
    Copies dstOffset n (fun k => src.bit (srcOffset + k) ^^ invert) dst
      (copyUnaligned src srcOffset dst dstOffset n invert) := by
  have hzero := SetsBits.of_len_zero dstOffset (fun k => src.bit (srcOffset + k) ^^ invert) dst
  have hinit : CopyInv src srcOffset dst dstOffset n invert
      { bitPos := 0
        srcNullEntryPos := srcOffset / 64
        srcNullBitPos := srcOffset % 64
        dstNullEntryPos := dstOffset / 64
        dstNullBitPos := dstOffset % 64
        dstNullEntries := dst
        hasNullInSrcNullMask := false } :=
    { bitPos_le := Nat.zero_le _
      positions := fun _ => by simp only; omega
      sets := hzero }
  exact hinit.copyEntries n ⟨hzero, by simp⟩ (by simp)

/-! ## The three ways to copy -/

theorem copies_copyBytes (src : Entries) (srcByte : Nat) (dst : Entries) (dstByte numBytes : Nat) :
    Copies (dstByte * 8) (numBytes * 8) (fun k => src.bit (srcByte * 8 + k)) dst
      (copyBytes src srcByte dst dstByte numBytes, anyByteSet src srcByte numBytes) := by
  exact ⟨Words.bit_ofBits (by decide) fun j =>
    if dstByte * 8 ≤ j ∧ j < dstByte * 8 + numBytes * 8 then src.bit (srcByte * 8 + (j - dstByte * 8))
    else dst.bit j, by simp [anyByteSet]⟩

theorem setsBits_copyFew (src : Entries) {srcOffset : Nat} (dst : Entries) {dstOffset n : Nat}
    (invert : Bool) (hsrc : srcOffset + n ≤ 2 ^ 32) (hdst : dstOffset + n ≤ 2 ^ 32) :
    SetsBits dstOffset n (fun k => src.bit (srcOffset + k) ^^ invert) dst ((List.range n).foldl
        (fun dst i => setNull dst (dstOffset + i) (isNull src (srcOffset + i) ^^ invert)) dst) := by
  have hbit (i : Nat) (hi : i < n) (words : Entries) :
      SetsBits (dstOffset + i * 1) 1 (fun _ => src.bit (srcOffset + i) ^^ invert) words
        (setNull words (dstOffset + i) (isNull src (srcOffset + i) ^^ invert)) := by
    rw [mul_one, isNull_eq_bit src (by omega)]
    exact setsBits_setNull words (by omega) _
  have hloop := setsBits_foldl_range n hbit dst
  rw [mul_one] at hloop
  exact hloop.congr fun k _ => by rw [Nat.div_one]

/-- The bytes and the last bits, after a first copy that ends at a byte. -/
theorem Copies.copyAfterFirstByte {first : Nat} {result : Entries × Bool}
    (h : Copies dstOffset first (fun k => src.bit (srcOffset + k)) dst result) (hle : first ≤ n)
    (hsrc : (srcOffset + first) % 8 = 0) (hdst : (dstOffset + first) % 8 = 0) :
    Copies dstOffset n (fun k => src.bit (srcOffset + k)) dst
      (copyAfterFirstByte src srcOffset result.1 dstOffset n first result.2) := by
  have hbytes := h.append (copies_copyBytes src ((srcOffset + first) / 8) result.1
    ((dstOffset + first) / 8) ((n - first) / 8)) (by omega) rfl
    fun k _ => by
      congr 1
      omega
  rw [NullMask.copyAfterFirstByte]
  by_cases hlast : n - first - (n - first) / 8 * 8 > 0
  · rw [if_pos hlast]
    dsimp only
    rw [Bool.or_comm]
    refine hbytes.append (copies_copyUnaligned src (srcOffset + (first + (n - first) / 8 * 8)) _
      (dstOffset + (first + (n - first) / 8 * 8)) (n - first - (n - first) / 8 * 8) false) rfl ?_ fun k _ => ?_
    · omega
    · rw [Bool.xor_false, add_assoc]
  · have hlen : first + (n - first) / 8 * 8 = n := by omega
    rw [hlen] at hbytes
    rw [if_neg hlast]
    exact hbytes

theorem copies_copyNullMask (src : Entries) (srcOffset : Nat) (dst : Entries) (dstOffset : Nat)
    (hn : 3 < n) (invert : Bool) : Copies dstOffset n (fun k => src.bit (srcOffset + k) ^^ invert) dst
      (copyNullMask src srcOffset dst dstOffset n invert) := by
  rw [copyNullMask, if_neg (not_le.mpr hn)]
  split
  · rename_i hbytes
    obtain ⟨rfl, hmod, hge, hge'⟩ := hbytes
    simp only [Bool.xor_false]
    split
    · have hfirst := copies_copyUnaligned src srcOffset dst dstOffset (8 - srcOffset % 8) false
      simp only [Bool.xor_false] at hfirst
      exact hfirst.copyAfterFirstByte (by omega) (by omega) (by omega)
    · have hnone : Copies dstOffset 0 (fun k => src.bit (srcOffset + k)) dst (dst, false) :=
        ⟨SetsBits.of_len_zero _ _ dst, by simp⟩
      exact hnone.copyAfterFirstByte (Nat.zero_le n) (by omega) (by omega)
  · exact copies_copyUnaligned src srcOffset dst dstOffset n invert

theorem setsBits_copyNullMask (src : Entries) {srcOffset : Nat} (dst : Entries) {dstOffset n : Nat}
    (invert : Bool) (hsrc : srcOffset + n ≤ 2 ^ 32) (hdst : dstOffset + n ≤ 2 ^ 32) :
    SetsBits dstOffset n (fun k => src.bit (srcOffset + k) ^^ invert) dst
      (copyNullMask src srcOffset dst dstOffset n invert).1 := by
  by_cases hn : n ≤ 3
  · rw [copyNullMask, if_pos hn]
    exact setsBits_copyFew src dst invert hsrc hdst
  · exact (copies_copyNullMask src srcOffset dst dstOffset (Nat.lt_of_not_le hn) invert).sets

/-- A copy sets exactly the bits that it is asked to, and reports whether one of them is set, for all
masks, if and only if it copies no bit or more than three, or it does not invert and all positions fit
into 32 bits. -/
theorem copyNullMask_exact_iff (srcOffset dstOffset n : Nat) (invert : Bool) :
    (∀ src dst, Copies dstOffset n (fun k => src.bit (srcOffset + k) ^^ invert) dst
      (copyNullMask src srcOffset dst dstOffset n invert)) ↔
    3 < n ∨ n = 0 ∨ invert = false ∧ srcOffset + n ≤ 2 ^ 32 ∧ dstOffset + n ≤ 2 ^ 32 := by
  by_cases hn : 3 < n
  · exact iff_of_true (fun src dst => copies_copyNullMask src srcOffset dst dstOffset hn invert) (.inl hn)
  by_cases hzero : n = 0
  · subst hzero
    refine iff_of_true (fun src dst => ?_) (.inr (.inl rfl))
    exact ⟨SetsBits.of_len_zero _ _ dst, by simp [copyNullMask]⟩
  simp only [hn, hzero, false_or]
  constructor
  · intro h
    have hreport (src : Entries) : (∃ i < n, isNull src (srcOffset + i) = true) ↔
        ∃ k < n, (src.bit (srcOffset + k) ^^ invert) = true := by
      have hcopies := (h src fun _ => 0).report
      rw [copyNullMask, if_pos (by omega)] at hcopies
      simpa using hcopies
    obtain rfl : invert = false := by
      by_contra hinv
      obtain ⟨i, -, hbit⟩ := (hreport fun _ => 0).mpr ⟨0, by omega, by simp [Words.bit, hinv]⟩
      simp [isNull] at hbit
    refine ⟨rfl, ?_, ?_⟩
    · -- The last position is not read if it does not fit.
      have hbit := Words.bit_ofBits (by decide : 0 < 64) fun j => decide (j = srcOffset + (n - 1))
      obtain ⟨i, -, hi⟩ := (hreport _).mpr ⟨n - 1, by omega, by rw [hbit]; simp⟩
      rw [isNull_eq, hbit, decide_eq_true_eq] at hi
      omega
    · by_contra hdst
      have hkeep (src dst : Entries) (is : List Nat) : Words.bit (is.foldl (fun dst i =>
          setNull dst (dstOffset + i) (isNull src (srcOffset + i) ^^ false)) dst) (dstOffset + (n - 1)) =
            dst.bit (dstOffset + (n - 1)) := by
        induction is generalizing dst with
        | nil => rfl
        | cons i is ih =>
          rw [List.foldl_cons, ih, setsBits_setNull_mod, if_neg (by omega)]
      have hcopies := (h (fun _ => allOnes 64) fun _ => 0).sets.bit_of_lt (k := n - 1) (by omega)
      rw [copyNullMask, if_pos (by omega), hkeep] at hcopies
      have hmod := Nat.mod_lt (srcOffset + (n - 1)) (by decide : 0 < 64)
      simp only [Words.bit, getLsbD_allOnes, hmod] at hcopies
      simp at hcopies
  · rintro ⟨rfl, hsrc, hdst⟩ src dst
    refine ⟨setsBits_copyNullMask src dst false hsrc hdst, ?_⟩
    rw [copyNullMask, if_pos (by omega), List.any_eq_true]
    simp only [List.mem_range, Bool.xor_false]
    exact exists_congr fun k => and_congr_right fun hk => by rw [isNull_eq_bit src (by omega)]

/-- The set bit that replaces a null bit of value 0 is not reported. -/
theorem copyNullMask_inverts_one :
    ((copyNullMask (fun _ => 0) 0 (fun _ => 0) 0 1 true).1.bit 0,
      (copyNullMask (fun _ => 0) 0 (fun _ => 0) 0 1 true).2) = (true, false) := by
  decide

/-! ## Fills -/

/-- A bit of an entry of which the bits of `ones` are set, or all but those of `zeros` cleared. -/
theorem getLsbD_fillEntry (entry : BitVec 64) {ones zeros : BitVec 64} (isNull : Bool) {b : Nat}
    {p : Prop} [Decidable p] (hones : ones.getLsbD b = decide p) (hzeros : zeros.getLsbD b = !decide p) :
    (if isNull then entry ||| ones else entry &&& zeros).getLsbD b = if p then isNull else entry.getLsbD b := by
  cases isNull <;> by_cases hp : p <;> simp [hones, hzeros, hp]

theorem getLsbD_rangeMasks (lo : Nat) {hi b : Nat} (hhi : hi ≤ 64) (hb : b < 64) :
    (~~~nullLowerMasks lo &&& ~~~nullHighMasks (64 - hi)).getLsbD b = decide (lo ≤ b ∧ b < hi) ∧
      (nullLowerMasks lo ||| nullHighMasks (64 - hi)).getLsbD b = !decide (lo ≤ b ∧ b < hi) := by
  have hsub : 64 - (64 - hi) = hi := by omega
  rw [getLsbD_and]
  by_cases hlo : lo ≤ b <;> by_cases hlt : b < hi <;> simp [hlo, hlt] <;> omega

theorem getLsbD_lowerMasks {hi b : Nat} (hb : b < 64) : (nullLowerMasks hi).getLsbD b = decide (b < hi) ∧
      (~~~nullLowerMasks hi).getLsbD b = !decide (b < hi) := by
  simp [hb, -getLsbD_eq_getElem]

theorem setsBits_setNullRange (nullEntries : Entries) (offset n : Nat) (isNull : Bool) :
    SetsBits offset n (fun _ => isNull) nullEntries (setNullRange nullEntries offset n isNull) := by
  intro j
  have hb : j % 64 < 64 := Nat.mod_lt _ (by decide)
  have hj := Nat.div_add_mod j 64
  rw [setNullRange, Words.bit, Words.bit]
  generalize j / 64 = k at *
  generalize j % 64 = b at *
  subst hj
  by_cases hn : n = 0
  · rw [if_pos hn, if_neg (by omega)]
  rw [if_neg hn]
  -- Each entry is written at most once: as the first, as the last or as one between them.
  by_cases heq : offset / 64 = (offset + n) / 64
  · rw [if_pos heq]
    by_cases hk : k = offset / 64
    · subst hk
      rw [update_self]
      obtain ⟨hones, hzeros⟩ := getLsbD_rangeMasks (offset % 64)
        ((Nat.mod_lt (offset + n) (by decide : 0 < 64)).le) hb
      refine (getLsbD_fillEntry _ isNull hones hzeros).trans ?_
      have hiff : (offset % 64 ≤ b ∧ b < (offset + n) % 64) ↔
          (offset ≤ 64 * (offset / 64) + b ∧ 64 * (offset / 64) + b < offset + n) := by omega
      have hnot : ¬ (offset / 64 < offset / 64 ∧ offset / 64 < (offset + n) / 64) := by omega
      simp [hiff]
    · rw [update_of_ne hk, if_neg (by omega), if_neg (by omega)]
  · rw [if_neg heq]
    have hfirst : ¬ (offset / 64 < offset / 64 ∧ offset / 64 < (offset + n) / 64) := by omega
    have hlast : ¬ (offset / 64 < (offset + n) / 64 ∧ (offset + n) / 64 < (offset + n) / 64) := by omega
    have hne : (offset + n) / 64 ≠ offset / 64 := fun h => heq h.symm
    simp only [update_of_ne hne]
    by_cases hkFirst : k = offset / 64
    · subst hkFirst
      have hzeros : (nullLowerMasks (offset % 64)).getLsbD b = !decide (offset % 64 ≤ b) := by
        rw [(getLsbD_lowerMasks hb).1, ← decide_not, decide_eq_decide, not_le]
      have hentry : (if isNull then nullEntries (offset / 64) ||| ~~~nullLowerMasks (offset % 64)
          else nullEntries (offset / 64) &&& nullLowerMasks (offset % 64)).getLsbD b =
          if offset % 64 ≤ b then isNull else (nullEntries (offset / 64)).getLsbD b :=
        getLsbD_fillEntry _ isNull (getLsbD_not_nullLowerMasks _ hb) hzeros
      have hiff : offset % 64 ≤ b ↔
          (offset ≤ 64 * (offset / 64) + b ∧ 64 * (offset / 64) + b < offset + n) := by omega
      simp only [hiff] at hentry
      split
      · rw [update_of_ne heq, update_self, hentry]
      · rw [update_self, hentry]
    · by_cases hkLast : k = (offset + n) / 64
      · subst hkLast
        have hentry : (if isNull then
            nullEntries ((offset + n) / 64) ||| nullLowerMasks ((offset + n) % 64)
            else nullEntries ((offset + n) / 64) &&& ~~~nullLowerMasks ((offset + n) % 64)).getLsbD b =
            if b < (offset + n) % 64 then isNull else (nullEntries ((offset + n) / 64)).getLsbD b :=
          getLsbD_fillEntry _ isNull (getLsbD_lowerMasks hb).1 (getLsbD_lowerMasks hb).2
        have hiff : b < (offset + n) % 64 ↔
            (offset ≤ 64 * ((offset + n) / 64) + b ∧ 64 * ((offset + n) / 64) + b < offset + n) := by
          omega
        simp only [hiff] at hentry
        split
        · rw [update_self, hentry]
        · rw [update_of_ne hne, if_neg (by omega), if_neg (by omega)]
      · have hentry : ((if isNull then allOnes 64 else 0) : BitVec 64).getLsbD b = isNull := by
          cases isNull
          · exact getLsbD_zero
          · exact getLsbD_allOnes.trans (decide_eq_true hb)
        have hiff : (offset / 64 < k ∧ k < (offset + n) / 64) ↔
            (offset ≤ 64 * k + b ∧ 64 * k + b < offset + n) := by omega
        have hmiddle : (if offset / 64 < k ∧ k < (offset + n) / 64 then
            (if isNull then allOnes 64 else 0) else nullEntries k).getLsbD b =
            if offset ≤ 64 * k + b ∧ 64 * k + b < offset + n then isNull
            else (nullEntries k).getLsbD b := by
          by_cases hin : offset / 64 < k ∧ k < (offset + n) / 64
          · rw [if_pos hin, if_pos (hiff.mp hin), hentry]
          · rw [if_neg hin, if_neg fun h => hin (hiff.mpr h)]
        split
        · rw [update_of_ne hkLast, update_of_ne hkFirst, hmiddle]
        · rw [update_of_ne hkFirst, hmiddle]

end NullMask

end CycleJoin
