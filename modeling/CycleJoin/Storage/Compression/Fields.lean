import CycleJoin.Storage.Compression.Basic

/-!
# Fields of a page

`packSingle` sets exactly the bits of one value in a page and `unpackSingle` reads them, whichever words
the bits lie in. So do the packers of whole chunks. The mask of `int128_t` has no sign bit, so that
`packSingle` needs a bit width below 128 there; only such ones are chosen.
-/

namespace CycleJoin

open BitVec

namespace IntegerType

variable {t : IntegerType} {w : Nat}

/-! ## Words and masks -/

section
variable (t : IntegerType)

theorem compressedBits_pos : 0 < t.compressedBits := by cases t <;> decide

theorem compressedBits_le_bits : t.compressedBits ≤ t.bits := by cases t <;> decide

theorem bits_le_compressedBits : t.bits ≤ 4 * t.compressedBits := by cases t <;> decide

theorem compressedBits_eq : t.compressedBits = 8 ∨ t.compressedBits = 32 := by cases t <;> decide

theorem bits_pos : 0 < t.bits := by cases t <;> decide

end

/-- Where the sign bit is not set, a shift to the right is a logical one. -/
theorem getLsbD_shiftRight {x : t.Value} (hx : t = int128 → x.getLsbD (t.bits - 1) = false) (n k : Nat) :
    (t.shiftRight x n).getLsbD k = x.getLsbD (n + k) := by
  unfold shiftRight
  split
  · rename_i ht
    have hmsb : x.msb = false := by
      rw [msb_eq_getLsbD_last]
      exact hx ht
    rw [getLsbD_sshiftRight, hmsb]
    by_cases hk : n + k < t.bits
    · have hlt : ¬ t.bits ≤ k := by omega
      simp [hk, hlt]
    · rw [getLsbD_of_ge x (n + k) (by omega)]
      simp [hk]
  · exact getLsbD_ushiftRight ..

/-- The widths that the codec unpacks: the mask of `int128_t` has no sign bit. -/
def Unpacks (t : IntegerType) (w : Nat) : Prop := w < t.bits ∨ t ≠ int128 ∧ w = t.bits

theorem Unpacks.le (hw : t.Unpacks w) : w ≤ t.bits := hw.elim Nat.le_of_lt fun h => h.2.le

theorem getLsbD_all1sMask (hw : t.Unpacks w) (k : Nat) : (t.all1sMask w).getLsbD k = decide (k < w) := by
  unfold all1sMask
  have hpos := t.bits_pos
  rcases hw with hw | ⟨ht, rfl⟩
  case inr => rw [if_neg ht, if_pos rfl, getLsbD_allOnes]
  split
  · rw [getLsbD_shiftRight]
    · by_cases hk : k < w
      · have h1 : t.bits - 1 - w + k < t.bits := by omega
        have h2 : t.bits - 1 - w + k < t.bits - 1 := by omega
        simp [hk, h1, h2]
      · by_cases hlast : k = w
        · have h1 : t.bits - 1 - w + k = t.bits - 1 := by omega
          simp [hk, h1, hpos]
        · have h1 : ¬ t.bits - 1 - w + k < t.bits := by omega
          simp [hk, h1]
    · simp [hpos]
  · rw [if_neg (by omega), getLsbD]
    have hone : (1#t.bits <<< w).toNat = 2 ^ w := by rw [← twoPow_eq, toNat_twoPow_of_lt hw]
    have hle : 1#t.bits ≤ 1#t.bits <<< w := by
      rw [le_def, hone, toNat_ofNat, Nat.mod_eq_of_lt (Nat.one_lt_two_pow (by omega))]
      exact Nat.one_le_two_pow
    rw [toNat_sub_of_le hle, hone, toNat_ofNat,
      Nat.mod_eq_of_lt (Nat.one_lt_two_pow (by omega)), Nat.testBit_two_pow_sub_one]

theorem le_compressedField {delta shift : Nat} (h : delta + shift ≤ 5 * t.compressedBits) :
    delta + shift ≤ (t.compressedField delta shift + 1) * t.compressedBits := by
  unfold compressedField
  repeat' split
  all_goals omega

/-! ## Packing one value -/

/-- The bits of the mask are set, the others are kept. -/
theorem getLsbD_setBitsMatching {c : Nat} (out value mask : BitVec c) (k : Nat) :
    ((out ||| value &&& mask) &&& (~~~mask ||| value)).getLsbD k =
      if mask.getLsbD k then value.getLsbD k else out.getLsbD k := by
  rw [getLsbD_and, getLsbD_or, getLsbD_and, getLsbD_or, getLsbD_not]
  by_cases hk : k < c
  · cases hmask : mask.getLsbD k <;> cases hvalue : value.getLsbD k <;> simp [hk]
  · rw [getLsbD_of_ge mask k (by omega), getLsbD_of_ge out k (by omega)]
    simp

section
variable (hw : t.Unpacks w) (out : BitVec t.compressedBits) (value : t.Value) (shift : Nat) {k : Nat}
  (hk : k < t.compressedBits)
include hw hk

theorem getLsbD_setValue_left : (t.setValueForBitsMatchingMask false out value (t.all1sMask w) shift).getLsbD k =
      if shift ≤ k ∧ k < shift + w then value.getLsbD (k - shift) else out.getLsbD k := by
  have hbits := t.compressedBits_le_bits
  unfold setValueForBitsMatchingMask
  simp only [Bool.false_eq_true, if_false]
  rw [getLsbD_setBitsMatching, getLsbD_setWidth, getLsbD_setWidth, getLsbD_shiftLeft,
    getLsbD_shiftLeft, getLsbD_and, getLsbD_all1sMask hw]
  by_cases hle : shift ≤ k
  · have hiff : k - shift < w ↔ k < shift + w := by omega
    have hlt : k < t.bits := by omega
    by_cases hin : k < shift + w <;> simp [hk, hle, hlt, hiff, hin]
  · have hlt : k < shift := by omega
    simp [hle]

theorem getLsbD_setValue_right : (t.setValueForBitsMatchingMask true out value (t.all1sMask w) shift).getLsbD k =
      if shift + k < w then value.getLsbD (shift + k) else out.getLsbD k := by
  have hsign (ht : t = int128) : (t.all1sMask w).getLsbD (t.bits - 1) = false := by
    have hlt := hw.resolve_right fun h => h.1 ht
    rw [getLsbD_all1sMask hw]
    simp
    omega
  unfold setValueForBitsMatchingMask
  simp only [if_true]
  rw [getLsbD_setBitsMatching, getLsbD_setWidth, getLsbD_setWidth,
    getLsbD_shiftRight hsign, getLsbD_shiftRight fun ht => by rw [getLsbD_and, hsign ht, Bool.and_false],
    getLsbD_and, getLsbD_all1sMask hw]
  by_cases hin : shift + k < w <;> simp [hk, hin]

end

theorem nextField_bits (t : IntegerType) (cursor field : Nat) :
    (field + 1 + 1) * t.compressedBits = (field + 1) * t.compressedBits + t.compressedBits ∧
      (cursor + (field + 1)) * t.compressedBits = cursor * t.compressedBits + (field + 1) * t.compressedBits ∧
      t.compressedBits ≤ (field + 1) * t.compressedBits :=
  ⟨Nat.succ_mul .., add_mul .., Nat.le_mul_of_pos_left _ (by omega)⟩

/-- The words up to `field` get their part of the value. -/
theorem setsBits_packSingleField (hw : t.Unpacks w) (value : t.Value) (cursor : Nat) {shift : Nat}
    (hshift : shift < t.compressedBits) (field : Nat) (out : t.Page) :
    SetsBits (cursor * t.compressedBits + shift) (min w ((field + 1) * t.compressedBits - shift))
      value.getLsbD out (t.packSingleField value cursor shift (t.all1sMask w) field out) := by
  induction field with
  | zero =>
    refine SetsBits.update t.compressedBits_pos (by omega) (by omega) fun b hb => ?_
    rw [getLsbD_setValue_left hw _ _ _ hb]
    by_cases hin : shift ≤ b ∧ b < shift + w
    · rw [if_pos hin, if_pos (by omega)]
      congr 1
      omega
    · rw [if_neg hin, if_neg (by omega)]
  | succ field ih =>
    obtain ⟨hmul, hcursor, hle⟩ := t.nextField_bits cursor field
    generalize hf : (field + 1) * t.compressedBits = f at *
    have hstep : SetsBits (cursor * t.compressedBits + f) (min (w - (f - shift)) t.compressedBits)
        (fun b => value.getLsbD (f - shift + b))
        (t.packSingleField value cursor shift (t.all1sMask w) field out)
        (t.packSingleField value cursor shift (t.all1sMask w) (field + 1) out) := by
      refine SetsBits.update t.compressedBits_pos (by omega) (by omega) fun b hb => ?_
      rw [getLsbD_setValue_right hw _ _ _ hb, hf]
      by_cases hin : f - shift + b < w
      · rw [if_pos hin, if_pos (by omega)]
        congr 1
        omega
      · rw [if_neg hin, if_neg (by omega)]
    intro j
    rw [hstep j, ih j]
    by_cases hnew : cursor * t.compressedBits + f ≤ j ∧
        j < cursor * t.compressedBits + f + min (w - (f - shift)) t.compressedBits
    · have hidx : f - shift + (j - (cursor * t.compressedBits + f)) =
          j - (cursor * t.compressedBits + shift) := by omega
      rw [if_pos hnew, if_pos (by omega)]
      exact congrArg value.getLsbD hidx
    · rw [if_neg hnew]
      by_cases hold : cursor * t.compressedBits + shift ≤ j ∧
          j < cursor * t.compressedBits + shift + min w (f - shift)
      · rw [if_pos hold, if_pos (by omega)]
      · rw [if_neg hold, if_neg (by omega)]

theorem setsBits_packSingle (hw : t.Unpacks w) (src : t.Value) (dst : t.Page) (cursor dstOffset : Nat) :
    SetsBits (cursor * t.compressedBits + dstOffset * w) w src.getLsbD dst
      (t.packSingle src dst cursor w dstOffset) := by
  have hshift := Nat.mod_lt (dstOffset * w) t.compressedBits_pos
  have hsum := Nat.div_add_mod (dstOffset * w) t.compressedBits
  have hbits := hw.le.trans t.bits_le_compressedBits
  have hfield := t.le_compressedField (show w + dstOffset * w % t.compressedBits ≤ _ by omega)
  have hsets := setsBits_packSingleField hw src (cursor + dstOffset * w / t.compressedBits) hshift
    (t.compressedField w (dstOffset * w % t.compressedBits)) dst
  rw [Nat.min_eq_left (by omega), Nat.add_mul, mul_comm (dstOffset * w / t.compressedBits), add_assoc, hsum] at hsets
  exact hsets

/-! ## Unpacking one value -/

theorem getLsbD_unpackSingleField (src : t.Page) (cursor : Nat) {shift : Nat}
    (hshift : shift < t.compressedBits) (field k : Nat) :
    (t.unpackSingleField src cursor shift field).getLsbD k =
      (decide (k < t.bits ∧ k + shift < (field + 1) * t.compressedBits) &&
        src.bit (cursor * t.compressedBits + shift + k)) := by
  have hbits := t.compressedBits_le_bits
  induction field with
  | zero =>
    rw [unpackSingleField, getLsbD_shiftRight, getLsbD_setWidth]
    · by_cases hk : shift + k < t.compressedBits
      · rw [Words.getLsbD_eq_bit hk, ← add_assoc]
        have h1 : k < t.bits := by omega
        have h2 : shift + k < t.bits := by omega
        have h3 : k + shift < t.compressedBits := by omega
        simp [h1, h2, h3]
      · rw [getLsbD_of_ge _ _ (by omega)]
        have h3 : ¬ k + shift < t.compressedBits := by omega
        simp [h3]
    · intro ht
      subst ht
      rw [getLsbD_setWidth, getLsbD_of_ge (src cursor) _ (by decide), Bool.and_false]
  | succ field ih =>
    obtain ⟨hmul, hcursor, hle⟩ := t.nextField_bits cursor field
    rw [unpackSingleField, getLsbD_or, ih, getLsbD_shiftLeft, getLsbD_setWidth, hmul]
    generalize hf : (field + 1) * t.compressedBits = f at *
    by_cases hk : k < t.bits
    · by_cases hlow : k + shift < f
      · have h1 : k < f - shift := by omega
        have h2 : k + shift < f + t.compressedBits := by omega
        simp [hlow, h1, h2]
      · by_cases hin : k + shift < f + t.compressedBits
        · have hb : k - (f - shift) < t.compressedBits := by omega
          have hidx : cursor * t.compressedBits + f + (k - (f - shift)) =
              cursor * t.compressedBits + shift + k := by omega
          rw [Words.getLsbD_eq_bit hb, hcursor, hidx]
          have h1 : ¬ k < f - shift := by omega
          have h2 : k - (f - shift) < t.bits := by omega
          simp [hk, hin, h1, h2]
        · rw [getLsbD_of_ge _ (k - (f - shift)) (by omega)]
          simp [hlow, hin]
    · simp [hk]

theorem unpackSingle_eq (hw : t.Unpacks w) (src : t.Page) (cursor srcOffset : Nat) :
    t.unpackSingle src cursor w srcOffset = src.field t.bits (cursor * t.compressedBits + srcOffset * w) w := by
  have hshift := Nat.mod_lt (srcOffset * w) t.compressedBits_pos
  have hsum := Nat.div_add_mod (srcOffset * w) t.compressedBits
  have hbits := hw.le.trans t.bits_le_compressedBits
  have hfield := t.le_compressedField (show w + srcOffset * w % t.compressedBits ≤ _ by omega)
  apply eq_of_getLsbD_eq
  intro k hk
  have hidx : (cursor + srcOffset * w / t.compressedBits) * t.compressedBits +
      srcOffset * w % t.compressedBits + k = cursor * t.compressedBits + srcOffset * w + k := by
    rw [Nat.add_mul, mul_comm (srcOffset * w / t.compressedBits)]
    omega
  rw [unpackSingle, getLsbD_and, getLsbD_unpackSingleField _ _ hshift, getLsbD_all1sMask hw,
    Words.getLsbD_field, hidx]
  by_cases hkw : k < w
  · have hlt : k + srcOffset * w % t.compressedBits <
        (t.compressedField w (srcOffset * w % t.compressedBits) + 1) * t.compressedBits := by omega
    simp [hkw, hlt]
  · simp [hkw]

end IntegerType

/-! ## Chunks -/

/-- The bits of values of `w` bits, one after the other. -/
def packedBits {n : Nat} (w : Nat) (src : Nat → BitVec n) (k : Nat) : Bool :=
  (src (k / w)).getLsbD (k % w)

theorem packedBits_mul_add {n w k : Nat} (hk : k < w) (src : Nat → BitVec n) (i : Nat) :
    packedBits w src (i * w + k) = (src i).getLsbD k := by
  rw [packedBits, mul_comm, Nat.mul_add_div (by omega), Nat.mul_add_mod, Nat.div_eq_of_lt hk,
    Nat.mod_eq_of_lt hk, add_zero]

/-- Where the bits of a value stand, its lowest bits are read. -/
theorem field_eq_setWidth {c n m start w : Nat} {words : Words c} {v : BitVec m}
    (h : ∀ k < w, words.bit (start + k) = v.getLsbD k) :
    words.field n start w = (v.setWidth w).setWidth n := by
  apply eq_of_getLsbD_eq
  intro k _
  rw [Words.getLsbD_field]
  by_cases hk : k < w
  · simp [h k hk]
  · simp [hk]

namespace Int128Packer

open IntegerType (int128)

/-- One value is packed in words of its own. -/
theorem setsBits_packWords {numWords : Nat} (hle : numWords ≤ 4) (value : BitVec 128) (cursor : Nat)
    (out : Words 32) :
    SetsBits (cursor * 32) (numWords * 32) value.getLsbD out ((List.range numWords).foldl
        (fun out word => Function.update out (cursor + word) ((value.sshiftRight (32 * word)).setWidth 32)) out) := by
  have hword : ∀ word < numWords, ∀ out : Words 32,
      SetsBits (cursor * 32 + word * 32) 32 (fun b => value.getLsbD (32 * word + b)) out
        (Function.update out (cursor + word) ((value.sshiftRight (32 * word)).setWidth 32)) := by
    intro word hword out
    refine SetsBits.update (by decide) (by omega) (by omega) fun b hb => ?_
    have hidx : (cursor + word) * 32 + b - (cursor * 32 + word * 32) = b := by omega
    have hshift : 32 * word + b < 128 := by omega
    have hb' : ¬ 128 ≤ b := by omega
    rw [if_pos (by omega), getLsbD_setWidth, getLsbD_sshiftRight, hidx]
    simp [hb, hb', hshift]
  exact (setsBits_foldl_range numWords hword out).congr fun k _ =>
    congrArg value.getLsbD (Nat.div_add_mod k 32)

theorem setsBits_packDelta {numWords : Nat} (hle : numWords ≤ 4) (src : Nat → BitVec 128)
    (cursor : Nat) (out : Words 32) :
    SetsBits (cursor * 32) (chunkSize * (numWords * 32)) (packedBits (numWords * 32) src) out
      (packDelta numWords src cursor out) := by
  have hvalue : ∀ i < chunkSize, ∀ out : Words 32,
      SetsBits (cursor * 32 + i * (numWords * 32)) (numWords * 32) (src i).getLsbD out ((List.range numWords).foldl
          (fun out word => Function.update out (cursor + (numWords * i + word))
            (((src i).sshiftRight (32 * word)).setWidth 32)) out) := by
    intro i _ out
    have hsets := setsBits_packWords hle (src i) (cursor + numWords * i) out
    have hstart : (cursor + numWords * i) * 32 = cursor * 32 + i * (numWords * 32) := by
      rw [Nat.add_mul, mul_comm numWords i, mul_assoc]
    simp only [add_assoc] at hsets
    rwa [hstart] at hsets
  exact setsBits_foldl_range chunkSize hvalue out

theorem setsBits_packSingles {w : Nat} (hw : w < 128) (src : Nat → BitVec 128) (out : Words 32)
    (cursor : Nat) : SetsBits (cursor * 32) (chunkSize * w) (packedBits w src) out
      ((List.range chunkSize).foldl (fun out i => int128.packSingle (src i) out cursor w i) out) :=
  setsBits_foldl_range chunkSize (fun i _ out =>
    @IntegerType.setsBits_packSingle int128 w (.inl hw) (src i) out cursor i) out

theorem setsBits_pack {w : Nat} (hw : w ≤ 128) (src : Nat → BitVec 128) (out : Words 32) (cursor : Nat) :
    SetsBits (cursor * 32) (chunkSize * w) (packedBits w src) out (pack src out cursor w) := by
  unfold pack
  split
  · exact SetsBits.of_len_zero _ _ out
  · exact setsBits_packDelta (by decide) src cursor out
  · exact setsBits_packDelta (by decide) src cursor out
  · exact setsBits_packDelta (by decide) src cursor out
  · exact setsBits_packDelta (by decide) src cursor out
  · rename_i h128
    exact setsBits_packSingles (lt_of_le_of_ne hw h128) src out cursor

theorem getLsbD_joinWords (src : Words 32) (cursor : Nat) {shift : Nat} (hshift : shift < 32) (word k : Nat) :
    (joinWords src cursor shift word).getLsbD k =
      (decide (k < 128 ∧ k + shift < 32 * (word + 1)) && src.bit (cursor * 32 + shift + k)) := by
  induction word with
  | zero =>
    rw [joinWords, getLsbD_setWidth, getLsbD_ushiftRight]
    by_cases hk : shift + k < 32
    · have hlt : k < 128 := by omega
      have hin : k + shift < 32 := by omega
      rw [Words.getLsbD_eq_bit hk, add_assoc]
      simp [hin]
    · have hout : ¬ k + shift < 32 := by omega
      rw [getLsbD_of_ge _ _ (by omega)]
      simp [hout]
  | succ word ih =>
    rw [joinWords, getLsbD_or, ih, getLsbD_shiftLeft, getLsbD_setWidth]
    by_cases hlow : k + shift < 32 * (word + 1)
    · have h1 : k < 32 * (word + 1) - shift := by omega
      have h2 : k + shift < 32 * (word + 1 + 1) := by omega
      simp [hlow, h1, h2]
    · by_cases hin : k + shift < 32 * (word + 1 + 1)
      · have hidx : (cursor + (word + 1)) * 32 + (k - (32 * (word + 1) - shift)) = cursor * 32 + shift + k := by omega
        rw [Words.getLsbD_eq_bit (show k - (32 * (word + 1) - shift) < 32 by omega), hidx]
        have h1 : ¬ k < 32 * (word + 1) - shift := by omega
        have h2 : k - (32 * (word + 1) - shift) < 128 := by omega
        simp [hlow, hin, h1, h2]
      · rw [getLsbD_of_ge _ (k - (32 * (word + 1) - shift)) (by omega)]
        simp [hlow, hin]

/-- Words that hold a field up to its last bit are joined to the field. -/
theorem joinWords_eq_field (src : Words 32) (cursor : Nat) {shift word w : Nat} (hshift : shift < 32)
    (hw : w + shift = 32 * (word + 1)) (start : Nat) (hstart : cursor * 32 + shift = start) :
    joinWords src cursor shift word = src.field 128 start w := by
  apply eq_of_getLsbD_eq
  intro k hk
  have hiff : k + shift < 32 * (word + 1) ↔ k < w := by omega
  rw [getLsbD_joinWords src cursor hshift, Words.getLsbD_field, hstart]
  by_cases hkw : k < w <;> simp [hk, hiff]

theorem unpackLast_eq {w : Nat} (hw : w < 128) (hmod : w % 32 ≠ 0) (src : Words 32) (cursor : Nat) :
    unpackLast src (cursor + (chunkSize - 1) * w / 32) w = src.field 128 (cursor * 32 + 31 * w) w := by
  have hshift : w * 31 % 32 < 32 := Nat.mod_lt _ (by decide)
  have hstart : (cursor + (chunkSize - 1) * w / 32) * 32 + w * 31 % 32 = cursor * 32 + 31 * w := by
    unfold chunkSize
    omega
  -- the field ends with the chunk, so that its last word is full
  have hend : w * 31 % 32 + w % 32 = 32 * (w - w * 31 / 32 - w / 32) := by omega
  unfold unpackLast
  repeat' split
  all_goals exact joinWords_eq_field src _ hshift (by omega) _ hstart

theorem unpackDelta_eq (src : Words 32) (cursor lastWord i : Nat) : unpackDelta lastWord src cursor i =
      src.field 128 (cursor * 32 + i * (32 * (lastWord + 1))) (32 * (lastWord + 1)) := by
  refine joinWords_eq_field src _ (show 0 < 32 by decide) rfl _ ?_
  rw [add_zero, Nat.add_mul, mul_comm (lastWord + 1) i, mul_assoc, mul_comm 32]

theorem unpack_eq {w : Nat} (hw : w ≤ 128) (src : Words 32) (cursor : Nat) {i : Nat}
    (hi : i < chunkSize) : unpack src cursor w i = src.field 128 (cursor * 32 + i * w) w := by
  unfold unpack
  split
  · apply eq_of_getLsbD_eq
    intro k _
    rw [Words.getLsbD_field]
    simp [unpackDelta0]
  · exact unpackDelta_eq src cursor 0 i
  · exact unpackDelta_eq src cursor 1 i
  · exact unpackDelta_eq src cursor 2 i
  · exact unpackDelta_eq src cursor 3 i
  · rename_i h0 h32 h64 h96 h128
    have hw := lt_of_le_of_ne hw h128
    by_cases hlast : i < chunkSize - 1
    · exact (if_pos hlast).trans (IntegerType.unpackSingle_eq (t := int128) (.inl hw) src cursor i)
    · obtain rfl : i = 31 := by
        unfold chunkSize at *
        omega
      have hmod : w % 32 ≠ 0 := by
        intro hmod
        have hcases : w = 0 ∨ w = 32 ∨ w = 64 ∨ w = 96 := by omega
        exact hcases.elim h0 fun h => h.elim h32 fun h => h.elim h64 h96
      exact unpackLast_eq hw hmod src cursor

/-- A value is packed in its own bits alone and read back modulo `2 ^ w`. A chunk of 128-bit values is
packed as the single values are, and read back. -/
theorem packSingle_exact (w cursor : Nat) :
    (∀ t : IntegerType, t.Unpacks w → ∀ (v : t.Value) (dst : t.Page) (i : Nat),
      SetsBits (cursor * t.compressedBits + i * w) w v.getLsbD dst (t.packSingle v dst cursor w i) ∧
        t.unpackSingle (t.packSingle v dst cursor w i) cursor w i = (v.setWidth w).setWidth t.bits) ∧
      (w ≤ 128 → ∀ src : Nat → BitVec 128, (∀ i < chunkSize, (src i).toNat < 2 ^ w) → ∀ out : Words 32,
        SetsBits (cursor * 32) (chunkSize * w) (packedBits w src) out (pack src out cursor w) ∧
        (w < 128 → pack src out cursor w =
          (List.range chunkSize).foldl (fun out i => int128.packSingle (src i) out cursor w i) out) ∧
        ∀ i < chunkSize, unpack (pack src out cursor w) cursor w i = src i) := by
  refine ⟨fun t hw v dst i => ?_, fun hw src hsrc out => ?_⟩
  · have hsets := IntegerType.setsBits_packSingle hw v dst cursor i
    refine ⟨hsets, ?_⟩
    rw [IntegerType.unpackSingle_eq hw]
    exact field_eq_setWidth fun k hk => hsets.bit_of_lt hk
  · have hsets := setsBits_pack hw src out cursor
    refine ⟨hsets, fun hlt => ?_, fun i hi => ?_⟩
    · exact hsets.unique (setsBits_packSingles hlt src out cursor)
    · have hbits : ∀ k < w, (pack src out cursor w).bit (cursor * 32 + i * w + k) = (src i).getLsbD k := by
        intro k hk
        have hin : i * w + k < chunkSize * w := by
          have := Nat.mul_le_mul_right w (Nat.succ_le_of_lt hi)
          rw [Nat.succ_mul] at this
          omega
        rw [add_assoc, hsets.bit_of_lt hin, packedBits_mul_add hk]
      rw [unpack_eq hw _ _ hi, field_eq_setWidth hbits]
      apply eq_of_toNat_eq
      have := hsrc i hi
      have := (src i).isLt
      simp only [toNat_setWidth]
      rw [Nat.mod_eq_of_lt (b := 2 ^ w) (by omega), Nat.mod_eq_of_lt (by omega)]

theorem packSingle_exact_five :
    (IntegerType.uint8.unpackSingle (IntegerType.uint8.packSingle 77#8 (fun _ => 0) 0 5 3) 0 5 3 = 13#8) ∧
      ∀ i < chunkSize, unpack (pack (fun _ => 3#128) (fun _ => 0) 0 5) 0 5 i = 3#128 :=
  ⟨((packSingle_exact 5 0).1 .uint8 (.inl (by decide)) 77#8 (fun _ => 0) 3).2,
    ((packSingle_exact 5 0).2 (by decide) (fun _ => 3#128) (fun _ _ => by decide) fun _ => 0).2.2⟩

/-- The mask of 128 bits lacks the sign bit, and the bit is lost. -/
theorem unpackSingle_signBit :
    int128.unpackSingle (int128.packSingle (1#128 <<< 127) (fun _ => 0) 0 128 0) 0 128 0 = 0 := by
  decide

end Int128Packer

namespace BitpackInfo

variable {t : IntegerType} {w : Nat}

theorem fastpack_of_ne (ht : t ≠ .int128) (src : Nat → t.Value) (out : t.Page) (cursor w : Nat) :
    fastpack src out cursor w = fun word =>
      if cursor ≤ word ∧ word < cursor + chunkSize * w / t.compressedBits then
        ofBits (fun b => packedBits w src ((word - cursor) * t.compressedBits + b)) t.compressedBits
      else out word := by
  cases t with
  | int128 => exact absurd rfl ht
  | _ => rfl

theorem fastunpack_of_ne (ht : t ≠ .int128) (src : t.Page) (cursor w i : Nat) :
    fastunpack src cursor w i = src.field t.bits (cursor * t.compressedBits + i * w) w := by
  cases t with
  | int128 => exact absurd rfl ht
  | _ => rfl

/-- Chunks start and end with words. -/
theorem compressedBits_dvd (t : IntegerType) (w : Nat) : t.compressedBits ∣ chunkSize * w := by
  refine dvd_trans ?_ (Nat.dvd_mul_right chunkSize w)
  cases t <;> decide

theorem setsBits_fastpack (hw : w < t.bits) (src : Nat → t.Value) (out : t.Page) (cursor : Nat) :
    SetsBits (cursor * t.compressedBits) (chunkSize * w) (packedBits w src) out (fastpack src out cursor w) := by
  by_cases ht : t = .int128
  · subst ht
    exact Int128Packer.setsBits_pack hw.le src out cursor
  · intro j
    obtain ⟨numWords, hwords⟩ := compressedBits_dvd t w
    have hpos := t.compressedBits_pos
    have hj := Nat.div_add_mod j t.compressedBits
    have hr := Nat.mod_lt j hpos
    have hiff : cursor ≤ j / t.compressedBits ∧ j / t.compressedBits < cursor + numWords ↔
        cursor * t.compressedBits ≤ j ∧ j < cursor * t.compressedBits + t.compressedBits * numWords := by
      rw [Nat.le_div_iff_mul_le hpos, Nat.div_lt_iff_lt_mul hpos, Nat.add_mul, mul_comm numWords]
    rw [fastpack_of_ne ht, Words.bit, hwords, Nat.mul_div_cancel_left _ hpos]
    by_cases hin : cursor ≤ j / t.compressedBits ∧ j / t.compressedBits < cursor + numWords
    · have hidx : (j / t.compressedBits - cursor) * t.compressedBits + j % t.compressedBits =
          j - cursor * t.compressedBits := by
        rw [Nat.sub_mul, mul_comm (j / _)]
        have hle : cursor * t.compressedBits ≤ t.compressedBits * (j / t.compressedBits) := by
          rw [mul_comm]
          exact Nat.mul_le_mul_left _ hin.1
        omega
      rw [if_pos hin, if_pos (hiff.mp hin), getLsbD_ofBits, hidx]
      simp [hr]
    · rw [if_neg hin, if_neg (mt hiff.mpr hin)]
      rfl

theorem fastunpack_eq (hw : t.Unpacks w) (src : t.Page) (cursor : Nat) {i : Nat} (hi : i < chunkSize) :
    fastunpack src cursor w i = src.field t.bits (cursor * t.compressedBits + i * w) w := by
  by_cases ht : t = .int128
  · subst ht
    exact Int128Packer.unpack_eq hw.le src cursor hi
  · exact fastunpack_of_ne ht src cursor w i

end BitpackInfo

end CycleJoin
