import CycleJoin.Storage.Compression.Pages

/-!
# What the packing info can represent

`decode` gives a value back from the lowest bits of its difference to the offset if the difference fits in
the bits, with or without a sign. `getPackingInfo` chooses the bits so that all values between the minimum
and the maximum fit, except when the minimum of a signed type has no absolute value in it.
-/

namespace CycleJoin

open BitVec Option

/-- Adding a power of two above a number sets a bit. -/
theorem xor_two_pow_of_lt {x k : Nat} (hx : x < 2 ^ k) : x ^^^ 2 ^ k = 2 ^ k + x := by
  have hor := Nat.two_pow_add_eq_or_of_lt hx 1
  rw [mul_one] at hor
  rw [hor]
  apply Nat.eq_of_testBit_eq
  intro i
  rw [Nat.testBit_xor, Nat.testBit_or, Nat.testBit_two_pow]
  by_cases hi : k = i
  · simp [← hi, Nat.testBit_lt_two_pow hx]
  · simp [hi]

namespace IntegerType

variable {t : IntegerType}

theorem toInt_of_signed (h : t.signed) (x : t.Value) : t.toInt x = BitVec.toInt x := if_pos h

variable {x : t.Value}

/-- A value that is not negative is the number of its bits. -/
theorem toInt_eq_toNat (h : 0 ≤ t.toInt x) : t.toInt x = x.toNat := by
  unfold toInt at *
  split at h
  · rw [toInt_eq_toNat_cond] at h ⊢
    split at h <;> omega
  · rename_i hsigned
    exact if_neg hsigned

theorem toInt_injective {x y : t.Value} (h : t.toInt x = t.toInt y) : x = y := by
  unfold toInt at h
  split at h
  · exact toInt_inj.mp h
  · exact eq_of_toNat_eq (by omega)

@[simp] theorem toInt_zero (t : IntegerType) : t.toInt 0 = 0 := by cases t <;> rfl

theorem lt_zero_iff : t.lt x 0 ↔ t.toInt x < 0 := by rw [lt, toInt_zero]

theorem signed_of_neg (h : t.toInt x < 0) : t.signed := by
  by_contra hsigned
  rw [toInt, if_neg hsigned] at h
  omega

theorem toInt_max (x y : t.Value) : t.toInt (t.max x y) = Max.max (t.toInt x) (t.toInt y) := by
  by_cases h : t.lt x y
  · have hlt : t.toInt x < t.toInt y := h
    rw [max, if_pos h]
    omega
  · have hle : ¬ t.toInt x < t.toInt y := h
    rw [max, if_neg h]
    omega

/-- The absolute value, where the type has it. -/
theorem toInt_abs {x a : t.Value} (h : t.abs x = some a) (hx : t.signed → x ≠ intMin t.bits) :
    t.toInt a = (t.toInt x).natAbs := by
  by_cases hpos : t.signed = false ∨ 0 ≤ t.toInt x
  · rw [abs, if_pos hpos] at h
    obtain rfl := some.inj h
    have hnonneg : 0 ≤ t.toInt x := by
      rcases hpos with hunsigned | hnonneg
      · rw [toInt, if_neg (by simp [hunsigned])]
        omega
      · exact hnonneg
    omega
  · have hsigned : t.signed := by simpa using fun h => hpos (.inl h)
    rw [abs, if_neg hpos, if_neg fun hmin => hx hsigned hmin.2] at h
    obtain rfl := some.inj h
    have hneg : ¬ 0 ≤ t.toInt x := fun h => hpos (.inr h)
    rw [toInt_of_signed hsigned] at hneg ⊢
    rw [toInt_of_signed hsigned, toInt_neg_of_ne_intMin (hx hsigned)]
    omega

theorem toInt_intMin (h : t.signed) : t.toInt (intMin t.bits) = -2 ^ (t.bits - 1) := by
  cases t <;> first | rfl | exact absurd h (by decide)

/-- The minimum of a signed type is below its values. -/
theorem intMin_le (h : t.signed) (x : t.Value) : t.toInt (intMin t.bits) ≤ t.toInt x := by
  rw [toInt_intMin h, toInt_of_signed h]
  exact le_toInt x

theorem intMin_neg (h : t.signed) : t.toInt (intMin t.bits) < 0 := by
  rw [toInt_intMin h]
  exact Int.neg_neg_of_pos (Int.pow_pos (by decide))

theorem lt_two_pow_bitWidth (x : t.Value) : x.toNat < 2 ^ t.bitWidth x := Nat.size_le.mp le_rfl

/-- A negative value needs all bits. -/
theorem bitWidth_of_neg (h : BitVec.toInt x < 0) : t.bits ≤ t.bitWidth x := by
  have hpos := t.bits_pos
  have hpow := Nat.two_pow_pred_mul_two t.bits_pos
  rw [toInt_eq_toNat_cond] at h
  have hle : 2 ^ (t.bits - 1) ≤ x.toNat := by split at h <;> omega
  have := Nat.lt_size.mpr hle
  unfold bitWidth
  omega

theorem bitWidth_sub_self_lt (h : t.toInt x < 0) : t.bitWidth (x - x) < t.bitWidth x := by
  rw [toInt_of_signed (signed_of_neg h)] at h
  have hbits := bitWidth_of_neg h
  have hpos := t.bits_pos
  have hzero : t.bitWidth (x - x) = 0 := by simp [bitWidth]
  omega

end IntegerType

namespace BitpackInfo

open IntegerType

variable {t : IntegerType} {info : BitpackInfo t} {w : Nat}

/-- The lowest `w` bits of a value. -/
def lowBits (w : Nat) (x : t.Value) : t.Value := (x.setWidth w).setWidth t.bits

theorem toNat_lowBits (hw : w < t.bits) (x : t.Value) : (lowBits w x).toNat = x.toNat % 2 ^ w := by
  have hlt : x.toNat % 2 ^ w < 2 ^ t.bits :=
    (Nat.mod_lt _ (Nat.two_pow_pos w)).trans_le (Nat.pow_le_pow_right (by decide) (by omega))
  rw [lowBits, toNat_setWidth, toNat_setWidth, Nat.mod_eq_of_lt hlt]

variable {x : t.Value}

theorem lowBits_of_lt (hw : w < t.bits) (hx : x.toNat < 2 ^ w) : lowBits w x = x :=
  eq_of_toNat_eq (by rw [toNat_lowBits hw, Nat.mod_eq_of_lt hx])

theorem xor_two_pow_of_ge {x k : Nat} (hle : 2 ^ k ≤ x) (hlt : x < 2 * 2 ^ k) : x ^^^ 2 ^ k = x - 2 ^ k := by
  have hsub := xor_two_pow_of_lt (show x - 2 ^ k < 2 ^ k by omega)
  rw [Nat.add_sub_of_le hle] at hsub
  calc x ^^^ 2 ^ k = (x - 2 ^ k) ^^^ 2 ^ k ^^^ 2 ^ k := by rw [hsub]
    _ = x - 2 ^ k := by rw [Nat.xor_assoc, Nat.xor_self, Nat.xor_zero]

/-- A value of `k + 1` bits, the highest one its sign, is extended. -/
theorem toInt_extend {n k s : Nat} (hk : k + 1 ≤ n) {y : BitVec n} (hlo : -2 ^ k ≤ y.toInt)
    (hhi : y.toInt < 2 ^ k) (hs : s = y.toNat % 2 ^ (k + 1)) :
    ((s ^^^ 2 ^ k : Nat) : Int) - 2 ^ k = y.toInt := by
  have hpow : 2 ^ n = 2 ^ (k + 1) * 2 ^ (n - (k + 1)) := by
    rw [← pow_add]
    congr 1
    omega
  have hsucc : 2 ^ (k + 1) = 2 * 2 ^ k := Nat.pow_succ'
  have hcast : ((2 ^ k : Nat) : Int) = 2 ^ k := by simp
  have hm := Nat.two_pow_pos (n - (k + 1))
  rw [hsucc] at hs hpow
  by_cases hneg : y.toInt < 0
  · -- its bits are those of a number just below a power of two
    have hnat : y.toNat = 2 ^ n - (-y.toInt).toNat := by
      rw [toInt_eq_toNat_cond] at hneg ⊢
      split at hneg <;> omega
    have hmod : y.toNat % (2 * 2 ^ k) = 2 * 2 ^ k - (-y.toInt).toNat := by
      obtain ⟨m, hm⟩ := Nat.exists_eq_add_of_lt hm
      rw [zero_add] at hm
      have heq : y.toNat = 2 * 2 ^ k * m + (2 * 2 ^ k - (-y.toInt).toNat) := by
        rw [hnat, hpow, hm, Nat.mul_add]
        omega
      rw [heq, Nat.mul_add_mod, Nat.mod_eq_of_lt (by omega)]
    rw [xor_two_pow_of_ge (by omega) (by omega)]
    omega
  · have hnat : y.toNat = y.toInt := by
      rw [toInt_eq_toNat_cond] at hneg ⊢
      split at hneg <;> omega
    have hmod : y.toNat % (2 * 2 ^ k) = y.toNat := Nat.mod_eq_of_lt (by omega)
    rw [xor_two_pow_of_lt (by omega)]
    omega

theorem bitVecToInt_of_lt (hx : x.toNat < 2 ^ (t.bits - 1)) : BitVec.toInt x = x.toNat := by
  have hpow := Nat.two_pow_pred_mul_two t.bits_pos
  exact toInt_eq_toNat_of_lt (by omega)

/-- Bits below the sign bit of the type are a number. -/
theorem toInt_of_lt (hx : x.toNat < 2 ^ (t.bits - 1)) : t.toInt x = x.toNat := by
  unfold toInt
  split
  · exact bitVecToInt_of_lt hx
  · rfl

/-- `SignExtend` gives a signed value back that fits. -/
theorem signExtend_lowBits (hpos : 0 < w) (hw : w < t.bits) {y : t.Value}
    (hlo : -2 ^ (w - 1) ≤ BitVec.toInt y) (hhi : BitVec.toInt y < 2 ^ (w - 1)) :
    signExtend w (lowBits w y) = some y := by
  obtain ⟨k, rfl⟩ : ∃ k, w = k + 1 := ⟨w - 1, by omega⟩
  rw [Nat.add_sub_cancel] at hlo hhi
  have hmask : lowBits (k + 1) y &&& t.all1sMask (k + 1) = lowBits (k + 1) y := by
    apply eq_of_getLsbD_eq
    intro i _
    rw [getLsbD_and, getLsbD_all1sMask (.inl hw), lowBits]
    by_cases hi : i < k + 1 <;> simp [hi]
  have hpow : (1#t.bits <<< k).toNat = 2 ^ k := by rw [← twoPow_eq, toNat_twoPow_of_lt (by omega)]
  have hxor : (lowBits (k + 1) y ^^^ 1#t.bits <<< k).toNat = y.toNat % 2 ^ (k + 1) ^^^ 2 ^ k := by
    rw [toNat_xor, toNat_lowBits hw, hpow]
  have hextend := toInt_extend hw.le hlo hhi rfl
  have hsum : ((lowBits (k + 1) y ^^^ 1#t.bits <<< k).toNat : Int) = BitVec.toInt y + 2 ^ k := by
    omega
  have hle : 2 ^ (k + 1) ≤ 2 ^ (t.bits - 1) := Nat.pow_le_pow_right (by decide) (by omega)
  have hcast : ((2 ^ k : Nat) : Int) = 2 ^ k := by simp
  have hx : (lowBits (k + 1) y ^^^ 1#t.bits <<< k).toNat < 2 ^ (t.bits - 1) := by omega
  have hm : (1#t.bits <<< k).toNat < 2 ^ (t.bits - 1) := by omega
  have hdiff : t.toInt (lowBits (k + 1) y ^^^ 1#t.bits <<< k) - t.toInt (1#t.bits <<< k) = BitVec.toInt y := by
    rw [toInt_of_lt hx, toInt_of_lt hm]
    omega
  have hsub : (lowBits (k + 1) y ^^^ 1#t.bits <<< k) - 1#t.bits <<< k = y := by
    apply toInt_inj.mp
    rw [toInt_sub, bitVecToInt_of_lt hx, bitVecToInt_of_lt hm, hsum, hpow, hcast,
      Int.add_sub_cancel, toInt_bmod_cancel]
  rw [signExtend, hmask, Nat.add_sub_cancel, sub, hsub, if_neg]
  rintro ⟨rfl, hout⟩
  have hlt : 2 ^ k < 2 ^ 127 := Nat.pow_lt_pow_right (by decide) (Nat.lt_of_succ_lt_succ hw)
  omega

/-! ## Cases of the packing info -/

theorem eq_sub_of_sub_eq_some {x y d : t.Value} (h : t.sub x y = some d) : d = x - y := by
  unfold sub at h
  split at h
  · exact absurd h (by simp)
  · exact (some.inj h).symm

/-- The ways in which `getPackingInfo` returns. -/
theorem getPackingInfo_cases {min max : t.Value} (h : t.getPackingInfo min max = some info) :
    (0 < t.toInt min ∧ info = ⟨t.bitWidth (max - min), false, min⟩) ∨
    (t.toInt min < 0 ∧ t.toInt max < 0 ∧ t.bitWidth (min - max) < t.bitWidth max ∧
      info = ⟨t.bitWidth (min - max) + 1, true, max⟩) ∨
    (t.toInt min < 0 ∧ ¬ (t.toInt max < 0 ∧ t.bitWidth (min - max) < t.bitWidth max) ∧
      ∃ a b, t.abs min = some a ∧ t.abs max = some b ∧ info = ⟨t.bitWidth (t.max a b) + 1, true, 0⟩) ∨
    (0 ≤ t.toInt min ∧ ∃ a b, t.abs min = some a ∧ t.abs max = some b ∧
      info = ⟨t.bitWidth (t.max a b), false, 0⟩) := by
  have hzero := t.toInt_zero
  simp only [getPackingInfo, bind_eq_bind, bind_eq_some_iff] at h
  obtain ⟨range, hrange, h⟩ := h
  split at h
  · -- a frame of reference from the minimum
    rename_i hfor
    obtain ⟨⟨hmin, hmax⟩, -⟩ := hfor
    rw [frameRange, if_pos ⟨hmin, hmax⟩] at hrange
    obtain rfl := eq_sub_of_sub_eq_some hrange
    exact .inl ⟨hzero ▸ hmin, (some.inj h).symm⟩
  · split at h
    · -- a frame of reference from the maximum
      rename_i hfor
      obtain ⟨⟨hmin, hmax⟩, hsaves⟩ := hfor
      have hnot : ¬ (t.lt 0 min ∧ t.lt 0 max) := by
        unfold lt at *
        omega
      rw [frameRange, if_neg hnot, if_pos ⟨hmin, hmax⟩] at hrange
      obtain rfl := eq_sub_of_sub_eq_some hrange
      exact .inr (.inl ⟨lt_zero_iff.mp hmin, lt_zero_iff.mp hmax, hsaves, (some.inj h).symm⟩)
    · rename_i hfor
      simp only [bind_eq_some_iff] at h
      obtain ⟨a, ha, b, hb, h⟩ := h
      split at h
      · rename_i hmin
        refine .inr (.inr (.inl ⟨lt_zero_iff.mp hmin, ?_, a, b, ha, hb, (some.inj h).symm⟩))
        rintro ⟨hmax, hsaves⟩
        have hnot : ¬ (t.lt 0 min ∧ t.lt 0 max) := by
          unfold lt at *
          omega
        have hneg : t.lt min 0 ∧ t.lt max 0 := ⟨hmin, lt_zero_iff.mpr hmax⟩
        rw [frameRange, if_neg hnot, if_pos hneg] at hrange
        obtain rfl := eq_sub_of_sub_eq_some hrange
        exact hfor ⟨hneg, hsaves⟩
      · rename_i hmin
        rw [lt_zero_iff] at hmin
        exact .inr (.inr (.inr ⟨by omega, a, b, ha, hb, (some.inj h).symm⟩))

/-- The value is given back. -/
def GivesBack (info : BitpackInfo t) (v : t.Value) : Prop :=
  info.Encodes v ∧ info.decode (lowBits info.bitWidth (v - info.offset)) = some v

theorem givesBack_of_lt {offset v : t.Value} (hw : w < t.bits) (hoff : 0 ≤ t.toInt offset)
    (hle : t.toInt offset ≤ t.toInt v) (hlt : (v - offset).toNat < 2 ^ w) :
    GivesBack ⟨w, false, offset⟩ v := by
  have hv := toInt_eq_toNat (hoff.trans hle)
  have ho := toInt_eq_toNat hoff
  have hnat : (v - offset).toNat = v.toNat - offset.toNat := toNat_sub_of_le (le_def.mpr (by omega))
  have hsmall : (v - offset).toNat < 2 ^ (t.bits - 1) := hlt.trans_le (Nat.pow_le_pow_right (by decide) (by omega))
  have hdiff : t.toInt (v - offset) = t.toInt v - t.toInt offset := by
    rw [toInt_of_lt hsmall]
    omega
  have hrange : t = .int128 → t.toInt v < 2 ^ 127 := by
    rintro rfl
    exact toInt_lt
  refine ⟨.inr ?_, ?_⟩
  · refine if_neg ?_
    rintro ⟨ht, hout⟩
    dsimp only at hout
    have := hrange ht
    omega
  · rw [lowBits_of_lt hw hlt]
    by_cases hzero : offset = 0#t.bits
    · simp [decode, hzero]
    · have hadd : t.add (v - offset) offset = some v := by
        rw [add, if_neg, sub_add_cancel]
        rintro ⟨ht, hout⟩
        have := hrange ht
        omega
      simp [decode, hzero, hadd]

theorem givesBack_of_signed {v : t.Value} (hpos : 0 < w) (hw : w < t.bits)
    (hlo : -2 ^ (w - 1) ≤ BitVec.toInt v) (hhi : BitVec.toInt v < 2 ^ (w - 1)) :
    GivesBack ⟨w, true, 0⟩ v := by
  refine ⟨.inl rfl, ?_⟩
  simp [decode, hpos, signExtend_lowBits hpos hw hlo hhi]

/-- The frame of reference from the maximum is only used for one negative value. -/
theorem eq_of_saves {min max : t.Value} (hmin : t.toInt min < 0) (hmax : t.toInt max < 0)
    (hle : t.toInt min ≤ t.toInt max) (hsaves : t.bitWidth (min - max) < t.bitWidth max) : min = max := by
  by_contra hne
  have hsigned := signed_of_neg hmin
  have hlt : t.toInt min ≠ t.toInt max := fun h => hne (toInt_injective h)
  simp only [toInt_of_signed hsigned] at hmin hmax hle hlt
  have hlo := le_toInt min
  have hneg : BitVec.toInt (min - max) < 0 := by
    have hpow : (2 : Int) ^ (t.bits - 1) * 2 = 2 ^ t.bits := mod_cast Nat.two_pow_pred_mul_two t.bits_pos
    have hcast : ((2 ^ t.bits : Nat) : Int) = 2 ^ t.bits := by simp
    rw [toInt_sub, Int.bmod_eq_of_le] <;> omega
  have hbits : t.bitWidth max ≤ t.bits := Nat.size_le.mpr max.isLt
  have := bitWidth_of_neg hneg
  omega

/-- One negative value, from which its offset leaves nothing. -/
theorem givesBack_of_eq {min : t.Value} (hw : t.bitWidth (min - min) + 1 < t.bits)
    (hneg : t.toInt min < 0) : GivesBack ⟨t.bitWidth (min - min) + 1, true, min⟩ min := by
  have hsub : min - min = 0#t.bits := BitVec.sub_self min
  have hwidth : t.bitWidth (min - min) = 0 := by simp [IntegerType.bitWidth]
  rw [hwidth] at hw ⊢
  have hextend : signExtend 1 (lowBits 1 (0#t.bits)) = some (0#t.bits) :=
    signExtend_lowBits (by decide) hw (by simp) (by simp)
  have hsigned := signed_of_neg hneg
  have hlo := intMin_le hsigned min
  have hzero : t.toInt (0#t.bits) = 0 := t.toInt_zero
  have hadd : t.add (0#t.bits) min = some min := by
    rw [add, if_neg, BitVec.zero_add]
    rintro ⟨rfl, hout⟩
    have hmin := toInt_intMin hsigned
    have hbits : int128.bits - 1 = 127 := rfl
    rw [hbits] at hmin
    omega
  have hne : min ≠ 0#t.bits := by
    rintro rfl
    exact absurd (t.toInt_zero ▸ hneg) (by decide)
  refine ⟨.inr ?_, ?_⟩
  · refine if_neg ?_
    rintro ⟨-, hout⟩
    dsimp only at hout
    omega
  · simp [decode, hextend, hadd, hne]

/-- All values between the minimum and the maximum are given back. -/
theorem givesBack_of_between {min max v : t.Value} (h : t.getPackingInfo min max = some info)
    (hw : info.bitWidth < t.bits) (hmin : t.toInt min ≤ t.toInt v) (hmax : t.toInt v ≤ t.toInt max)
    (hgood : ¬ (t.signed ∧ min = intMin t.bits ∧ max ≠ min)) : info.GivesBack v := by
  rcases getPackingInfo_cases h with ⟨hpos, rfl⟩ | ⟨hneg, hneg', hsaves, rfl⟩ |
    ⟨hneg, hfor, a, b, ha, hb, rfl⟩ | ⟨hpos, a, b, ha, hb, rfl⟩
  · refine givesBack_of_lt hw (by omega) hmin ?_
    have h1 := toInt_eq_toNat hpos.le
    have h2 := toInt_eq_toNat (show 0 ≤ t.toInt v by omega)
    have h3 := toInt_eq_toNat (show 0 ≤ t.toInt max by omega)
    have hbits := lt_two_pow_bitWidth (max - min)
    rw [toNat_sub_of_le (le_def.mpr (by omega))] at hbits ⊢
    omega
  · obtain rfl := eq_of_saves hneg hneg' (by omega) hsaves
    obtain rfl : v = min := toInt_injective (by omega)
    exact givesBack_of_eq hw hneg
  · have hsigned := signed_of_neg hneg
    have hmax' : max ≠ intMin t.bits := by
      rintro rfl
      have hmin' := intMin_le hsigned min
      obtain rfl : min = intMin t.bits := toInt_injective (by omega)
      exact hfor ⟨hneg, bitWidth_sub_self_lt hneg⟩
    have ha' := toInt_abs ha fun _ hmin => hgood ⟨hsigned, hmin, hmin ▸ hmax'⟩
    have hb' := toInt_abs hb fun _ => hmax'
    have hbits := lt_two_pow_bitWidth (t.max a b)
    have hm := toInt_max a b
    have hm' := toInt_eq_toNat (show 0 ≤ t.toInt (t.max a b) by omega)
    have hcast : ((2 ^ t.bitWidth (t.max a b) : Nat) : Int) = 2 ^ t.bitWidth (t.max a b) := by simp
    have hv := toInt_of_signed hsigned v
    refine givesBack_of_signed (Nat.succ_pos _) hw ?_ ?_ <;> rw [Nat.add_sub_cancel] <;> omega
  · have hne : ∀ x : t.Value, 0 ≤ t.toInt x → t.signed → x ≠ intMin t.bits := by
      rintro x hx hsigned rfl
      have := intMin_neg hsigned
      omega
    have hb' := toInt_abs hb (hne max (by omega))
    refine givesBack_of_lt hw t.toInt_zero.ge (by rw [t.toInt_zero]; omega) ?_
    have hbits := lt_two_pow_bitWidth (t.max a b)
    have hm := toInt_max a b
    have hm' := toInt_eq_toNat (show 0 ≤ t.toInt (t.max a b) by omega)
    have hv := toInt_eq_toNat (show 0 ≤ t.toInt v by omega)
    have hzero : v - (0 : t.Value) = v := BitVec.sub_zero v
    rw [hzero]
    omega

/-- The minimum of a signed type beside other values: its bits are all 0 below the sign bit. -/
theorem decode_intMin {max : t.Value} (h : t.getPackingInfo (intMin t.bits) max = some info)
    (hw : info.bitWidth < t.bits) (hsigned : t.signed) (hne : max ≠ intMin t.bits) :
    info.offset = 0 ∧ info.decode (lowBits info.bitWidth (intMin t.bits - info.offset)) = some 0 := by
  have hneg := intMin_neg hsigned
  rcases getPackingInfo_cases h with ⟨hpos, -⟩ | ⟨-, hneg', hsaves, -⟩ | ⟨-, -, a, b, -, -, rfl⟩ | ⟨hpos, -⟩
  · omega
  · exact absurd (eq_of_saves hneg hneg' (intMin_le hsigned max) hsaves).symm hne
  · have hlow : lowBits (t.bitWidth (t.max a b) + 1) (intMin t.bits) =
        lowBits (t.bitWidth (t.max a b) + 1) 0#t.bits := by
      apply eq_of_toNat_eq
      have hdvd : 2 ^ (t.bitWidth (t.max a b) + 1) ∣ 2 ^ (t.bits - 1) :=
        Nat.pow_dvd_pow 2 (by dsimp only at hw; omega)
      have hlt : 2 ^ (t.bits - 1) < 2 ^ t.bits := Nat.pow_lt_pow_right (by decide) (Nat.sub_lt t.bits_pos (by decide))
      rw [toNat_lowBits hw, toNat_lowBits hw, toNat_intMin, Nat.mod_eq_of_lt hlt, Nat.mod_eq_zero_of_dvd hdvd]
      simp
    have hextend : signExtend (t.bitWidth (t.max a b) + 1)
        (lowBits (t.bitWidth (t.max a b) + 1) 0#t.bits) = some 0#t.bits := by
      refine signExtend_lowBits (Nat.succ_pos _) hw ?_ ?_
      · rw [BitVec.toInt_zero]
        exact Int.neg_nonpos_of_nonneg (Int.le_of_lt (Int.pow_pos (by decide)))
      · rw [BitVec.toInt_zero]
        exact Int.pow_pos (by decide)
    simp [decode, hlow, hextend]
  · omega

end BitpackInfo

end CycleJoin
