import Mathlib

/-!
# Bit strings in words

A memory of words of `c` bits is a string of bits, the least significant bit of a word first.

* `Words.bit`: a bit of the string.
* `Words.field`: some bits of the string as a number.
* `SetsBits`: a write that sets a range of bits and leaves all others.
* `setsBits_foldl_range`: a loop that writes one field after the other.
-/

namespace CycleJoin

abbrev Words (c : Nat) := Nat → BitVec c

/-- The number with the bits `f`. -/
def ofBits (f : Nat → Bool) : (n : Nat) → BitVec n
  | 0 => 0#0
  | n + 1 => BitVec.cons (f n) (ofBits f n)

theorem getLsbD_ofBits (f : Nat → Bool) (n k : Nat) : (ofBits f n).getLsbD k = (decide (k < n) && f k) := by
  induction n with
  | zero => simp [ofBits]
  | succ n ih =>
    rw [ofBits, BitVec.getLsbD_cons, ih]
    by_cases hk : k = n
    · simp [hk]
    · have hiff : k < n + 1 ↔ k < n := by omega
      simp [hk, hiff]

namespace Words

variable {c : Nat}

def bit (words : Words c) (j : Nat) : Bool := (words (j / c)).getLsbD (j % c)

/-- The `w` bits from `start` on, as a number of `n` bits. -/
def field (n start w : Nat) (words : Words c) : BitVec n :=
  ofBits (fun k => decide (k < w) && words.bit (start + k)) n

theorem getLsbD_field (n start w : Nat) (words : Words c) (k : Nat) :
    (words.field n start w).getLsbD k = (decide (k < n) && (decide (k < w) && words.bit (start + k))) :=
  getLsbD_ofBits ..

theorem bit_ofBits (hc : 0 < c) (f : Nat → Bool) (j : Nat) :
    bit (fun k => ofBits (fun b => f (k * c + b)) c) j = f j := by
  have hmod := Nat.mod_lt j hc
  have hj := Nat.div_add_mod j c
  rw [mul_comm] at hj
  rw [bit, getLsbD_ofBits, hj, decide_eq_true hmod, Bool.true_and]

/-- The same bits in words of `d` bits. -/
def regroup (d : Nat) (words : Words c) : Words d := fun k => ofBits (fun b => words.bit (k * d + b)) d

theorem bit_regroup {d : Nat} (hd : 0 < d) (words : Words c) (j : Nat) : (words.regroup d).bit j = words.bit j :=
  bit_ofBits hd words.bit j

theorem getLsbD_eq_bit {r : Nat} (hr : r < c) (words : Words c) (q : Nat) :
    (words q).getLsbD r = words.bit (q * c + r) := by
  have hc : 0 < c := by omega
  rw [bit, mul_comm, Nat.mul_add_div hc, Nat.mul_add_mod, Nat.div_eq_of_lt hr, Nat.mod_eq_of_lt hr, add_zero]

theorem bit_update (hc : 0 < c) (words : Words c) (k : Nat) (x : BitVec c) (j : Nat) :
    bit (Function.update words k x) j = if k * c ≤ j ∧ j < k * c + c then x.getLsbD (j - k * c) else words.bit j := by
  have hj := Nat.div_add_mod j c
  have hmod := Nat.mod_lt j hc
  by_cases hk : j / c = k
  · subst hk
    rw [mul_comm] at hj
    rw [if_pos (by omega), bit, Function.update_self]
    congr 1
    omega
  · rw [if_neg, bit, bit, Function.update_of_ne hk]
    rintro ⟨hle, hlt⟩
    refine hk (Nat.div_eq_of_lt_le hle ?_)
    rw [add_mul, one_mul]
    exact hlt

end Words

/-- A write that sets the `len` bits from `start` on to `f` and leaves all others. -/
def SetsBits {c : Nat} (start len : Nat) (f : Nat → Bool) (words words' : Words c) : Prop :=
  ∀ j, words'.bit j = if start ≤ j ∧ j < start + len then f (j - start) else words.bit j

namespace SetsBits

variable {c start len len' : Nat} {f g : Nat → Bool} {words words' words'' : Words c}

theorem of_len_zero (start : Nat) (f : Nat → Bool) (words : Words c) : SetsBits start 0 f words words :=
  fun j => by rw [if_neg (by omega)]

theorem congr (h : SetsBits start len f words words') (hfg : ∀ k < len, f k = g k) :
    SetsBits start len g words words' := by
  intro j
  rw [h j]
  split
  · exact hfg _ (by omega)
  · rfl

theorem update (hc : 0 < c) {k : Nat} {x : BitVec c} (hk : k * c ≤ start)
    (hlen : start + len ≤ k * c + c) (hx : ∀ b < c, x.getLsbD b =
      if start ≤ k * c + b ∧ k * c + b < start + len then f (k * c + b - start)
      else (words k).getLsbD b) : SetsBits start len f words (Function.update words k x) := by
  intro j
  rw [Words.bit_update hc]
  split
  · have heq : k * c + (j - k * c) = j := by omega
    have hb : j - k * c < c := by omega
    rw [hx _ hb, Words.getLsbD_eq_bit hb, heq]
  · rw [if_neg (by omega)]

variable (h : SetsBits start len f words words')
include h

theorem trans (h' : SetsBits (start + len) len' g words' words'') :
    SetsBits start (len + len') (fun k => if k < len then f k else g (k - len)) words words'' := by
  intro j
  rw [h' j, h j]
  dsimp only
  by_cases h1 : start + len ≤ j ∧ j < start + len + len'
  · have hnot : ¬ j - start < len := by omega
    rw [if_pos h1, if_pos (by omega), if_neg hnot]
    congr 1
    omega
  · by_cases h2 : start ≤ j ∧ j < start + len
    · have hlt : j - start < len := by omega
      rw [if_neg h1, if_pos h2, if_pos (by omega), if_pos hlt]
    · rw [if_neg h1, if_neg h2, if_neg (by omega)]

theorem append {start' total : Nat} (h' : SetsBits start' len' g words' words'') (hstart : start' = start + len)
    (htotal : len + len' = total) (hg : ∀ k < len', g k = f (len + k)) :
    SetsBits start total f words words'' := by
  subst hstart htotal
  refine (h.trans h').congr fun k hk => ?_
  split
  · rfl
  · have hadd : len + (k - len) = k := by omega
    rw [hg _ (by omega), hadd]

theorem unique (h' : SetsBits start len f words words'') : words' = words'' := by
  funext q
  apply BitVec.eq_of_getLsbD_eq
  intro r hr
  rw [Words.getLsbD_eq_bit hr, Words.getLsbD_eq_bit hr, h, h']

theorem bit_of_lt {k : Nat} (hk : k < len) : words'.bit (start + k) = f k := by
  rw [h, if_pos (by omega), Nat.add_sub_cancel_left]

end SetsBits

theorem setsBits_foldl_range {c start len : Nat} {f : Nat → Nat → Bool}
    {body : Words c → Nat → Words c} (n : Nat)
    (hbody : ∀ i < n, ∀ words, SetsBits (start + i * len) len (f i) words (body words i))
    (words : Words c) :
    SetsBits start (n * len) (fun k => f (k / len) (k % len)) words ((List.range n).foldl body words) := by
  induction n with
  | zero =>
    rw [zero_mul]
    exact SetsBits.of_len_zero _ _ words
  | succ n ih =>
    rw [List.range_succ, List.foldl_append, add_mul, one_mul]
    have hdone := ih fun i hi => hbody i (by omega)
    refine (hdone.trans (hbody n (by omega) _)).congr fun k hk => ?_
    by_cases hlt : k < n * len
    · rw [if_pos hlt]
    · have hdiv : k / len = n := Nat.div_eq_of_lt_le (by omega) (by rw [add_mul]; omega)
      have hmod := Nat.div_add_mod k len
      rw [hdiv, mul_comm] at hmod
      rw [if_neg hlt, hdiv]
      congr 1
      omega

end CycleJoin
