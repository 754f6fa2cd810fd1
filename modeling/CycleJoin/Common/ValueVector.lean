import CycleJoin.Common.NullMask
import CycleJoin.Common.SelectionVector

/-!
# Discarding nulls

`ValueVector::discardNull` (`common/vector/value_vector.cpp`). The hash join drops the rows with a null
key with it, on the build side and on the probe side. The branch for an unfiltered selection compacts
the positions of the values that are not null. The other branch writes every position back to its own
place, so it keeps a prefix of the selection instead.

* `getSelectedPositions_discardNull`: the selection after the call.
* `take_countP_eq_filter_iff`: when a prefix of that length is the right one.
-/

namespace CycleJoin

open List SelectionVector

/-- The null bits of a vector. `setNull`, `setAllNull` and the copies set `mayContainNulls` with the
first null. -/
structure NullMask where
  data : NullMask.Entries
  mayContainNulls : Bool
  mayContainNulls_of_isNull : ∀ pos, NullMask.isNull data pos = true → mayContainNulls = true

/-- `ValueVector`: the values of a vector and its null bits. Its selection belongs to the state of
the data chunk. -/
structure ValueVector (α : Type) where
  values : Nat → α
  nullMask : NullMask

namespace SelectionVector

/-- `isUnfiltered`. -/
def isUnfiltered (sel : SelectionVector) : Bool := sel.isStatic && sel.get 0 == 0

/-- An assignment to an element of `getMutableBuffer`. -/
def setBuffer (sel : SelectionVector) (index position : Nat) : SelectionVector :=
  { sel with selectedPositionsBuffer := Function.update sel.selectedPositionsBuffer index position }

theorem isStatic_of_isUnfiltered {sel : SelectionVector} (h : sel.isUnfiltered = true) : sel.isStatic = true :=
  (Bool.and_eq_true_iff.1 h).1

theorem isStatic_eq_false {sel : SelectionVector} (h : sel.isUnfiltered = false) : sel.isStatic = false := by
  cases hs : sel.isStatic with
  | false => rfl
  | true => simp [isUnfiltered, get, hs] at h

theorem getSelectedPositions_of_isStatic {sel : SelectionVector} (h : sel.isStatic = true) :
    sel.getSelectedPositions = range sel.selectedSize := by
  have hget : sel.get = id := by
    funext i
    simp [get, h]
  rw [getSelectedPositions, hget, map_id]

theorem length_getSelectedPositions (sel : SelectionVector) : sel.getSelectedPositions.length = sel.selectedSize := by
  simp [getSelectedPositions]

/-- Fewer selected positions are a prefix. -/
theorem getSelectedPositions_setSelSize (sel : SelectionVector) {size : Nat} (h : size ≤ sel.selectedSize) :
    (sel.setSelSize size).getSelectedPositions = sel.getSelectedPositions.take size := by
  unfold getSelectedPositions
  rw [← map_take, take_range, Nat.min_eq_left h]
  rfl

end SelectionVector

namespace ValueVector

variable {α : Type} (vector : ValueVector α)

/-- `hasNoNullsGuarantee`. -/
def hasNoNullsGuarantee : Bool := !vector.nullMask.mayContainNulls

/-- `isNull`. -/
def isNull (pos : Nat) : Bool := NullMask.isNull vector.nullMask.data pos

section
variable (sel : SelectionVector)

/-- The loop over an unfiltered selection: the selection and `selectedPos` after `n` rounds. -/
def discardUnfiltered (n : Nat) : SelectionVector × Nat :=
  (range n).foldl (fun s i => (s.1.setBuffer s.2 i, s.2 + (!vector.isNull i).toNat)) (sel, 0)

/-- The loop over a filtered selection. It writes each position to where it was read from. -/
def discardFiltered (n : Nat) : SelectionVector × Nat :=
  (range n).foldl
    (fun s i => (s.1.set i (s.1.get i), s.2 + (!vector.isNull (s.1.get i)).toNat)) (sel, 0)

/-- `discardNull`: the result and the selection that it leaves. -/
def discardNull : Bool × SelectionVector :=
  if vector.hasNoNullsGuarantee then (true, sel)
  else if sel.isUnfiltered then
    let (sel, selectedPos) := vector.discardUnfiltered sel sel.selectedSize
    (selectedPos > 0, (sel.setToFiltered sel.selectedSize).setSelSize selectedPos)
  else
    let (sel, selectedPos) := vector.discardFiltered sel sel.selectedSize
    (selectedPos > 0, sel.setSelSize selectedPos)

/-- The selected positions whose value is not null. -/
def nonNulls : List Nat :=
  sel.getSelectedPositions.filter fun pos => !vector.isNull pos

end

variable {vector}

theorem isNull_eq_false (h : vector.hasNoNullsGuarantee = true) (pos : Nat) : vector.isNull pos = false := by
  by_contra hn
  have hmay := vector.nullMask.mayContainNulls_of_isNull pos (by simpa [isNull] using hn)
  simp [hasNoNullsGuarantee, hmay] at h

theorem nonNulls_eq_self (h : vector.hasNoNullsGuarantee = true) (sel : SelectionVector) :
    vector.nonNulls sel = sel.getSelectedPositions := by
  apply filter_eq_self.2
  intro pos _
  simp [isNull_eq_false h pos]

variable (vector)

/-- The loop over an unfiltered selection: the front of the buffer holds the positions so far whose
value is not null. -/
theorem discardUnfiltered_spec (sel : SelectionVector) (n : Nat) : (range (vector.discardUnfiltered sel n).2).map
        (vector.discardUnfiltered sel n).1.selectedPositionsBuffer =
      (range n).filter fun pos => !vector.isNull pos := by
  induction n with
  | zero => rfl
  | succ n ih =>
    have hstep : vector.discardUnfiltered sel (n + 1) =
        ((vector.discardUnfiltered sel n).1.setBuffer (vector.discardUnfiltered sel n).2 n,
          (vector.discardUnfiltered sel n).2 + (!vector.isNull n).toNat) := by
      simp [discardUnfiltered, range_succ]
    generalize vector.discardUnfiltered sel n = s at hstep ih
    -- the positions before `selectedPos` are not written
    have hkeep : (range s.2).map (s.1.setBuffer s.2 n).selectedPositionsBuffer =
        (range s.2).map s.1.selectedPositionsBuffer := by
      apply map_congr_left
      intro j hj
      exact Function.update_of_ne (Nat.ne_of_lt (mem_range.1 hj)) _ _
    rw [hstep, range_succ, filter_append, ← ih]
    cases hn : vector.isNull n with
    | true => simp [hn, hkeep]
    | false =>
      have hlast : (s.1.setBuffer s.2 n).selectedPositionsBuffer s.2 = n := Function.update_self ..
      simp [hn, range_succ, -List.map_inj_left, hkeep, hlast]

theorem discardFiltered_eq {sel : SelectionVector} (hs : sel.isStatic = false) (n : Nat) :
    vector.discardFiltered sel n = (sel, ((range n).map sel.get).countP fun pos => !vector.isNull pos) := by
  -- a position is written where it stands
  have hset (i : Nat) : sel.set i (sel.get i) = sel := by
    have hbuffer := Function.update_eq_self i sel.selectedPositionsBuffer
    have hn : ¬sel.isStatic = true := by simp [hs]
    rw [SelectionVector.set, if_neg hn, SelectionVector.get, if_neg hn, hbuffer]
  induction n with
  | zero => rfl
  | succ n ih =>
    simp only [discardFiltered] at ih
    simp only [discardFiltered, range_succ, foldl_append, ih, foldl_cons, hset]
    cases hn : vector.isNull (sel.get n) <;> simp [hn]

/-- The selection after the call: the non-null positions of an unfiltered selection, and as many
positions as are non-null, from the front, of a filtered one. -/
theorem getSelectedPositions_discardNull (sel : SelectionVector) :
    (vector.discardNull sel).2.getSelectedPositions = if sel.isUnfiltered then vector.nonNulls sel
      else sel.getSelectedPositions.take (vector.nonNulls sel).length := by
  by_cases hg : vector.hasNoNullsGuarantee = true
  · rw [nonNulls_eq_self hg, discardNull, if_pos hg, take_length, ite_self]
  rw [discardNull, if_neg hg]
  by_cases hu : sel.isUnfiltered = true
  · rw [if_pos hu, if_pos hu, nonNulls, getSelectedPositions_of_isStatic (isStatic_of_isUnfiltered hu),
      ← vector.discardUnfiltered_spec]
    rfl
  · rw [if_neg hu, if_neg hu, discardFiltered_eq vector (isStatic_eq_false (Bool.eq_false_iff.2 hu))]
    have hcount : sel.getSelectedPositions.countP (fun pos => !vector.isNull pos) =
        (vector.nonNulls sel).length := countP_eq_length_filter
    rw [← hcount]
    apply sel.getSelectedPositions_setSelSize
    calc _ ≤ sel.getSelectedPositions.length := countP_le_length
      _ = sel.selectedSize := sel.length_getSelectedPositions

theorem discardNull_fst (sel : SelectionVector) : (vector.discardNull sel).1 = true ↔
      vector.hasNoNullsGuarantee = true ∨ vector.nonNulls sel ≠ [] := by
  by_cases hg : vector.hasNoNullsGuarantee = true
  · simp [discardNull, hg]
  by_cases hu : sel.isUnfiltered = true
  · have hlen := congrArg List.length (vector.discardUnfiltered_spec sel sel.selectedSize)
    rw [length_map, length_range] at hlen
    rw [nonNulls, getSelectedPositions_of_isStatic (isStatic_of_isUnfiltered hu)]
    simp [discardNull, hg, hu, hlen]
  · rw [discardNull, if_neg hg, if_neg hu, discardFiltered_eq vector (isStatic_eq_false (Bool.eq_false_iff.2 hu))]
    simp only [hg, Bool.false_eq_true, false_or, decide_eq_true_eq, gt_iff_lt]
    rw [show (range sel.selectedSize).map sel.get = sel.getSelectedPositions from rfl,
      countP_eq_length_filter, length_pos_iff, nonNulls]

/-- A prefix holds what `p` selects when no other element stands before a selected one. -/
theorem take_countP_eq_filter_iff {β : Type} (p : β → Bool) (l : List β) :
    l.take (l.filter p).length = l.filter p ↔ l.Pairwise fun a b => p a = false → p b = false := by
  induction l with
  | nil => simp
  | cons a l ih =>
    cases ha : p a with
    | true => simp [ha, ih]
    | false =>
      rw [filter_cons_of_neg (by simp [ha]), pairwise_cons]
      cases hl : l.filter p with
      | nil =>
        have hnone : ∀ b ∈ l, p b = false := by simpa using filter_eq_nil_iff.1 hl
        simp only [length_nil, take_zero, true_iff]
        refine ⟨fun b hb _ => hnone b hb, pairwise_of_forall_mem_list ?_⟩
        exact fun _ _ b hb _ => hnone b hb
      | cons b bs =>
        -- the first selected element stands after `a`
        have hb : b ∈ l ∧ p b = true := mem_filter.1 (hl ▸ mem_cons_self)
        simp only [length_cons, take_succ_cons, List.cons.injEq]
        constructor
        · rintro ⟨rfl, _⟩
          exact absurd hb.2 (by simp [ha])
        · rintro ⟨h, _⟩
          exact absurd hb.2 (by simp [h b hb.1 ha])

/-- No null stands before another value in the selection. -/
def NullsLast (sel : SelectionVector) : Prop :=
  sel.getSelectedPositions.Pairwise fun a b => vector.isNull a = true → vector.isNull b = true

theorem getSelectedPositions_discardNull_iff (sel : SelectionVector) :
    (vector.discardNull sel).2.getSelectedPositions = vector.nonNulls sel ↔
      sel.isUnfiltered = true ∨ vector.NullsLast sel := by
  rw [getSelectedPositions_discardNull]
  by_cases hu : sel.isUnfiltered = true
  · simp [hu]
  · simp only [hu]
    simpa [NullsLast, nonNulls] using
      take_countP_eq_filter_iff (fun pos => !vector.isNull pos) sel.getSelectedPositions

/-- `discardNull` leaves the selected positions that are not null, and reports whether there is one,
if the selection is unfiltered or has its nulls at the end, and if it is not an empty selection of a
vector without nulls, for which the call reports a position. A filtered selection of the same positions
is treated as an unfiltered one only if it has its nulls at the end. -/
theorem discardNull_keeps_nonNulls_iff : (∀ sel : SelectionVector,
      ((vector.discardNull sel).2.getSelectedPositions = vector.nonNulls sel ∧
          ((vector.discardNull sel).1 = true ↔ vector.nonNulls sel ≠ [])) ↔
        (sel.isUnfiltered = true ∨ vector.NullsLast sel) ∧
          (vector.hasNoNullsGuarantee = false ∨ sel.selectedSize ≠ 0)) ∧
    ∀ unfiltered filtered : SelectionVector,
      unfiltered.isUnfiltered = true → filtered.isUnfiltered = false →
      unfiltered.getSelectedPositions = filtered.getSelectedPositions →
        ((vector.discardNull filtered).2.getSelectedPositions =
            (vector.discardNull unfiltered).2.getSelectedPositions ↔ vector.NullsLast filtered) := by
  constructor
  · intro sel
    rw [getSelectedPositions_discardNull_iff, discardNull_fst]
    cases hg : vector.hasNoNullsGuarantee with
    | false => simp
    | true =>
      rw [nonNulls_eq_self hg, ← length_pos_iff, sel.length_getSelectedPositions,
        Nat.pos_iff_ne_zero]
      simp
  · intro unfiltered filtered hu hf hpos
    have hsame : (vector.discardNull unfiltered).2.getSelectedPositions = vector.nonNulls filtered := by
      rw [(vector.getSelectedPositions_discardNull_iff unfiltered).2 (.inl hu), nonNulls, hpos, nonNulls]
    rw [hsame, getSelectedPositions_discardNull_iff]
    simp [hf]

/-- The value at position 0 is null. -/
def nullFirst : ValueVector Nat where
  values := id
  nullMask := ⟨fun _ => 1#64, true, fun _ _ => rfl⟩

/-- Of the filtered positions 0, 1 with a null at 0, the null stays selected and the value is
dropped. -/
theorem discardNull_nullFirst : let sel : SelectionVector := ⟨false, id, 2⟩
    nullFirst.nonNulls sel = [1] ∧ (nullFirst.discardNull sel).2.getSelectedPositions = [0] := by
  decide

end ValueVector
end CycleJoin
