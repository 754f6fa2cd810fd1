import CycleJoin.Processor.IntersectMultiway.Basic

/-!
# A cursor is a list

`TupleCursor.rest` is the list of IDs that a cursor has still to visit. Each operation of the
cursor is an operation on that list: `gotoNext` takes the tail, `goUtil` drops the IDs smaller than
the target, and the counting loop splits off a run. The fuel of the loops, the number of IDs in
all lists, is always enough.
-/

namespace CycleJoin

open List

namespace TupleCursor

/-- The IDs from the cursor on. -/
def rest (c : TupleCursor) : List InternalID :=
  if c.finished then [] else c.currentTuple.drop c.eleIdx ++ (c.tuples.drop (c.tupleIdx + 1)).flatten

/-- A cursor that has not finished stands on an ID. -/
def Valid (c : TupleCursor) : Prop := c.finished = false → c.eleIdx < c.currentTuple.length

variable {c : TupleCursor}

theorem rest_of_finished (h : c.finished = true) : c.rest = [] := by simp [rest, h]

theorem rest_of_not_finished (h : c.finished = false) :
    c.rest = c.currentTuple.drop c.eleIdx ++ (c.tuples.drop (c.tupleIdx + 1)).flatten := by
  simp [rest, h]

/-- The ID under an unfinished cursor is the head of its list. -/
theorem rest_eq_cons (hv : c.Valid) (h : c.finished = false) : c.rest = c.getCurrentID ::
      (c.currentTuple.drop (c.eleIdx + 1) ++ (c.tuples.drop (c.tupleIdx + 1)).flatten) := by
  have hlt := hv h
  rw [rest_of_not_finished h, drop_eq_getElem_cons hlt, cons_append, getCurrentID, getD_eq_getElem _ _ hlt]

theorem head_rest (hv : c.Valid) (h : c.finished = false) : c.rest.head? = some c.getCurrentID := by
  rw [rest_eq_cons hv h]
  rfl

/-- The lists after the one that `seekTuple` finds, with that list, are all the IDs it was given. -/
theorem seekTuple_spec (ts r : List (List InternalID)) (idx : Nat) (h : ts.drop idx = r) :
    ((seekTuple r idx).2 = true → r.flatten = []) ∧
    ((seekTuple r idx).2 = false → 0 < (ts.getD (seekTuple r idx).1 []).length ∧
      ts.getD (seekTuple r idx).1 [] ++ (ts.drop ((seekTuple r idx).1 + 1)).flatten = r.flatten) := by
  induction r generalizing idx with
  | nil => simp [seekTuple]
  | cons t r ih =>
    have hget : ts.getD idx [] = t := by
      rw [getD_eq_getElem?_getD, ← head?_drop, h]
      rfl
    have hdrop : ts.drop (idx + 1) = r := by rw [← tail_drop, h, tail_cons]
    rw [seekTuple]
    split
    · rename_i ht
      rw [length_eq_zero_iff] at ht
      subst ht
      simpa using ih (idx + 1) hdrop
    · refine ⟨by simp, fun _ => ⟨?_, ?_⟩⟩
      · rw [hget]
        omega
      · rw [hget, hdrop, flatten_cons]

theorem valid_gotoNext (c : TupleCursor) : c.gotoNext.Valid := by
  intro hf
  unfold gotoNext at *
  split at hf
  · rename_i hlt
    rw [if_pos hlt]
    exact hlt
  · rename_i hlt
    rw [if_neg hlt]
    exact ((seekTuple_spec c.tuples _ (c.tupleIdx + 1) rfl).2 hf).1

theorem rest_gotoNext (hv : c.Valid) (h : c.finished = false) : c.gotoNext.rest = c.rest.tail := by
  rw [rest_eq_cons hv h, tail_cons]
  unfold gotoNext
  split
  · exact rest_of_not_finished h
  · obtain ⟨hend, hnext⟩ := seekTuple_spec c.tuples _ (c.tupleIdx + 1) rfl
    have hlast : c.currentTuple.drop (c.eleIdx + 1) = [] := drop_eq_nil_of_le (by omega)
    rw [hlast, nil_append]
    cases hs : (seekTuple (c.tuples.drop (c.tupleIdx + 1)) (c.tupleIdx + 1)).2 with
    | true => rw [rest_of_finished hs, hend hs]
    | false => rw [rest_of_not_finished hs, ← (hnext hs).2]; rfl

@[simp] theorem tuples_gotoNext (c : TupleCursor) : c.gotoNext.tuples = c.tuples := by
  unfold gotoNext
  split <;> rfl

@[simp] theorem numElements_gotoNext (c : TupleCursor) : c.gotoNext.numElements = c.numElements := by
  simp [numElements]

theorem length_rest_le (c : TupleCursor) : c.rest.length ≤ c.numElements := by
  unfold rest
  split
  · exact Nat.zero_le _
  · have hsplit : c.tuples.flatten = (c.tuples.take c.tupleIdx).flatten ++ (c.tuples.drop c.tupleIdx).flatten := by
      rw [← flatten_append, take_append_drop]
    rw [numElements, hsplit]
    refine le_trans ?_ (length_append ▸ Nat.le_add_left _ _)
    by_cases hi : c.tupleIdx < c.tuples.length
    · rw [drop_eq_getElem_cons hi, flatten_cons, length_append, length_append,
        currentTuple, getD_eq_getElem _ _ hi, length_drop]
      omega
    · have hend : c.tuples.drop (c.tupleIdx + 1) = [] := drop_eq_nil_of_le (by omega)
      rw [currentTuple, getD_eq_default _ _ (by omega), hend]
      simp

/-! ## The loops -/

theorem goUtilLoop_spec (t : InternalID) (fuel : Nat) (hv : c.Valid) (h : c.finished = false)
    (hfuel : c.rest.length ≤ fuel) :
    (goUtilLoop t fuel c).Valid ∧ (goUtilLoop t fuel c).rest = c.rest.tail.dropWhile (· < t) := by
  induction fuel generalizing c with
  | zero => rw [rest_eq_cons hv h] at hfuel; simp at hfuel
  | succ fuel ih =>
    have hr := rest_gotoNext hv h
    have hv' := valid_gotoNext c
    have hlen : c.gotoNext.rest.length ≤ fuel := by rw [hr, length_tail]; omega
    rw [goUtilLoop, ← hr]
    cases hf : c.gotoNext.finished with
    | true => simp [hv', rest_of_finished hf]
    | false =>
      by_cases hge : t ≤ c.gotoNext.getCurrentID
      · rw [if_pos (.inr hge)]
        refine ⟨hv', ?_⟩
        rw [rest_eq_cons hv' hf, dropWhile_cons_of_neg (by simpa using hge)]
      · rw [if_neg (by simp [hge])]
        obtain ⟨hv'', hr''⟩ := ih hv' hf hlen
        refine ⟨hv'', ?_⟩
        rw [hr'', rest_eq_cons hv' hf, tail_cons, dropWhile_cons_of_pos (by simpa using hge)]

/-- `goUtil` drops the IDs smaller than the target. -/
theorem goUtil_spec {t : InternalID} (hv : c.Valid) (h : c.finished = false) (hlt : c.getCurrentID < t) :
    (c.goUtil t).Valid ∧ (c.goUtil t).rest = c.rest.dropWhile (· < t) := by
  obtain ⟨hv', hr⟩ := goUtilLoop_spec t c.numElements hv h c.length_rest_le
  refine ⟨hv', hr.trans ?_⟩
  rw [rest_eq_cons hv h, tail_cons, dropWhile_cons_of_pos (by simpa using hlt)]

theorem countRun_spec (v : InternalID) (fuel n : Nat) (hv : c.Valid) (hfuel : c.rest.length ≤ fuel) :
    (countRun v fuel c n).1 = n + (c.rest.takeWhile (· = v)).length ∧
    (countRun v fuel c n).2.Valid ∧
    (countRun v fuel c n).2.rest = c.rest.dropWhile (· = v) := by
  induction fuel generalizing c n with
  | zero =>
    have hnil : c.rest = [] := length_eq_zero_iff.mp (Nat.le_zero.mp hfuel)
    simp [countRun, hnil, hv]
  | succ fuel ih =>
    rw [countRun]
    cases hf : c.finished with
    | true => simp [rest_of_finished hf, hv]
    | false =>
      have hr := rest_gotoNext hv hf
      by_cases heq : c.getCurrentID = v
      · obtain ⟨h1, h2, h3⟩ := ih (n + 1) (valid_gotoNext c) (by rw [hr, length_tail]; omega)
        simp only [Bool.false_eq_true, if_false, heq, if_true]
        refine ⟨?_, h2, ?_⟩
        · rw [h1, hr, rest_eq_cons hv hf, heq]
          simp
          omega
        · rw [h3, hr, rest_eq_cons hv hf, heq]
          simp
      · simp [heq, hv, rest_eq_cons hv hf]

/-- Counting the run of `v` under a cursor that stands on `v`: the length of the run, and a cursor
behind it. -/
theorem gotoNext_countRun_spec {v : InternalID} (hv : c.Valid) (hhd : c.rest.head? = some v) :
    (c.gotoNext.countRun v c.numElements 1).1 = (c.rest.takeWhile (· = v)).length ∧
    (c.gotoNext.countRun v c.numElements 1).2.Valid ∧
    (c.gotoNext.countRun v c.numElements 1).2.rest = c.rest.dropWhile (· = v) := by
  have hf : c.finished = false := by
    by_contra hf
    rw [rest_of_finished (Bool.not_eq_false _ ▸ hf)] at hhd
    cases hhd
  obtain ⟨h1, h2, h3⟩ := countRun_spec v c.numElements 1 (valid_gotoNext c)
    (numElements_gotoNext c ▸ length_rest_le c.gotoNext)
  obtain ⟨l, hl⟩ := head?_eq_some_iff.mp hhd
  refine ⟨?_, h2, ?_⟩
  · rw [h1, rest_gotoNext hv hf, hl]
    simp
    omega
  · rw [h3, rest_gotoNext hv hf, hl]
    simp

/-! ## A new cursor -/

theorem valid_new {ts : List (List InternalID)} (hne : ∀ t ∈ ts, t ≠ []) (hts : ts ≠ []) : (new ts).Valid := by
  intro _
  obtain ⟨t, ts', rfl⟩ := exists_cons_of_ne_nil hts
  exact length_pos_iff.mpr (hne t mem_cons_self)

theorem rest_new {ts : List (List InternalID)} (hts : ts ≠ []) : (new ts).rest = ts.flatten := by
  obtain ⟨t, ts', rfl⟩ := exists_cons_of_ne_nil hts
  simp [new, rest, currentTuple]

end TupleCursor
end CycleJoin
