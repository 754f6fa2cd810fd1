import Mathlib

/-!
# Odometers

An odometer with radices `ks` has one digit per radix, and the first digit moves fastest: `next`
advances the first digit that is not at its end and sets the digits before it to 0.

* `after ks cs`: the readings after `cs`, in order (`after_eq_cons`, `after_eq_nil`).
* `zeros_cons_after`: from all zeros the odometer shows every reading once, in the order of
  `List.sections`.
* `sections_map_flatten_perm`: choosing a part of every list and then an element of every part is
  choosing an element of every list.
-/

namespace CycleJoin

open List

namespace Odometer

/-- The reading after `cs`; `none` when every digit is at its end. -/
def next : List Nat → List Nat → Option (List Nat)
  | k :: ks, c :: cs => if c + 1 < k then some ((c + 1) :: cs) else (next ks cs).map (0 :: ·)
  | _, _ => none

/-- The readings after `cs`, in order. -/
def after : List Nat → List Nat → List (List Nat)
  | k :: ks, c :: cs =>
    (range' (c + 1) (k - (c + 1))).map (· :: cs) ++
      (after ks cs).flatMap fun s => (range k).map (· :: s)
  | _, _ => []

theorem next_cons_of_lt {k c : Nat} {ks cs : List Nat} (h : c + 1 < k) :
    next (k :: ks) (c :: cs) = some ((c + 1) :: cs) := by
  rw [next, if_pos h]

theorem next_cons_of_not_lt {k c : Nat} {ks cs : List Nat} (h : ¬ c + 1 < k) :
    next (k :: ks) (c :: cs) = (next ks cs).map (0 :: ·) := by
  rw [next, if_neg h]

theorem after_eq_nil {ks cs : List Nat} (h : next ks cs = none) : after ks cs = [] := by
  fun_induction next ks cs with
  | case1 => cases h
  | case2 k ks c cs hlt ih =>
    rw [after, ih (Option.map_eq_none_iff.mp h), Nat.sub_eq_zero_of_le (not_lt.mp hlt)]
    rfl
  | case3 => rw [after]; assumption

theorem range_eq_cons {k : Nat} (hk : 0 < k) : range k = 0 :: range' 1 (k - 1) := by
  rw [range_eq_range']
  obtain ⟨n, rfl⟩ := Nat.exists_eq_add_one.mpr hk
  rfl

/-- The readings after `cs` are its successor and the readings after that. -/
theorem after_eq_cons {ks cs cs' : List Nat} (hpos : ∀ k ∈ ks, 0 < k)
    (h : next ks cs = some cs') : after ks cs = cs' :: after ks cs' := by
  fun_induction next ks cs generalizing cs' with
  | case1 k ks c cs hlt =>
    cases h
    obtain ⟨n, hn⟩ : ∃ n, k - (c + 1) = n + 1 := ⟨k - (c + 1) - 1, by omega⟩
    rw [after, hn, range'_succ, map_cons, cons_append]
    congr 5
    omega
  | case2 k ks c cs hlt ih =>
    obtain ⟨hk, hpos⟩ := forall_mem_cons.mp hpos
    obtain ⟨s, hs, rfl⟩ := Option.map_eq_some_iff.mp h
    rw [after, ih hpos hs, Nat.sub_eq_zero_of_le (not_lt.mp hlt), after, range_eq_cons hk]
    rfl
  | case3 => cases h

/-- A digit moves up at every step. -/
theorem exists_ne_zero_of_next {ks cs cs' : List Nat} (h : next ks cs = some cs') : ∃ d ∈ cs', d ≠ 0 := by
  fun_induction next ks cs generalizing cs' with
  | case1 k ks c cs hlt =>
    cases h
    exact ⟨c + 1, mem_cons_self, by omega⟩
  | case2 k ks c cs hlt ih =>
    obtain ⟨s, hs, rfl⟩ := Option.map_eq_some_iff.mp h
    obtain ⟨d, hd, hne⟩ := ih hs
    exact ⟨d, mem_cons_of_mem _ hd, hne⟩
  | case3 => cases h

theorem zeros_cons_after (ks : List Nat) (hpos : ∀ k ∈ ks, 0 < k) :
    ks.map (fun _ => 0) :: after ks (ks.map fun _ => 0) = (ks.map range).sections := by
  induction ks with
  | nil => rfl
  | cons k ks ih =>
    obtain ⟨hk, hpos⟩ := forall_mem_cons.mp hpos
    rw [map_cons, map_cons, sections, ← ih hpos, after, range_eq_cons hk]
    rfl

/-! ## Sections of concatenations -/

section Sections

variable {α β : Type}

theorem flatMap_comm_perm {γ : Type} (xs : List α) (ys : List β) (f : α → β → List γ) :
    (xs.flatMap fun x => ys.flatMap (f x)).Perm (ys.flatMap fun y => xs.flatMap (f · y)) := by
  simpa [← Multiset.coe_eq_coe] using Multiset.bind_bind (f := fun x y => (f x y : Multiset γ)) xs ys

theorem sections_map_flatten_perm (ls : List (List (List α))) :
    (ls.map flatten).sections.Perm (ls.sections.flatMap sections) := by
  induction ls with
  | nil => simp
  | cons l ls ih =>
    rw [map_cons, sections, sections, flatMap_assoc]
    refine (ih.flatMap_right _).trans ?_
    rw [flatMap_assoc]
    refine Perm.flatMap_left _ fun s _ => ?_
    simp only [flatMap_map]
    refine Perm.trans ?_ (flatMap_comm_perm _ _ _)
    refine Perm.flatMap_left _ fun t _ => ?_
    rw [map_flatten, flatMap_def]

theorem length_sections (ls : List (List α)) : ls.sections.length = (ls.map length).prod := by
  induction ls with
  | nil => rfl
  | cons l ls ih => simp [sections, ih, mul_comm]

end Sections

/-! ## Products without repetitions -/

section Dedup

variable {α : Type} [DecidableEq α] {l : List α} {f : α → Nat}

theorem prod_dedup_le (h : ∀ d ∈ l, 0 < f d) : (l.dedup.map f).prod ≤ (l.map f).prod := by
  induction l with
  | nil => rfl
  | cons d l ih =>
    obtain ⟨hd, h⟩ := forall_mem_cons.mp h
    rw [map_cons, prod_cons]
    by_cases hmem : d ∈ l
    · rw [dedup_cons_of_mem hmem]
      exact (ih h).trans (Nat.le_mul_of_pos_left _ hd)
    · rw [dedup_cons_of_notMem hmem, map_cons, prod_cons]
      exact Nat.mul_le_mul_left _ (ih h)

/-- Only factors 1 can be left out of a product. -/
theorem pairwise_of_prod_dedup (h : ∀ d ∈ l, 0 < f d) (heq : (l.dedup.map f).prod = (l.map f).prod) :
    l.Pairwise fun d d' => d = d' → f d = 1 := by
  induction l with
  | nil => exact .nil
  | cons d l ih =>
    obtain ⟨hd, h⟩ := forall_mem_cons.mp h
    have hpos : 0 < (l.map f).prod := prod_pos (by simpa using h)
    rw [map_cons, prod_cons] at heq
    by_cases hmem : d ∈ l
    · rw [dedup_cons_of_mem hmem] at heq
      have hle := prod_dedup_le h
      rw [heq] at hle
      have hone : f d = 1 := by
        by_contra hne
        have : 2 * (l.map f).prod ≤ f d * (l.map f).prod := Nat.mul_le_mul_right _ (by omega)
        omega
      rw [hone, one_mul] at heq
      exact .cons (fun _ _ _ => hone) (ih h heq)
    · rw [dedup_cons_of_notMem hmem, map_cons, prod_cons] at heq
      refine .cons ?_ (ih h (Nat.eq_of_mul_eq_mul_left hd heq))
      rintro d' hd' rfl
      exact absurd hd' hmem

end Dedup

end Odometer
end CycleJoin
