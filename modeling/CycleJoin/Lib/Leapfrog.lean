import Mathlib

/-!
# Intersecting several lists with one cursor each

A leapfrog intersection keeps one cursor per list and a target value. A round forwards every
cursor past the elements smaller than the target. A cursor that overshoots makes its element the
new target; when all cursors stand on the target, the run of equal elements under each of them is
counted and skipped, and the target moves up to the largest element under a cursor.

* `Run t ls out`: the rounds of an intersection that starts with target `t` and the remaining
  lists `ls`; `out` is the sequence of hits, each with the length of the run in every list.
* `Gathered x l`: the occurrences of `x` in `l` stand together and only smaller elements come
  before them. A sorted list gathers everything.
* `Run.emitted_le`: a hit is never reported more often than the product of the occurrences.
* `Run.emitted_eq_iff`: with two lists or more, the hits at a common element `x` add up to that
  product exactly when `x` is gathered in every list (and the weight of the product is exact).

The lists need not be sorted: the last theorem says what sortedness is needed for.
-/

namespace CycleJoin

open List

namespace Leapfrog

variable {α : Type} [LinearOrder α]

/-- What forwarding the cursors to a target gives: a list ends below the target, a cursor
overshoots it, or all cursors stand on it. -/
inductive Forward (α : Type) where
  | exhausted
  | missed (target : α) (rests : List (List α))
  | found (rests : List (List α))

/-- Forward the cursors to the target `t`, in order. The cursors after one that overshoots stay. -/
def forward (t : α) : List (List α) → Forward α
  | [] => .found []
  | l :: ls =>
    match l.dropWhile (· < t) with
    | [] => .exhausted
    | x :: xs =>
      if t < x then .missed x ((x :: xs) :: ls)
      else
        match forward t ls with
        | .exhausted => .exhausted
        | .missed t' rs => .missed t' ((x :: xs) :: rs)
        | .found rs => .found ((x :: xs) :: rs)

/-- The lengths of the runs of `v` under the cursors. -/
def counts (v : α) (ls : List (List α)) : List Nat := ls.map fun l => (l.takeWhile (· = v)).length

/-- The lists after the runs of `v`. -/
def skipRuns (v : α) (ls : List (List α)) : List (List α) := ls.map (·.dropWhile (· = v))

/-- The target of the next round: the largest of `t` and the elements under the cursors. -/
def nextTarget (t : α) (ls : List (List α)) : α :=
  ls.foldl (fun t l => match l.head? with | some x => max t x | none => t) t

/-- The rounds from target `t` with the remaining lists `ls`. `out` has a pair for each hit: the
element and the lengths of its runs. -/
inductive Run : α → List (List α) → List (α × List Nat) → Prop where
  | exhausted {t : α} {ls : List (List α)} (h : forward t ls = .exhausted) : Run t ls []
  | missed {t t' : α} {ls rs : List (List α)} {out : List (α × List Nat)}
      (h : forward t ls = .missed t' rs) (hr : Run t' rs out) : Run t ls out
  | last {t : α} {ls rs : List (List α)} (h : forward t ls = .found rs)
      (he : [] ∈ skipRuns t rs) : Run t ls [(t, counts t rs)]
  | next {t : α} {ls rs : List (List α)} {out : List (α × List Nat)}
      (h : forward t ls = .found rs) (he : [] ∉ skipRuns t rs)
      (hr : Run (nextTarget t (skipRuns t rs)) (skipRuns t rs) out) :
      Run t ls ((t, counts t rs) :: out)

/-- How often the hits `out` report `x`, a hit with run lengths `c` counting `w c.prod` times. -/
def emitted (w : Nat → Nat) (out : List (α × List Nat)) (x : α) : Nat :=
  (out.map fun h => if h.1 = x then w h.2.prod else 0).sum

/-- The elements that the hits `out` report, a hit with run lengths `c` repeated `w c.prod` times. -/
def hits (w : Nat → Nat) (out : List (α × List Nat)) : List α :=
  out.flatMap fun h => replicate (w h.2.prod) h.1

/-- The number of ways to pick one occurrence of `x` from every list. -/
def combinations (ls : List (List α)) (x : α) : Nat := (ls.map (·.count x)).prod

/-- After the elements smaller than `x` and one run of `x`, `x` does not occur again. -/
def Gathered (x : α) (l : List α) : Prop := x ∉ (l.dropWhile (· < x)).dropWhile (· = x)

instance (x : α) (l : List α) : Decidable (Gathered x l) := by unfold Gathered; infer_instance

/-! ## Forwarding -/

/-- `r` is `l` after some elements smaller than `t`. -/
def Skips (t : α) (l r : List α) : Prop := ∃ d, l = d ++ r ∧ ∀ y ∈ d, y < t

theorem skips_refl (t : α) (l : List α) : Skips t l l := ⟨[], rfl, by simp⟩

theorem skips_dropWhile (t : α) (l : List α) : Skips t l (l.dropWhile (· < t)) :=
  ⟨l.takeWhile (· < t), (takeWhile_append_dropWhile).symm, fun y hy => by
    simpa using mem_takeWhile_imp hy⟩

theorem forall₂_skips_refl (t : α) (ls : List (List α)) : Forall₂ (Skips t) ls ls :=
  forall₂_same.mpr fun l _ => skips_refl t l

theorem forward_missed {t t' : α} {ls rs : List (List α)} (h : forward t ls = .missed t' rs) :
    t < t' ∧ Forall₂ (Skips t) ls rs ∧ ∃ r ∈ rs, r.head? = some t' := by
  induction ls generalizing t' rs with
  | nil => simp [forward] at h
  | cons l ls ih =>
    simp only [forward] at h
    have hl := skips_dropWhile t l
    split at h
    · cases h
    · rename_i x xs hx
      rw [hx] at hl
      split at h
      · rename_i hlt
        cases h
        exact ⟨hlt, .cons hl (forall₂_skips_refl t ls), _, mem_cons_self, rfl⟩
      · split at h
        · cases h
        · rename_i t₁ rs₁ hf
          cases h
          obtain ⟨hlt, hall, r, hr, hh⟩ := ih hf
          exact ⟨hlt, .cons hl hall, r, by simp [hr], hh⟩
        · cases h

theorem forward_found {t : α} {ls rs : List (List α)} (h : forward t ls = .found rs) :
    Forall₂ (Skips t) ls rs ∧ ∀ r ∈ rs, r.head? = some t := by
  induction ls generalizing rs with
  | nil => simp [forward] at h; subst h; simp
  | cons l ls ih =>
    simp only [forward] at h
    have hl := skips_dropWhile t l
    split at h
    · cases h
    · rename_i x xs hx
      rw [hx] at hl
      have hge : ¬ x < t := by
        have := head?_dropWhile_not (fun y => decide (y < t)) l
        simp [hx] at this
        exact not_lt.mpr this
      split at h
      · cases h
      · rename_i hle
        have hxt : x = t := le_antisymm (not_lt.mp hle) (not_lt.mp hge)
        split at h
        · cases h
        · cases h
        · rename_i rs₁ hf
          cases h
          obtain ⟨hall, hhd⟩ := ih hf
          exact ⟨.cons hl hall, by simpa [hxt] using hhd⟩

variable {ls : List (List α)}

theorem forward_exhausted {t : α} (h : forward t ls = .exhausted) : ∃ l ∈ ls, ∀ y ∈ l, y < t := by
  induction ls with
  | nil => simp [forward] at h
  | cons l ls ih =>
    simp only [forward] at h
    split at h
    · rename_i hnil
      refine ⟨l, by simp, fun y hy => ?_⟩
      have := dropWhile_eq_nil_iff.mp hnil y hy
      simpa using this
    · split at h
      · cases h
      · split at h
        · rename_i hf
          obtain ⟨l', hl', hy⟩ := ih hf
          exact ⟨l', by simp [hl'], hy⟩
        · cases h
        · cases h

/-! ## Gathered elements -/

theorem gathered_append_of_lt {x : α} {d r : List α} (hd : ∀ y ∈ d, y < x) : Gathered x (d ++ r) ↔ Gathered x r := by
  have h : (d ++ r).dropWhile (· < x) = r.dropWhile (· < x) := by
    rw [dropWhile_append_of_pos]
    intro y hy
    simpa using hd y hy
  simp [Gathered, h]

variable {l r : List α} {t x : α}

theorem Skips.gathered_iff (h : Skips t l r) (ht : t ≤ x) : Gathered x l ↔ Gathered x r := by
  obtain ⟨d, rfl, hd⟩ := h
  exact gathered_append_of_lt fun y hy => lt_of_lt_of_le (hd y hy) ht

theorem Skips.count_le {t : α} (h : Skips t l r) (x : α) : r.count x ≤ l.count x := by
  obtain ⟨d, rfl, -⟩ := h
  simp

theorem Skips.count_eq (h : Skips t l r) (ht : t ≤ x) : r.count x = l.count x := by
  obtain ⟨d, rfl, hd⟩ := h
  have : x ∉ d := fun hx => absurd (hd x hx) (not_lt.mpr ht)
  simp [count_eq_zero.mpr this]

/-- The element under the cursor is at most a gathered element that is still ahead. -/
theorem Gathered.head_le {x y : α} {l : List α} (h : Gathered x l) (hx : x ∈ l) (hy : l.head? = some y) : y ≤ x := by
  by_contra hlt
  obtain ⟨l', rfl⟩ : ∃ l', l = y :: l' := by
    cases l with
    | nil => simp at hy
    | cons a l' => simp at hy; exact ⟨l', by rw [hy]⟩
  have hne : y ≠ x := fun e => hlt (e ▸ le_rfl)
  have h₁ : ¬ y < x := fun h => hlt h.le
  apply h
  simpa [h₁, hne] using hx

/-- At a cursor on `v`, the run of `v` takes all occurrences exactly if `v` is gathered. -/
theorem gathered_iff_of_head {v : α} {l : List α} (hv : l.head? = some v) :
    Gathered v l ↔ (l.dropWhile (· = v)).count v = 0 := by
  have : l.dropWhile (· < v) = l := by
    cases l with
    | nil => rfl
    | cons a l' => simp at hv; simp [hv]
  rw [Gathered, this, count_eq_zero]

theorem run_add_count (v : α) (l : List α) :
    (l.takeWhile (· = v)).length + (l.dropWhile (· = v)).count v = l.count v := by
  conv => rhs; rw [← takeWhile_append_dropWhile (p := fun y => decide (y = v)) (l := l)]
  rw [count_append]
  congr 1
  have : ∀ y ∈ l.takeWhile (· = v), v = y := fun y hy => by
    have : y = v := by simpa using mem_takeWhile_imp hy
    exact this.symm
  exact (count_eq_length.mpr this).symm

theorem count_dropRun {v x : α} (hx : v ≠ x) (l : List α) : (l.dropWhile (· = v)).count x = l.count x := by
  conv => rhs; rw [← takeWhile_append_dropWhile (p := fun y => decide (y = v)) (l := l)]
  have : x ∉ l.takeWhile (· = v) := fun h => by
    have : x = v := by simpa using mem_takeWhile_imp h
    exact hx this.symm
  rw [count_append, count_eq_zero.mpr this, zero_add]

theorem gathered_dropRun {v x : α} (hx : v < x) (l : List α) : Gathered x (l.dropWhile (· = v)) ↔ Gathered x l := by
  conv => rhs; rw [← takeWhile_append_dropWhile (p := fun y => decide (y = v)) (l := l)]
  refine (gathered_append_of_lt fun y hy => ?_).symm
  have : y = v := by simpa using mem_takeWhile_imp hy
  rwa [this]

theorem one_le_run {v : α} {l : List α} (h : l.head? = some v) : 1 ≤ (l.takeWhile (· = v)).length := by
  cases l with
  | nil => simp at h
  | cons a l' => simp at h; simp [h]

/-! ## Targets -/

theorem le_nextTarget (t : α) (ls : List (List α)) : t ≤ nextTarget t ls := by
  induction ls generalizing t with
  | nil => exact le_rfl
  | cons l ls ih =>
    simp only [nextTarget, foldl_cons]
    refine le_trans ?_ (ih _)
    cases l.head? <;> simp

theorem nextTarget_le (ht : t ≤ x) (h : ∀ l ∈ ls, ∀ y, l.head? = some y → y ≤ x) : nextTarget t ls ≤ x := by
  induction ls generalizing t with
  | nil => exact ht
  | cons l ls ih =>
    simp only [nextTarget, foldl_cons]
    refine ih ?_ fun l' hl' => h l' (by simp [hl'])
    cases hh : l.head? with
    | none => exact ht
    | some y => exact max_le ht (h l (by simp) y hh)

variable {out : List (α × List Nat)}

/-- Every hit is at or above the first target. -/
theorem Run.le_of_mem {t : α} (h : Run t ls out) {e : α × List Nat} (he : e ∈ out) : t ≤ e.1 := by
  induction h with
  | exhausted => simp at he
  | missed h _ ih => exact (forward_missed h).1.le.trans (ih he)
  | last => simp at he; simp [he]
  | next _ _ _ ih =>
    rcases mem_cons.mp he with rfl | he
    · exact le_rfl
    · exact (le_nextTarget _ _).trans (ih he)

theorem emitted_pos_mem {w : Nat → Nat} {x : α} (h : 0 < emitted w out x) : ∃ e ∈ out, e.1 = x := by
  by_contra hn
  push Not at hn
  have : emitted w out x = 0 := by
    simp only [emitted, sum_eq_zero_iff, mem_map]
    rintro n ⟨e, he, rfl⟩
    simp [hn e he]
  omega

/-- Nothing below the target is reported. -/
theorem Run.target_le {w : Nat → Nat} (h : Run t ls out) (hx : 0 < emitted w out x) : t ≤ x := by
  obtain ⟨e, he, rfl⟩ := emitted_pos_mem hx
  exact h.le_of_mem he

/-! ## Products of occurrences -/

section Products

variable {β : Type} (f g : β → Nat)

theorem prod_map_le_prod_map_add (ls : List β) : (ls.map f).prod ≤ (ls.map fun l => f l + g l).prod :=
  prod_map_le_prod_map₀ _ _ (by simp) (by simp)

variable {ls : List β}

variable {f} in
theorem prod_map_pos (hf : ∀ l ∈ ls, 0 < f l) : 0 < (ls.map f).prod := prod_pos (by simpa using hf)

theorem prod_map_lt_prod_map_add (hf : ∀ l ∈ ls, 1 ≤ f l)
    (hg : ∃ l ∈ ls, 0 < g l) : (ls.map f).prod < (ls.map fun l => f l + g l).prod := by
  induction ls with
  | nil => simp at hg
  | cons l ls ih =>
    simp only [map_cons, prod_cons]
    have hl := hf l (by simp)
    have hpos := prod_map_pos fun l hl => hf l (mem_cons_of_mem _ hl)
    by_cases hgl : 0 < g l
    · have hle := prod_map_le_prod_map_add f g ls
      exact Nat.mul_lt_mul_of_lt_of_le (by omega) hle (by omega)
    · have hrest : ∃ l ∈ ls, 0 < g l := by simpa [hgl] using hg
      have := ih (fun l hl => hf l (by simp [hl])) hrest
      exact Nat.mul_lt_mul_of_le_of_lt (by omega) this (by omega)

/-- Splitting every list in two parts loses the combinations across the parts. -/
theorem prod_map_add_prod_map_le (hne : ls ≠ []) :
    (ls.map f).prod + (ls.map g).prod ≤ (ls.map fun l => f l + g l).prod := by
  cases ls with
  | nil => exact absurd rfl hne
  | cons l ls =>
    simp only [map_cons, prod_cons, add_mul]
    have h₂ := prod_map_le_prod_map_add g f ls
    simp only [add_comm (g _)] at h₂
    exact add_le_add (Nat.mul_le_mul_left _ (prod_map_le_prod_map_add f g ls)) (Nat.mul_le_mul_left _ h₂)

theorem prod_map_add_prod_map_lt (hlen : 2 ≤ ls.length) (hf : ∀ l ∈ ls, 1 ≤ f l)
    (hg : ∃ l ∈ ls, 0 < g l) : (ls.map f).prod + (ls.map g).prod < (ls.map fun l => f l + g l).prod := by
  cases ls with
  | nil => simp at hlen
  | cons l ls =>
    simp only [map_cons, prod_cons, add_mul]
    have hl := hf l (by simp)
    have hf' : ∀ l ∈ ls, 1 ≤ f l := fun l hl => hf l (by simp [hl])
    have h₂ := prod_map_le_prod_map_add g f ls
    simp only [add_comm (g _)] at h₂
    by_cases ht : ∃ l ∈ ls, 0 < g l
    · have := prod_map_lt_prod_map_add f g hf' ht
      exact add_lt_add_of_lt_of_le (Nat.mul_lt_mul_of_pos_left this (by omega)) (Nat.mul_le_mul_left _ h₂)
    · -- Only the first list has a second part, so the product of the second parts is zero.
      have hgl : 0 < g l := by simpa [ht] using hg
      push Not at ht
      obtain ⟨a, ha⟩ := exists_mem_of_length_pos (Nat.le_of_succ_le_succ hlen)
      have hz : (ls.map g).prod = 0 := prod_eq_zero (mem_map.mpr ⟨a, ha, Nat.le_zero.mp (ht a ha)⟩)
      have hpos : 0 < (ls.map fun l => f l + g l).prod := prod_map_pos fun l hl => Nat.le_add_right_of_le (hf' l hl)
      rw [hz]
      have := Nat.mul_le_mul_left (f l) (prod_map_le_prod_map_add f g ls)
      have := mul_pos hgl hpos
      omega

end Products

theorem prod_map_le_of_forall₂ {ls rs : List (List α)} {x : α}
    (h : Forall₂ (fun l r => r.count x ≤ l.count x) ls rs) :
    combinations rs x ≤ combinations ls x := by
  induction h with
  | nil => exact le_rfl
  | cons h _ ih => simpa [combinations] using Nat.mul_le_mul h ih

theorem combinations_pos_iff {x : α} : 0 < combinations ls x ↔ ∀ l ∈ ls, x ∈ l := by
  simp [combinations]

/-- The product of the occurrences of the hit element, split at the runs. -/
theorem combinations_split (v : α) (ls : List (List α)) : combinations ls v =
      (ls.map fun l => (l.takeWhile (· = v)).length + (l.dropWhile (· = v)).count v).prod := by
  simp [combinations, run_add_count]

theorem combinations_skipRuns (v x : α) (ls : List (List α)) :
    combinations (skipRuns v ls) x = (ls.map fun l => (l.dropWhile (· = v)).count x).prod := by
  simp [combinations, skipRuns, Function.comp_def]

theorem combinations_skipRuns_ne {v x : α} (h : v ≠ x) (ls : List (List α)) :
    combinations (skipRuns v ls) x = combinations ls x := by
  rw [combinations_skipRuns]
  simp [count_dropRun h, combinations]

/-! ## The hits of a run -/

section Hits

variable {w : Nat → Nat} {t x : α} {ls rs : List (List α)} {out : List (α × List Nat)}

theorem emitted_cons (w : Nat → Nat) (e : α × List Nat) (out : List (α × List Nat)) (x : α) :
    emitted w (e :: out) x = (if e.1 = x then w e.2.prod else 0) + emitted w out x := by
  simp [emitted]

theorem emitted_nil (w : Nat → Nat) (x : α) : emitted w [] x = 0 := rfl

section
variable (h : Forall₂ (Skips t) ls rs)
include h

theorem combinations_le_of_skips (x : α) : combinations rs x ≤ combinations ls x :=
  prod_map_le_of_forall₂ (h.imp fun _ _ h => h.count_le x)

theorem combinations_eq_of_skips (hx : t ≤ x) : combinations rs x = combinations ls x := by
  induction h with
  | nil => rfl
  | cons h _ ih => simp only [combinations, map_cons, prod_cons, h.count_eq hx] at ih ⊢; rw [ih]

/-- A list with an element under every cursor stays nonempty when the cursors are forwarded. -/
theorem ne_nil_of_skips (hne : ls ≠ []) : rs ≠ [] := by
  intro hr
  subst hr
  cases h
  exact hne rfl

theorem mem_of_skips (hx : ∀ r ∈ rs, x ∈ r) : ∀ l ∈ ls, x ∈ l :=
  combinations_pos_iff.mp ((combinations_pos_iff.mpr hx).trans_le (combinations_le_of_skips h x))

end

/-- One hit takes at most the combinations of the runs under the cursors. -/
theorem hit_add_le (hw : ∀ n, w n ≤ n) (hne : rs ≠ []) (v : α) :
    w (counts v rs).prod + combinations (skipRuns v rs) v ≤ combinations rs v := by
  rw [combinations_split v rs, combinations_skipRuns]
  exact (Nat.add_le_add_right (hw _) _).trans (prod_map_add_prod_map_le _ _ hne)

theorem Run.emitted_le (hw : ∀ n, w n ≤ n) (h : Run t ls out) (hne : ls ≠ []) (x : α) :
    emitted w out x ≤ combinations ls x := by
  induction h with
  | exhausted => simp [emitted_nil]
  | missed h _ ih =>
    obtain ⟨-, hs, -⟩ := forward_missed h
    exact (ih (ne_nil_of_skips hs hne)).trans (combinations_le_of_skips hs x)
  | last h _ =>
    obtain ⟨hs, -⟩ := forward_found h
    refine le_trans ?_ (combinations_le_of_skips hs x)
    rw [emitted_cons, emitted_nil]
    split
    · rename_i hx
      subst hx
      have := hit_add_le hw (ne_nil_of_skips hs hne) (w := w)
      exact (Nat.add_le_add_left (Nat.zero_le _) _).trans (this _)
    · simp
  | next h _ _ ih =>
    obtain ⟨hs, -⟩ := forward_found h
    have hne' := ne_nil_of_skips hs hne
    refine le_trans ?_ (combinations_le_of_skips hs x)
    have ih := ih (by simpa [skipRuns] using hne')
    rw [emitted_cons]
    split
    · rename_i hx
      subst hx
      exact (Nat.add_le_add_left ih _).trans (hit_add_le hw hne' _)
    · rename_i hx
      rw [combinations_skipRuns_ne hx] at ih
      simpa using ih

theorem length_eq_of_skips (h : Forall₂ (Skips t) ls rs) : rs.length = ls.length := h.length_eq.symm

theorem gathered_of_skips (h : Forall₂ (Skips t) ls rs) (hx : t ≤ x) :
    (∀ l ∈ ls, Gathered x l) ↔ ∀ r ∈ rs, Gathered x r := by
  induction h with
  | nil => simp
  | cons h _ ih => simp [h.gathered_iff hx, ih]

variable {v : α}

theorem gathered_skipRuns (hx : v < x) (rs : List (List α)) :
    (∀ r ∈ skipRuns v rs, Gathered x r) ↔ ∀ r ∈ rs, Gathered x r := by
  simp [skipRuns, gathered_dropRun hx]

/-- A hit on an element that is gathered in every list takes all its combinations. -/
theorem hit_of_gathered (hne : rs ≠ []) (hhd : ∀ r ∈ rs, r.head? = some v) (hg : ∀ r ∈ rs, Gathered v r) :
    combinations rs v = (counts v rs).prod ∧ combinations (skipRuns v rs) v = 0 := by
  have hz : ∀ r ∈ rs, (r.dropWhile (· = v)).count v = 0 := fun r hr =>
    (gathered_iff_of_head (hhd r hr)).mp (hg r hr)
  constructor
  · rw [combinations_split v rs]
    congr 1
    exact map_congr_left fun r hr => by rw [hz r hr, add_zero]
  · obtain ⟨r, rs', rfl⟩ := exists_cons_of_ne_nil hne
    simp [combinations_skipRuns, hz r (by simp)]

/-- If a hit on `v` and what is left together report every combination of `v`, the hit took all
occurrences of `v`. -/
theorem gathered_of_hit {m : Nat} (hw : ∀ n, w n ≤ n) (hlen : 2 ≤ rs.length)
    (hhd : ∀ r ∈ rs, r.head? = some v) (hm : m ≤ combinations (skipRuns v rs) v)
    (heq : w (counts v rs).prod + m = combinations rs v) :
    (∀ r ∈ rs, Gathered v r) ∧ w (combinations rs v) = combinations rs v := by
  have hle := hw (counts v rs).prod
  have hall : ∀ r ∈ rs, (r.dropWhile (· = v)).count v = 0 := by
    by_contra hn
    push Not at hn
    obtain ⟨r, hr, hc⟩ := hn
    have := prod_map_add_prod_map_lt (fun l : List α => (l.takeWhile (· = v)).length)
      (fun l => (l.dropWhile (· = v)).count v) hlen (fun l hl => one_le_run (hhd l hl))
      ⟨r, hr, pos_of_ne_zero hc⟩
    rw [← combinations_split v rs, ← combinations_skipRuns] at this
    simp only [counts] at heq hle
    omega
  have hg : ∀ r ∈ rs, Gathered v r := fun r hr => (gathered_iff_of_head (hhd r hr)).mpr (hall r hr)
  obtain ⟨hc, hz⟩ := hit_of_gathered (by rintro rfl; simp at hlen) hhd hg
  refine ⟨hg, ?_⟩
  rw [hc] at heq ⊢
  omega

/-- An element that is reported as often as the lists combine it is gathered in every list. -/
theorem Run.gathered_of_emitted_eq (hw : ∀ n, w n ≤ n) (h : Run t ls out) (hlen : 2 ≤ ls.length)
    (hpos : 0 < combinations ls x) (heq : emitted w out x = combinations ls x) :
    (∀ l ∈ ls, Gathered x l) ∧ w (combinations ls x) = combinations ls x := by
  have htx : t ≤ x := h.target_le (heq ▸ hpos)
  induction h with
  | exhausted => rw [emitted_nil] at heq; omega
  | missed h hr ih =>
    obtain ⟨-, hs, -⟩ := forward_missed h
    have hc := combinations_eq_of_skips hs htx
    rw [gathered_of_skips hs htx, ← hc]
    rw [← hc] at hpos heq
    exact ih (by rw [length_eq_of_skips hs]; exact hlen) hpos heq (hr.target_le (heq ▸ hpos))
  | last h _ =>
    obtain ⟨hs, hhd⟩ := forward_found h
    rw [gathered_of_skips hs htx, ← combinations_eq_of_skips hs htx]
    rw [← combinations_eq_of_skips hs htx, emitted_cons, emitted_nil] at heq
    rw [← combinations_eq_of_skips hs htx] at hpos
    split at heq
    · rename_i hx
      subst hx
      exact gathered_of_hit hw (by rw [length_eq_of_skips hs]; exact hlen) hhd (Nat.zero_le _) heq
    · omega
  | next h _ hr ih =>
    rename_i t₀ _ rs₀ _ _
    obtain ⟨hs, hhd⟩ := forward_found h
    have hlen' : 2 ≤ rs₀.length := by rw [length_eq_of_skips hs]; exact hlen
    have hne : skipRuns t₀ rs₀ ≠ [] := by
      intro h0
      simp [skipRuns] at h0
      simp [h0] at hlen'
    rw [gathered_of_skips hs htx, ← combinations_eq_of_skips hs htx]
    rw [← combinations_eq_of_skips hs htx, emitted_cons] at heq
    rw [← combinations_eq_of_skips hs htx] at hpos
    split at heq
    · rename_i hx
      subst hx
      exact gathered_of_hit hw hlen' hhd (hr.emitted_le hw hne _) heq
    · rename_i hx
      rw [zero_add] at heq
      have hlt : t₀ < x := lt_of_le_of_ne htx hx
      have hc := combinations_skipRuns_ne hx rs₀
      rw [← hc] at hpos heq ⊢
      rw [← gathered_skipRuns hlt]
      exact ih (by simpa [skipRuns] using hlen') hpos heq (hr.target_le (heq ▸ hpos))

/-- What is left of a common element that the cursors do not pass. -/
theorem kept_of_skips (hs : Forall₂ (Skips t) ls rs) (htx : t ≤ x) (hmem : ∀ l ∈ ls, x ∈ l)
    (hg : ∀ l ∈ ls, Gathered x l) :
    combinations rs x = combinations ls x ∧ (∀ r ∈ rs, x ∈ r) ∧ ∀ r ∈ rs, Gathered x r :=
  have hc := combinations_eq_of_skips hs htx
  ⟨hc, combinations_pos_iff.mp (hc ▸ combinations_pos_iff.mpr hmem), (gathered_of_skips hs htx).mp hg⟩

/-- A common element that is gathered in every list is reported with the weight of its
combinations: no cursor passes it before all of them reach it. -/
theorem Run.emitted_eq_of_gathered (hw : ∀ n, w n ≤ n) (h : Run t ls out) (hne : ls ≠ [])
    (htx : t ≤ x) (hmem : ∀ l ∈ ls, x ∈ l) (hg : ∀ l ∈ ls, Gathered x l) :
    emitted w out x = w (combinations ls x) := by
  induction h with
  | exhausted h =>
    obtain ⟨l, hl, hy⟩ := forward_exhausted h
    exact absurd (hy x (hmem l hl)) (not_lt.mpr htx)
  | missed h hr ih =>
    obtain ⟨-, hs, r, hr', hhd⟩ := forward_missed h
    obtain ⟨hc, hmem', hg'⟩ := kept_of_skips hs htx hmem hg
    rw [← hc]
    exact ih (ne_nil_of_skips hs hne) ((hg' r hr').head_le (hmem' r hr') hhd) hmem' hg'
  | last h he =>
    rename_i t₀ _ rs₀
    obtain ⟨hs, hhd⟩ := forward_found h
    obtain ⟨hc, hmem', hg'⟩ := kept_of_skips hs htx hmem hg
    rw [← hc]
    rw [emitted_cons, emitted_nil, add_zero]
    by_cases hx : t₀ = x
    · subst hx
      obtain ⟨hp, -⟩ := hit_of_gathered (ne_nil_of_skips hs hne) hhd hg'
      rw [if_pos rfl, ← hp]
    · obtain ⟨r, hr, hnil⟩ := mem_map.mp he
      have := count_pos_iff.mpr (hmem' r hr)
      rw [← count_dropRun hx, hnil] at this
      simp at this
  | next h _ hr ih =>
    rename_i t₀ _ rs₀ _ _
    obtain ⟨hs, hhd⟩ := forward_found h
    obtain ⟨hc, hmem', hg'⟩ := kept_of_skips hs htx hmem hg
    rw [← hc]
    have hne' := ne_nil_of_skips hs hne
    have hneS : skipRuns t₀ rs₀ ≠ [] := by simpa [skipRuns] using hne'
    rw [emitted_cons]
    by_cases hx : t₀ = x
    · subst hx
      obtain ⟨hp, hz⟩ := hit_of_gathered hne' hhd hg'
      have hle := hr.emitted_le hw hneS t₀
      rw [if_pos rfl, ← hp]
      omega
    · have hlt : t₀ < x := lt_of_le_of_ne htx hx
      rw [if_neg hx, zero_add]
      have hcs := combinations_skipRuns_ne hx rs₀
      rw [← hcs]
      have hmemS := combinations_pos_iff.mp (hcs ▸ combinations_pos_iff.mpr hmem')
      have hgS := (gathered_skipRuns hlt rs₀).mpr hg'
      refine ih hneS (nextTarget_le htx fun l hl y hy => ?_) hmemS hgS
      exact (hgS l hl).head_le (hmemS l hl) hy

theorem Run.emitted_eq_iff (hw : ∀ n, w n ≤ n) (h : Run t ls out) (hlen : 2 ≤ ls.length)
    (ht : ∃ l ∈ ls, l.head? = some t) (hmem : ∀ l ∈ ls, x ∈ l) :
    emitted w out x = combinations ls x ↔ (∀ l ∈ ls, Gathered x l) ∧ w (combinations ls x) = combinations ls x := by
  constructor
  · exact h.gathered_of_emitted_eq hw hlen (combinations_pos_iff.mpr hmem)
  · rintro ⟨hg, hex⟩
    obtain ⟨l, hl, hhd⟩ := ht
    have hne : ls ≠ [] := ne_nil_of_mem hl
    exact (h.emitted_eq_of_gathered hw hne ((hg l hl).head_le (hmem l hl) hhd) hmem hg).trans hex

theorem Run.mem_of_mem (h : Run t ls out) {e : α × List Nat} (he : e ∈ out) : ∀ l ∈ ls, e.1 ∈ l := by
  induction h with
  | exhausted => simp at he
  | missed h _ ih =>
    obtain ⟨-, hs, -⟩ := forward_missed h
    exact mem_of_skips hs (ih he)
  | last h _ =>
    obtain ⟨hs, hhd⟩ := forward_found h
    rw [mem_singleton] at he
    subst he
    exact mem_of_skips hs fun r hr => mem_of_head? (hhd r hr)
  | next h _ _ ih =>
    obtain ⟨hs, hhd⟩ := forward_found h
    apply mem_of_skips hs
    rcases mem_cons.mp he with rfl | he
    · exact fun r hr => mem_of_head? (hhd r hr)
    · exact fun r hr => (dropWhile_sublist _).mem (ih he _ (mem_map_of_mem hr))

theorem hits_cons {β : Type} (w : Nat → Nat) (e : β × List Nat) (out : List (β × List Nat)) :
    hits w (e :: out) = replicate (w e.2.prod) e.1 ++ hits w out := by
  simp [hits]

theorem count_hits (w : Nat → Nat) (out : List (α × List Nat)) (x : α) : (hits w out).count x = emitted w out x := by
  induction out with
  | nil => rfl
  | cons e out ih => rw [hits_cons, count_append, ih, emitted_cons, count_replicate]; simp

/-- The hits are exact at every element if and only if every common element is gathered in every
list and the weight of its product is exact. -/
theorem Run.count_hits_iff (hw : ∀ n, w n ≤ n) (h : Run t ls out) (hlen : 2 ≤ ls.length)
    (ht : ∃ l ∈ ls, l.head? = some t) :
    (∀ x, (hits w out).count x = combinations ls x) ↔ ∀ x, 0 < combinations ls x →
        (∀ l ∈ ls, Gathered x l) ∧ w (combinations ls x) = combinations ls x := by
  have hne : ls ≠ [] := by
    rintro rfl
    simp at hlen
  refine forall_congr' fun x => ?_
  rw [count_hits]
  constructor
  · intro heq hpos
    exact (h.emitted_eq_iff hw hlen ht (combinations_pos_iff.mp hpos)).mp heq
  · intro hg
    rcases Nat.eq_zero_or_pos (combinations ls x) with hz | hpos
    · have := h.emitted_le hw hne x
      omega
    · exact (h.emitted_eq_iff hw hlen ht (combinations_pos_iff.mp hpos)).mpr (hg hpos)

end Hits

/-! ## Rounds

Every round but the last lowers `rank`: a missed target leaves fewer elements above the next
target, and a hit leaves fewer elements. -/

section Rank

variable {t t' : α} {ls rs : List (List α)}

/-- A bound for the number of rounds. -/
def rank (t : α) (ls : List (List α)) : Nat := (ls.map fun l => l.length + l.countP (t < ·)).sum

theorem Skips.sublist {l r : List α} (h : Skips t l r) : r.Sublist l := by
  obtain ⟨d, rfl, -⟩ := h
  exact sublist_append_right d r

theorem countP_lt_le {l r : List α} (h : r.Sublist l) (ht : t ≤ t') : r.countP (t' < ·) ≤ l.countP (t < ·) := by
  refine (countP_mono_left fun x _ hx => ?_).trans h.countP_le
  simp only [decide_eq_true_eq] at hx ⊢
  exact lt_of_le_of_lt ht hx

theorem rank_le_of_sublist (h : Forall₂ (fun l r => Sublist r l) ls rs) (ht : t ≤ t') : rank t' rs ≤ rank t ls := by
  induction h with
  | nil => exact le_rfl
  | cons h _ ih =>
    have := h.length_le
    have := countP_lt_le h ht
    simp only [rank, map_cons, sum_cons] at ih ⊢
    omega

/-- The new target is above the old one and not above itself. -/
theorem rank_missed (h : forward t ls = .missed t' rs) : rank t' rs < rank t ls := by
  obtain ⟨hlt, hs, hhd⟩ := forward_missed h
  clear h
  induction hs with
  | nil => simp at hhd
  | @cons l r ls rs hl hs ih =>
    have hlen := hl.sublist.length_le
    have hcount := countP_lt_le hl.sublist hlt.le
    obtain ⟨r', hr', hr''⟩ := hhd
    simp only [rank, map_cons, sum_cons]
    rcases mem_cons.mp hr' with rfl | hr'
    · obtain ⟨r₁, rfl⟩ := head?_eq_some_iff.mp hr''
      have htail := countP_lt_le (List.Sublist.refl r₁) hlt.le
      have hsub := hl.sublist.countP_le (p := fun x => decide (t < x))
      have hrank := rank_le_of_sublist (hs.imp fun _ _ h => h.sublist) hlt.le
      simp only [rank] at hrank
      simp only [countP_cons, hlt, lt_irrefl, decide_true, decide_false] at hcount hsub ⊢
      simp only [if_true, Bool.false_eq_true, if_false] at hcount hsub ⊢
      omega
    · have := ih ⟨r', hr', hr''⟩
      simp only [rank] at this
      omega

/-- A hit skips one element of every list at least. -/
theorem rank_found (h : forward t ls = .found rs) (hne : ls ≠ []) (ht : t ≤ t') :
    rank t' (skipRuns t rs) < rank t ls := by
  obtain ⟨hs, hhd⟩ := forward_found h
  cases hs with
  | nil => exact absurd rfl hne
  | @cons l r ls rs hl hs =>
    obtain ⟨r₁, rfl⟩ := head?_eq_some_iff.mp (hhd r mem_cons_self)
    have hlen := hl.sublist.length_le
    have hrun : ((t :: r₁).dropWhile (· = t)).Sublist r₁ := by
      rw [dropWhile_cons_of_pos (by simp)]
      exact dropWhile_sublist _
    have hrunLen := hrun.length_le
    have hcount := countP_lt_le (hrun.trans ((sublist_cons_self t r₁).trans hl.sublist)) ht
    have hrank : rank t' (skipRuns t rs) ≤ rank t ls := by
      refine rank_le_of_sublist ?_ ht
      rw [skipRuns, forall₂_map_right_iff]
      exact hs.imp fun _ _ h => (dropWhile_sublist _).trans h.sublist
    simp only [rank, skipRuns, map_cons, sum_cons, length_cons] at hrank hlen ⊢
    omega

end Rank

end Leapfrog
end CycleJoin
