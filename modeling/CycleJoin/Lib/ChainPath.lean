import Mathlib

/-!
# Chains of nodes of degree two

In a graph given by neighbour lists `N`, a walk that enters a node of degree two has one way to
go on without turning back. A **chain path** starts and ends at nodes of another degree and passes
nodes of degree two only.

* `Onward N a b r`: entering `b` from `a`, the walk goes on through `r` and stops at a node whose
  degree is not two. It is unique (`Onward.unique`).
* `IsChainPath.eq_of_step`, `IsChainPath.eq_reverse_of_step`: two chain paths that share a step are
  equal, and two that take one in opposite directions are each other's reverse.
* `IsChainPath.nodup`: a chain path with different ends repeats no node.
* `steps_nodup`: a walk from a node of another degree repeats no step, so it ends.
-/

namespace CycleJoin

open List

namespace ChainPath

variable {α : Type}

/-! ## Steps of a list -/

/-- The pairs of consecutive elements. -/
def steps : List α → List (α × α)
  | a :: b :: l => (a, b) :: steps (b :: l)
  | _ => []

variable {a b : α} {p : List α}

theorem mem_steps : (a, b) ∈ steps p ↔ ∃ pre post, p = pre ++ a :: b :: post := by
  induction p with
  | nil => simp [steps]
  | cons x l ih =>
    cases l with
    | nil =>
      simp only [steps, not_mem_nil, false_iff, not_exists]
      intro pre post h
      have := congrArg List.length h
      simp at this
      omega
    | cons y l =>
      rw [steps, mem_cons, ih]
      constructor
      · rintro (h | ⟨pre, post, h⟩)
        · cases h
          exact ⟨[], l, rfl⟩
        · exact ⟨x :: pre, post, by rw [h]; rfl⟩
      · rintro ⟨pre, post, h⟩
        cases pre with
        | nil => cases h; exact .inl rfl
        | cons z pre => exact .inr ⟨pre, post, (List.cons.inj h).2⟩

theorem length_steps (p : List α) : (steps p).length = p.length - 1 := by
  induction p with
  | nil => rfl
  | cons x l ih =>
    cases l with
    | nil => rfl
    | cons y l => simp only [steps, length_cons, ih]; omega

theorem mem_steps_reverse : (a, b) ∈ steps p.reverse ↔ (b, a) ∈ steps p := by
  simp only [mem_steps]
  constructor
  · rintro ⟨pre, post, h⟩
    refine ⟨post.reverse, pre.reverse, ?_⟩
    rw [← reverse_reverse p, h]
    simp
  · rintro ⟨pre, post, h⟩
    refine ⟨post.reverse, pre.reverse, ?_⟩
    rw [h]
    simp

theorem mem_steps_append_left {p q : List α} {e : α × α} (h : e ∈ steps p) : e ∈ steps (p ++ q) := by
  obtain ⟨pre, post, rfl⟩ := mem_steps.mp h
  exact mem_steps.mpr ⟨pre, post ++ q, by simp⟩

theorem mem_steps_append_right {p q : List α} {e : α × α} (h : e ∈ steps q) : e ∈ steps (p ++ q) := by
  obtain ⟨pre, post, rfl⟩ := mem_steps.mp h
  exact mem_steps.mpr ⟨p ++ pre, post, by simp⟩

theorem mem_of_mem_steps (h : (a, b) ∈ steps p) : a ∈ p ∧ b ∈ p := by
  obtain ⟨pre, post, rfl⟩ := mem_steps.mp h
  simp

theorem exists_step_of_mem {a : α} (hlen : 2 ≤ p.length) (ha : a ∈ p) : ∃ b, (a, b) ∈ steps p ∨ (b, a) ∈ steps p := by
  obtain ⟨pre, post, rfl⟩ := append_of_mem ha
  cases post with
  | cons b post => exact ⟨b, .inl (mem_steps.mpr ⟨pre, post, rfl⟩)⟩
  | nil =>
    obtain ⟨pre, b, rfl⟩ := eq_nil_or_concat' pre |>.resolve_left (by rintro rfl; simp at hlen)
    exact ⟨b, .inr (mem_steps.mpr ⟨pre, [], by simp⟩)⟩

/-! ## Onward walks -/

variable {x : α}

/-- Elements between the ends are those with something before and after them. -/
theorem exists_split_of_mem (hx : x ∈ p.tail.dropLast) : ∃ pre post, p = pre ++ x :: post ∧ pre ≠ [] ∧ post ≠ [] := by
  obtain ⟨y, l, rfl⟩ := exists_cons_of_ne_nil (l := p) (by rintro rfl; cases hx)
  rw [tail_cons] at hx
  obtain ⟨l, z, rfl⟩ := eq_nil_or_concat' l |>.resolve_left (by rintro rfl; cases hx)
  rw [dropLast_concat] at hx
  obtain ⟨pre, post, rfl⟩ := append_of_mem hx
  exact ⟨y :: pre, post ++ [z], by simp, by simp, by simp⟩

/-- A graph by neighbour lists: undirected, without repeated neighbours. -/
structure IsGraph (N : α → List α) : Prop where
  symm : ∀ {a b}, b ∈ N a → a ∈ N b
  nodup : ∀ a, (N a).Nodup

/-- The walk that enters `b` from `a` goes on through `r` and stops there. -/
inductive Onward (N : α → List α) : α → α → List α → Prop where
  | stop {a b : α} (h : (N b).length ≠ 2) : Onward N a b []
  | step {a b c : α} {r : List α} (h : (N b).length = 2) (hc : c ∈ N b) (hne : c ≠ a)
      (hr : Onward N b c r) : Onward N a b (c :: r)

variable {N : α → List α}

/-- A node of degree two has one neighbour besides a given one. -/
theorem other_unique {a b c c' : α} (h : (N b).length = 2) (ha : a ∈ N b)
    (hc : c ∈ N b) (hne : c ≠ a) (hc' : c' ∈ N b) (hne' : c' ≠ a) : c = c' := by
  obtain ⟨x, y, hxy⟩ := length_eq_two.mp h
  aesop

theorem Onward.unique (hN : IsGraph N) {r r' : List α} (hab : b ∈ N a)
    (h : Onward N a b r) (h' : Onward N a b r') : r = r' := by
  induction h generalizing r' with
  | stop hne =>
    cases h' with
    | stop => rfl
    | step h2 => exact absurd h2 hne
  | step h2 hc hne _ ih =>
    cases h' with
    | stop hn => exact absurd h2 hn
    | step _ hc' hne' hr' =>
      obtain rfl := other_unique h2 (hN.symm hab) hc hne hc' hne'
      rw [ih hc hr']

/-! ## Chain paths -/

/-- A path that leaves a node whose degree is not two and goes on to the next such node. -/
inductive IsChainPath (N : α → List α) : List α → Prop where
  | mk {s n : α} {r : List α} (hs : (N s).length ≠ 2) (hn : n ∈ N s) (hr : Onward N s n r) :
      IsChainPath N (s :: n :: r)

variable {p q : List α}

theorem IsChainPath.two_le_length (h : IsChainPath N p) : 2 ≤ p.length := by
  cases h
  simp

variable {pre post : List α}

namespace IsChainPath

section
variable (hN : IsGraph N) (h : IsChainPath N p)
include hN h

/-- Around a step: the walk onward from it, and the walk back from it. -/
theorem around (hp : p = pre ++ a :: b :: post) : b ∈ N a ∧ Onward N a b post ∧ Onward N b a pre.reverse := by
  obtain ⟨hs, hn, hr⟩ := h
  -- induction on the steps before this one
  induction pre using List.reverseRecOn generalizing a b post with
  | nil =>
    obtain ⟨rfl, rfl, rfl⟩ := hp
    exact ⟨hn, hr, .stop hs⟩
  | append_singleton pre z ih =>
    rw [append_assoc] at hp
    obtain ⟨ha, hon, hback⟩ := ih hp
    cases hon with
    | step h2 hb hne hr' =>
      refine ⟨hb, hr', ?_⟩
      rw [reverse_append]
      exact .step h2 (hN.symm ha) hne.symm hback

theorem adj (hab : (a, b) ∈ steps p) : b ∈ N a := by
  obtain ⟨pre, post, hp⟩ := mem_steps.mp hab
  exact (h.around hN hp).1

/-- A common step makes two chain paths equal, with the step at the same place. -/
theorem split_eq (h' : IsChainPath N q)
    {pre post pre' post' : List α} (hp : p = pre ++ a :: b :: post)
    (hq : q = pre' ++ a :: b :: post') : pre = pre' ∧ post = post' := by
  obtain ⟨hab, hon, hback⟩ := h.around hN hp
  obtain ⟨-, hon', hback'⟩ := h'.around hN hq
  exact ⟨reverse_injective (Onward.unique hN (hN.symm hab) hback hback'), Onward.unique hN hab hon hon'⟩

theorem eq_of_step (h' : IsChainPath N q) (hp : (a, b) ∈ steps p) (hq : (a, b) ∈ steps q) : p = q := by
  obtain ⟨pre, post, hp⟩ := mem_steps.mp hp
  obtain ⟨pre', post', hq⟩ := mem_steps.mp hq
  obtain ⟨rfl, rfl⟩ := h.split_eq hN h' hp hq
  rw [hp, hq]

theorem eq_reverse_of_step (h' : IsChainPath N q) (hp : (a, b) ∈ steps p) (hq : (b, a) ∈ steps q) : q = p.reverse := by
  obtain ⟨pre, post, hp⟩ := mem_steps.mp hp
  obtain ⟨pre', post', hq⟩ := mem_steps.mp hq
  obtain ⟨hab, hon, hback⟩ := h.around hN hp
  obtain ⟨-, hon', hback'⟩ := h'.around hN hq
  have hpost := Onward.unique hN hab hon hback'
  have hpre := Onward.unique hN (hN.symm hab) hback hon'
  rw [hp, hq, hpost, ← hpre]
  simp

/-- Inside a chain path the degrees are two, and the walk does not turn back. -/
theorem interior {a b c : α} (hp : p = pre ++ a :: b :: c :: post) : (N b).length = 2 ∧ c ∈ N b ∧ c ≠ a := by
  obtain ⟨-, hon, -⟩ := h.around hN hp
  cases hon with
  | step h2 hc hne _ => exact ⟨h2, hc, hne⟩

theorem length_interior {b : α} (hp : p = pre ++ b :: post) (hpre : pre ≠ []) (hpost : post ≠ []) : (N b).length = 2 := by
  obtain ⟨pre, a, rfl⟩ := eq_nil_or_concat' pre |>.resolve_left hpre
  obtain ⟨c, post, rfl⟩ := exists_cons_of_ne_nil hpost
  rw [append_assoc] at hp
  exact (h.interior hN hp).1

end

theorem head_ne_two (h : IsChainPath N p) (hx : p.head? = some x) : (N x).length ≠ 2 := by
  obtain ⟨hs, -, -⟩ := h
  cases hx
  exact hs

end IsChainPath

theorem Onward.last_ne_two {r : List α} (h : Onward N a b r)
    (hx : (b :: r).getLast? = some x) : (N x).length ≠ 2 := by
  induction h with
  | stop hne => cases hx; exact hne
  | step _ _ _ _ ih => exact ih (by rwa [getLast?_cons_cons] at hx)

theorem IsChainPath.last_ne_two (h : IsChainPath N p) (hx : p.getLast? = some x) : (N x).length ≠ 2 := by
  obtain ⟨-, -, hr⟩ := h
  exact hr.last_ne_two (by rwa [getLast?_cons_cons] at hx)

/-- A chain path that takes a step in both directions is its own reverse. -/
theorem IsChainPath.head_eq_last_of_steps (hN : IsGraph N) (h : IsChainPath N p)
    (hab : (a, b) ∈ steps p) (hba : (b, a) ∈ steps p) : p.head? = p.getLast? := by
  have hrev := h.eq_reverse_of_step hN h hab hba
  rw [getLast?_eq_head?_reverse, ← hrev]

theorem IsChainPath.nodup (hN : IsGraph N) (h : IsChainPath N p) (hne : p.head? ≠ p.getLast?) : p.Nodup := by
  rw [nodup_iff_sublist]
  intro x hx
  obtain ⟨p₁, p₂, hp, hx₁, hx₂⟩ := cons_sublist_iff.mp hx
  obtain ⟨pre, mid₁, rfl⟩ := append_of_mem hx₁
  obtain ⟨mid₂, post, rfl⟩ := append_of_mem (singleton_sublist.mp hx₂)
  -- the two occurrences, with `mid` between them
  obtain ⟨mid, hmid⟩ : ∃ mid, mid = mid₁ ++ mid₂ := ⟨_, rfl⟩
  replace hp : p = pre ++ x :: (mid ++ x :: post) := by rw [hp, hmid]; simp
  have hpre : pre ≠ [] := by
    rintro rfl
    have hhead := h.head_ne_two (x := x) (by rw [hp]; rfl)
    by_cases hpost : post = []
    · rw [nil_append, hpost, ← cons_append] at hp
      exact hne (by rw [hp, getLast?_concat]; rfl)
    · rw [nil_append, ← cons_append] at hp
      exact hhead (h.length_interior hN hp (by simp) hpost)
  have htwo := h.length_interior hN hp hpre (by simp)
  -- the neighbours of the two occurrences on the path
  obtain ⟨pre, c, rfl⟩ := eq_nil_or_concat' pre |>.resolve_left hpre
  obtain ⟨b₀, rest, hb₀⟩ := exists_cons_of_ne_nil (l := mid ++ x :: post) (by simp)
  obtain ⟨pre₂, b₁, hb₁⟩ := eq_nil_or_concat' (pre ++ [c] ++ x :: mid) |>.resolve_left (by simp)
  have hp₁ : p = pre ++ c :: x :: b₀ :: rest := by rw [hp, hb₀]; simp
  have hp₂ : p = pre₂ ++ b₁ :: x :: post := by
    rw [hp, ← cons_append, ← append_assoc, hb₁]
    simp
  obtain ⟨-, hb₀x, hne₀⟩ := h.interior hN hp₁
  have hc := hN.symm (h.around hN hp₁).1
  have hb₁x := hN.symm (h.around hN hp₂).1
  by_cases hcb : b₁ = c
  · -- the same step at two places
    subst hcb
    obtain ⟨rfl, -⟩ := h.split_eq hN h hp₁ hp₂
    have := congrArg List.length hb₁
    simp at this
  · -- a step and its reverse
    obtain rfl := other_unique htwo hc hb₁x hcb hb₀x hne₀
    exact hne (h.head_eq_last_of_steps hN (mem_steps.mpr ⟨_, _, hp₂⟩)
      (mem_steps.mpr ⟨pre ++ [c], rest, by rw [hp₁]; simp⟩))

/-! ## Unfinished walks -/

/-- A walk that left a node whose degree is not two and passed nodes of degree two since. -/
def IsWalk (N : α → List α) (p : List α) : Prop :=
  ∃ pre b c, p = pre ++ [b, c] ∧ c ∈ N b ∧ Onward N c b pre.reverse

theorem isWalk_start {s n : α} (hs : (N s).length ≠ 2) (hn : n ∈ N s) : IsWalk N [s, n] :=
  ⟨[], s, n, rfl, hn, .stop hs⟩

theorem IsWalk.extend (hN : IsGraph N) {pre : List α} {b c d : α} (h : IsWalk N (pre ++ [b, c]))
    (h2 : (N c).length = 2) (hd : d ∈ N c) (hne : d ≠ b) : IsWalk N (pre ++ [b, c, d]) := by
  obtain ⟨pre', b', c', heq, hc, hback⟩ := h
  obtain ⟨rfl, hbc⟩ := append_inj' heq rfl
  cases hbc
  refine ⟨pre ++ [b], c, d, by simp, hd, ?_⟩
  rw [reverse_append]
  exact .step h2 (hN.symm hc) hne.symm hback

theorem IsWalk.dropLast (hN : IsGraph N) {l : List α} {z : α} (h : IsWalk N (l ++ [z]))
    (hl : 2 ≤ l.length) : IsWalk N l := by
  obtain ⟨pre, b, c, heq, hc, hback⟩ := h
  obtain ⟨rfl, rfl⟩ : l = pre ++ [b] ∧ z = c := by
    rw [← singleton_append (l := [c]), ← append_assoc] at heq
    simpa using append_inj' heq rfl
  obtain ⟨pre, a, rfl⟩ := eq_nil_or_concat' pre |>.resolve_left (by rintro rfl; simp at hl)
  rw [reverse_append] at hback
  cases hback with
  | step h2 ha hne hr => exact ⟨pre, a, b, by simp, hN.symm ha, hr⟩

theorem IsWalk.take (hN : IsGraph N) (h : IsWalk N (pre ++ a :: b :: post)) : IsWalk N (pre ++ [a, b]) := by
  induction post using List.reverseRecOn with
  | nil => exact h
  | append_singleton post z ih =>
    refine ih (IsWalk.dropLast hN (z := z) ?_ (by simp; omega))
    simpa using h

theorem steps_concat (pre : List α) (b c : α) : steps (pre ++ [b, c]) = steps (pre ++ [b]) ++ [(b, c)] := by
  induction pre with
  | nil => rfl
  | cons x pre ih =>
    cases pre with
    | nil => rfl
    | cons y pre => exact congrArg ((x, y) :: ·) ih

/-- A walk takes no step twice: from the second time on it would be a shorter walk. -/
theorem IsWalk.steps_nodup (hN : IsGraph N) (h : IsWalk N p) : (steps p).Nodup := by
  induction p using List.reverseRecOn with
  | nil => exact nodup_nil
  | append_singleton l z ih =>
    obtain ⟨pre, b, c, heq, hc, hback⟩ := id h
    obtain ⟨rfl, rfl⟩ : l = pre ++ [b] ∧ z = c := by
      rw [← singleton_append (l := [c]), ← append_assoc] at heq
      simpa using append_inj' heq rfl
    rw [heq, steps_concat]
    by_cases hpre : pre = []
    · subst hpre
      exact nodup_singleton _
    have hl : 2 ≤ (pre ++ [b]).length := by
      have := length_pos_iff.mpr hpre
      simp
      omega
    have hwalk := h.dropLast hN hl
    rw [nodup_append_comm, singleton_append, nodup_cons]
    refine ⟨fun hmem => ?_, ih hwalk⟩
    obtain ⟨pre', post', heq'⟩ := mem_steps.mp hmem
    obtain ⟨pre₁, b₁, c₁, heq₁, -, hback₁⟩ := (heq' ▸ hwalk).take hN
    obtain ⟨rfl, hbc⟩ := append_inj' heq₁ rfl
    cases hbc
    have := reverse_injective (Onward.unique hN (hN.symm hc) hback hback₁)
    subst this
    have := congrArg List.length heq'
    simp at this

theorem IsChainPath.reverse (hN : IsGraph N) (h : IsChainPath N p) : IsChainPath N p.reverse := by
  have hlen := h.two_le_length
  obtain ⟨l, b, rfl⟩ := eq_nil_or_concat' p |>.resolve_left (by rintro rfl; simp at hlen)
  obtain ⟨pre, a, rfl⟩ := eq_nil_or_concat' l |>.resolve_left (by rintro rfl; simp at hlen)
  have hp : pre ++ [a] ++ [b] = pre ++ a :: b :: [] := by simp
  obtain ⟨hab, -, hback⟩ := h.around hN hp
  have hb := h.last_ne_two getLast?_concat
  rw [reverse_append, reverse_append]
  exact .mk hb (hN.symm hab) hback

/-- A walk that stands on a node whose degree is not two is a chain path. -/
theorem IsWalk.isChainPath (hN : IsGraph N) {pre : List α} {b c : α} (h : IsWalk N (pre ++ [b, c]))
    (hc : (N c).length ≠ 2) : IsChainPath N (pre ++ [b, c]) := by
  obtain ⟨pre', b', c', heq, hbc, hback⟩ := h
  obtain ⟨rfl, htail⟩ := append_inj' heq rfl
  cases htail
  have hrev : IsChainPath N (c :: b :: pre.reverse) := .mk hc (hN.symm hbc) hback
  simpa using hrev.reverse hN

theorem IsWalk.adj (hN : IsGraph N) (h : IsWalk N p) (hab : (a, b) ∈ steps p) : b ∈ N a := by
  obtain ⟨pre, post, rfl⟩ := mem_steps.mp hab
  obtain ⟨pre', b', c', heq, hc, -⟩ := h.take hN
  obtain ⟨rfl, htail⟩ := append_inj' heq rfl
  cases htail
  exact hc

end ChainPath
end CycleJoin
