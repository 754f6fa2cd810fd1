import Mathlib

/-!
# Walks in a graph of hops

A graph is given by its hops: each has an origin and enters nodes. A walk is the list of its hops, the
last one first, so that it grows at its origin.

* `IsWalk`, `HasWalk`: walks from a source, and that there is one of a given length.
* `walksBy`: all walks of a length, from lists of the last hops. It lists each walk once if the lists
  hold the hops from nodes that have a walk one shorter (`mem_walksBy`, `nodup_walksBy`).
-/

namespace CycleJoin

open List

universe u v

/-- The hops of a graph: each starts at its origin and enters nodes. -/
structure HopGraph (V : Type u) (H : Type v) where
  enters : H → V → Prop
  origin : H → V

namespace HopGraph

variable {V : Type u} {H : Type v} (G : HopGraph V H) (s : V)

/-- A walk from `s`, the last hop first. -/
def IsWalk : List H → V → Prop
  | [], node => node = s
  | hop :: walk, node => G.enters hop node ∧ IsWalk walk (G.origin hop)

/-- There is a walk of a length. -/
def HasWalk (k : Nat) (node : V) : Prop := ∃ walk, G.IsWalk s walk node ∧ walk.length = k

variable {G s} {k : Nat} {node : V}

@[simp]
theorem hasWalk_zero : G.HasWalk s 0 node ↔ node = s := by
  constructor
  · rintro ⟨walk, hw, hlen⟩
    obtain rfl := eq_nil_of_length_eq_zero hlen
    exact hw
  · exact fun h => ⟨[], h, rfl⟩

theorem hasWalk_succ : G.HasWalk s (k + 1) node ↔ ∃ hop, G.enters hop node ∧ G.HasWalk s k (G.origin hop) := by
  constructor
  · rintro ⟨walk, hw, hlen⟩
    cases walk with
    | nil => cases hlen
    | cons hop walk => exact ⟨hop, hw.1, walk, hw.2, Nat.succ.inj hlen⟩
  · rintro ⟨hop, he, walk, hw, rfl⟩
    exact ⟨hop :: walk, ⟨he, hw⟩, rfl⟩

/-- A walk with a hop more has a walk to every length below it somewhere. -/
theorem HasWalk.exists_of_le (h : G.HasWalk s k node) {j : Nat} (hj : j ≤ k) : ∃ node, G.HasWalk s j node := by
  induction k generalizing node with
  | zero => exact ⟨node, by rwa [Nat.le_zero.mp hj]⟩
  | succ k ih =>
    obtain rfl | hlt := Nat.eq_or_lt_of_le hj
    · exact ⟨node, h⟩
    · obtain ⟨hop, -, hw⟩ := hasWalk_succ.mp h
      exact ih hw (Nat.le_of_lt_succ hlt)

/-- The walks of a part of a graph are walks of the graph. -/
theorem IsWalk.mono {G' : HopGraph V H} {walk : List H} (h : G'.IsWalk s walk node)
    (horigin : G'.origin = G.origin) (henters : ∀ {hop node}, G'.enters hop node → G.enters hop node) :
    G.IsWalk s walk node := by
  induction walk generalizing node with
  | nil => exact h
  | cons hop walk ih =>
    refine ⟨henters h.1, ?_⟩
    rw [← horigin]
    exact ih h.2

/-! ## Listing walks -/

/-- The walks of a length, from the last hops of walks of each length. -/
def walksBy (origin : H → V) (last : Nat → V → List H) : Nat → V → List (List H)
  | 0, _ => [[]]
  | k + 1, node => (last (k + 1) node).flatMap fun hop =>
      (walksBy origin last k (origin hop)).map (hop :: ·)

/-- Walks of hops that are seen as hops of another kind. -/
theorem map_walksBy {H' : Type*} {origin : H → V} {origin' : H' → V} {f : H → H'}
    (hf : ∀ hop, origin' (f hop) = origin hop) (last : Nat → V → List H) (k : Nat) (node : V) :
    (walksBy origin last k node).map (map f) = walksBy origin' (fun k node => (last k node).map f) k node := by
  induction k generalizing node with
  | zero => rfl
  | succ k ih =>
    simp only [walksBy, map_flatMap, flatMap_map, map_map, hf, ← ih]
    rfl

/-- The lists of last hops are right up to a length. -/
structure LastHops (G : HopGraph V H) (s : V) (n : Nat) (last : Nat → V → List H) : Prop where
  mem : ∀ {k node hop}, k < n →
    (hop ∈ last (k + 1) node ↔ G.enters hop node ∧ G.HasWalk s k (G.origin hop))
  nodup : ∀ {k node}, k < n → (last (k + 1) node).Nodup

namespace LastHops

variable {n : Nat} {last : Nat → V → List H}

theorem mem_walksBy (h : LastHops G s n last) (hk : k ≤ n) (hnode : k = 0 → node = s) {walk : List H} :
    walk ∈ walksBy G.origin last k node ↔ G.IsWalk s walk node ∧ walk.length = k := by
  induction k generalizing node walk with
  | zero =>
    obtain rfl := hnode rfl
    simp only [walksBy, mem_singleton, length_eq_zero_iff]
    constructor
    · rintro rfl
      exact ⟨rfl, rfl⟩
    · exact fun h => h.2
  | succ k ih =>
    simp only [walksBy, mem_flatMap, mem_map]
    constructor
    · rintro ⟨hop, hhop, walk, hw, rfl⟩
      obtain ⟨he, hwalk⟩ := (h.mem hk).mp hhop
      obtain ⟨hw, hlen⟩ := (ih (Nat.le_of_succ_le hk) fun h0 => by simpa [h0] using hwalk).mp hw
      exact ⟨⟨he, hw⟩, congrArg (· + 1) hlen⟩
    · rintro ⟨hw, hlen⟩
      cases walk with
      | nil => cases hlen
      | cons hop walk =>
        have hlen : walk.length = k := Nat.succ.inj hlen
        have hwalk : G.HasWalk s k (G.origin hop) := ⟨walk, hw.2, hlen⟩
        refine ⟨hop, (h.mem hk).mpr ⟨hw.1, hwalk⟩, walk, ?_, rfl⟩
        exact (ih (Nat.le_of_succ_le hk) fun h0 => by simpa [h0] using hwalk).mpr ⟨hw.2, hlen⟩

theorem nodup_walksBy (h : LastHops G s n last) (hk : k ≤ n) : (walksBy G.origin last k node).Nodup := by
  induction k generalizing node with
  | zero => exact nodup_singleton _
  | succ k ih =>
    refine nodup_flatMap.mpr ⟨fun hop _ => ?_, ?_⟩
    · exact (ih (Nat.le_of_succ_le hk)).map fun _ _ heq => (cons.inj heq).2
    · refine (h.nodup hk).imp fun hne => ?_
      intro walk h₁ h₂
      obtain ⟨_, -, rfl⟩ := mem_map.mp h₁
      obtain ⟨_, -, heq⟩ := mem_map.mp h₂
      exact hne (cons.inj heq).1.symm

end LastHops

end HopGraph

end CycleJoin
