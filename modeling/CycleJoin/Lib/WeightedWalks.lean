import CycleJoin.Lib.Walks

/-!
# Weighted walks and labels

* `IsMinWeight`: the least weight of the walks to a node.
* `isMinWeight_iff_of_relaxed`: labels that are weights of walks, and that no hop can lower, are the least
  weights. This is what a label-correcting search ends with, in whatever order it relaxes hops.
* `tight`: the hops between nodes whose least weights differ by the weight of the hop. Its walks are the
  walks of least weight (`isWalk_tight`).
-/

namespace CycleJoin

universe u v

namespace HopGraph

variable {V : Type u} {H : Type v}

def walkWeight (w : H → Nat) (walk : List H) : Nat := (walk.map w).sum

@[simp]
theorem walkWeight_cons (w : H → Nat) (hop : H) (walk : List H) :
    walkWeight w (hop :: walk) = w hop + walkWeight w walk := by
  simp [walkWeight]

variable (G : HopGraph V H) (s : V) (w : H → Nat)

/-- There is a walk of a weight. -/
def HasWeight (c : Nat) (node : V) : Prop := ∃ walk, G.IsWalk s walk node ∧ walkWeight w walk = c

/-- The least weight of the walks to a node. -/
structure IsMinWeight (c : Nat) (node : V) : Prop where
  has : G.HasWeight s w c node
  le : ∀ {walk}, G.IsWalk s walk node → c ≤ walkWeight w walk

/-- The hops of walks of least weight. -/
def tight : HopGraph V H where
  enters hop node := G.enters hop node ∧
    ∃ c, G.IsMinWeight s w c (G.origin hop) ∧ G.IsMinWeight s w (c + w hop) node
  origin := G.origin

variable {G s w} {c c' : Nat} {node : V} {hop : H}

theorem hasWeight_source : G.HasWeight s w 0 s := ⟨[], rfl, rfl⟩

theorem isMinWeight_source : G.IsMinWeight s w 0 s := ⟨hasWeight_source, fun _ => Nat.zero_le _⟩

theorem HasWeight.cons (h : G.HasWeight s w c (G.origin hop)) (henters : G.enters hop node) :
    G.HasWeight s w (c + w hop) node := by
  obtain ⟨walk, hw, rfl⟩ := h
  exact ⟨hop :: walk, ⟨henters, hw⟩, by rw [walkWeight_cons, add_comm]⟩

theorem IsMinWeight.le_of_hasWeight (h : G.IsMinWeight s w c node) (h' : G.HasWeight s w c' node) : c ≤ c' := by
  obtain ⟨walk, hw, rfl⟩ := h'
  exact h.le hw

theorem IsMinWeight.unique (h : G.IsMinWeight s w c node) (h' : G.IsMinWeight s w c' node) : c = c' :=
  le_antisymm (h.le_of_hasWeight h'.has) (h'.le_of_hasWeight h.has)

/-! ## Labels -/

section
variable {label : V → Option Nat} (hsource : label s = some 0)
  (hrelaxed : ∀ {hop node c}, G.enters hop node → label (G.origin hop) = some c → ∃ c', label node = some c' ∧ c' ≤ c + w hop)
include hsource hrelaxed

/-- If no hop can lower a label, labels are at most the weights of walks. -/
theorem label_le_walkWeight {walk : List H} (hwalk : G.IsWalk s walk node) :
    ∃ c, label node = some c ∧ c ≤ walkWeight w walk := by
  induction walk generalizing node with
  | nil =>
    obtain rfl : node = s := hwalk
    exact ⟨0, hsource, Nat.le_refl 0⟩
  | cons hop walk ih =>
    obtain ⟨c, hc, hle⟩ := ih hwalk.2
    obtain ⟨c', hc', hle'⟩ := hrelaxed hwalk.1 hc
    refine ⟨c', hc', ?_⟩
    rw [walkWeight_cons]
    omega

theorem isMinWeight_iff_of_relaxed (hsound : ∀ {node c}, label node = some c → G.HasWeight s w c node) :
    label node = some c ↔ G.IsMinWeight s w c node := by
  have hmin : ∀ {c}, label node = some c → G.IsMinWeight s w c node := fun {c} hc => by
    refine ⟨hsound hc, fun hwalk => ?_⟩
    obtain ⟨c', hc', hle⟩ := label_le_walkWeight hsource hrelaxed hwalk
    obtain rfl := Option.mem_unique hc hc'
    exact hle
  refine ⟨hmin, fun h => ?_⟩
  obtain ⟨walk, hwalk, -⟩ := h.has
  obtain ⟨c', hc', -⟩ := label_le_walkWeight hsource hrelaxed hwalk
  rw [hc', (hmin hc').unique h]

end

/-! ## Walks of least weight -/

/-- The walk before the last hop of a walk of least weight has least weight. -/
theorem IsMinWeight.origin (h : G.IsMinWeight s w (c + w hop) node) (henters : G.enters hop node)
    (horigin : G.HasWeight s w c (G.origin hop)) : G.IsMinWeight s w c (G.origin hop) := by
  refine ⟨horigin, fun {walk} hwalk => ?_⟩
  have hwalk' : G.IsWalk s (hop :: walk) node := ⟨henters, hwalk⟩
  have hle := h.le hwalk'
  rw [walkWeight_cons] at hle
  omega

theorem isWalk_tight {walk : List H} : (G.tight s w).IsWalk s walk node ↔
      G.IsWalk s walk node ∧ G.IsMinWeight s w (walkWeight w walk) node := by
  induction walk generalizing node with
  | nil =>
    refine ⟨fun h => ⟨h, ?_⟩, fun h => h.1⟩
    obtain rfl : node = s := h
    exact isMinWeight_source
  | cons hop walk ih =>
    have hstep : (G.tight s w).IsWalk s (hop :: walk) node ↔
        (G.tight s w).enters hop node ∧ (G.tight s w).IsWalk s walk (G.origin hop) := Iff.rfl
    rw [hstep, ih, walkWeight_cons, add_comm]
    constructor
    · rintro ⟨⟨henters, c, hc, hnode⟩, hw, hmin⟩
      obtain rfl := hmin.unique hc
      exact ⟨⟨henters, hw⟩, hnode⟩
    · rintro ⟨⟨henters, hw⟩, hmin⟩
      have horigin := hmin.origin henters ⟨walk, hw, rfl⟩
      exact ⟨⟨henters, walkWeight w walk, horigin, hmin⟩, hw, horigin⟩

end HopGraph

end CycleJoin
