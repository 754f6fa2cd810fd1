import CycleJoin.Planner.SimpleGraph

/-!
# The order of cycle joins

`compareCycleJoin` compares the cycle joins of two sets of probe nodes by three criteria, one after
the other: the number of closed cycles, the length of the build paths, the number of probe nodes. A
criterion decides when the first set is better by it. When the second set is better, the next
criterion is still asked: `a` beats `b` if it is better by any of the three
(`compareCycleJoin_iff`), and two sets may beat each other.

* `Agree`: one of the sets is at least as good as the other by all three criteria.
* `strictOn_iff`: on a family of sets the comparison is a strict order exactly if any two sets of the
  family agree.
* `improve_unbeaten`: a round of `findBestCycleJoin` over a family with a strict order keeps a
  candidate that no candidate beats.
-/

namespace CycleJoin
namespace Simple

variable {ν : Type} [LinearOrder ν] {basic : List (List ν)} {a b c : List ν}

/-! ## The criteria -/

section
variable (basic : List (List ν)) (a : List ν)

/-- There is a cycle join with the given probe nodes. -/
def HasCycleJoin : Prop := findCycleJoin a basic ≠ []

/-- The number of cycles that the cycle join closes. -/
def closedCycles : Nat :=
  ((findCycleJoin a basic).map fun paths => paths.length - 1).sum

/-- The number of nodes between the ends of the build paths. -/
def intermediateNodes : Nat :=
  ((findCycleJoin a basic).map fun paths => (paths.map fun path => path.length - 2).sum).sum

end

/-- `a` is at least as good as `b` by every criterion. -/
structure AtLeastAsGood (basic : List (List ν)) (a b : List ν) : Prop where
  closedCycles : Simple.closedCycles basic b ≤ Simple.closedCycles basic a
  intermediateNodes : Simple.intermediateNodes basic a ≤ Simple.intermediateNodes basic b
  length : a.length ≤ b.length

/-- The criteria do not contradict each other on `a` and `b`. -/
def Agree (basic : List (List ν)) (a b : List ν) : Prop :=
  HasCycleJoin basic a → HasCycleJoin basic b → AtLeastAsGood basic a b ∨ AtLeastAsGood basic b a

theorem AtLeastAsGood.refl (a : List ν) : AtLeastAsGood basic a a := ⟨le_rfl, le_rfl, le_rfl⟩

theorem AtLeastAsGood.trans (h : AtLeastAsGood basic a b) (h' : AtLeastAsGood basic b c) : AtLeastAsGood basic a c :=
  ⟨h'.closedCycles.trans h.closedCycles, h.intermediateNodes.trans h'.intermediateNodes, h.length.trans h'.length⟩

/-- The comparison as the source has it: a set without cycle join beats nothing, and one criterion
is enough to beat a set with one. -/
theorem compareCycleJoin_iff : compareCycleJoin a b basic = true ↔
    HasCycleJoin basic a ∧ (HasCycleJoin basic b → ¬ AtLeastAsGood basic b a) := by
  have hgood : AtLeastAsGood basic b a ↔ closedCycles basic a ≤ closedCycles basic b ∧
      intermediateNodes basic b ≤ intermediateNodes basic a ∧ b.length ≤ a.length :=
    ⟨fun h => ⟨h.closedCycles, h.intermediateNodes, h.length⟩, fun h => ⟨h.1, h.2.1, h.2.2⟩⟩
  rw [hgood]
  unfold compareCycleJoin HasCycleJoin closedCycles intermediateNodes
  simp only [List.length_eq_zero_iff]
  split_ifs with h₁ h₂ h₃ h₄ h₅
  · simp [h₁]
  · simp [h₁, h₂]
  · exact iff_of_true rfl ⟨h₁, fun _ => by omega⟩
  · exact iff_of_true rfl ⟨h₁, fun _ => by omega⟩
  · exact iff_of_true rfl ⟨h₁, fun _ => by omega⟩
  · refine iff_of_false (by simp) fun h => h.2 h₂ ?_
    omega

/-! ## A strict order -/

/-- The comparison is a strict partial order on a family of sets. -/
structure StrictOn (basic : List (List ν)) (family : List ν → Prop) : Prop where
  irrefl : ∀ a, family a → ¬ compareCycleJoin a a basic = true
  asymm : ∀ a b, family a → family b →
    ¬ (compareCycleJoin a b basic = true ∧ compareCycleJoin b a basic = true)
  trans : ∀ a b c, family a → family b → family c → compareCycleJoin a b basic = true →
    compareCycleJoin b c basic = true → compareCycleJoin a c basic = true

theorem compareCycleJoin_irrefl (a : List ν) : ¬ compareCycleJoin a a basic = true := by
  rw [compareCycleJoin_iff]
  exact fun h => h.2 h.1 (.refl a)

theorem compareCycleJoin_asymm_iff : ¬ (compareCycleJoin a b basic = true ∧ compareCycleJoin b a basic = true) ↔
      Agree basic a b := by
  rw [compareCycleJoin_iff, compareCycleJoin_iff, Agree]
  tauto

theorem compareCycleJoin_trans (hab : Agree basic a b) (h : compareCycleJoin a b basic = true)
    (h' : compareCycleJoin b c basic = true) : compareCycleJoin a c basic = true := by
  rw [compareCycleJoin_iff] at h h' ⊢
  refine ⟨h.1, fun hc hca => h'.2 hc ?_⟩
  -- `c` is at least as good as `a`, and `a` as `b`
  have hab' := (hab h.1 h'.1).resolve_right (h.2 h'.1)
  exact hca.trans hab'

theorem strictOn_iff {family : List ν → Prop} :
    StrictOn basic family ↔ ∀ a b, family a → family b → Agree basic a b := by
  constructor
  · exact fun h a b ha hb => compareCycleJoin_asymm_iff.mp (h.asymm a b ha hb)
  · intro h
    refine ⟨fun a _ => compareCycleJoin_irrefl a, fun a b ha hb => ?_, fun a b c ha hb _ => ?_⟩
    · exact compareCycleJoin_asymm_iff.mpr (h a b ha hb)
    · exact compareCycleJoin_trans (h a b ha hb)

/-! ## A round of the search -/

theorem improve_unbeaten {family : List ν → Prop} (h : StrictOn basic family)
    {candidates : List (Graph ν)} {probe : Graph ν} (hprobe : family probe.nodes)
    (hcand : ∀ g ∈ candidates, family g.nodes) :
    family (improve basic candidates probe).1.nodes ∧
    ∀ g ∈ candidates, compareCycleJoin g.nodes (improve basic candidates probe).1.nodes basic =
      false := by
  rw [improve]
  induction candidates using List.reverseRecOn with
  | nil => exact ⟨hprobe, by simp⟩
  | append_singleton candidates candidate ih =>
    have hnew : family candidate.nodes := hcand candidate (by simp)
    obtain ⟨hbest, hseen⟩ := ih fun g hg => hcand g (List.mem_append_left _ hg)
    rw [List.foldl_concat]
    simp only at hbest hseen ⊢
    split
    · rename_i hbeats
      refine ⟨hnew, fun g hg => Bool.eq_false_iff.mpr fun hbeat => ?_⟩
      rcases List.mem_append.mp hg with hg | hg
      · -- what beats the new candidate beats the old one
        have := h.trans _ _ _ (hcand g (List.mem_append_left _ hg)) hnew hbest hbeat hbeats
        rw [hseen g hg] at this
        cases this
      · rw [List.mem_singleton.mp hg] at hbeat
        exact h.irrefl _ hnew hbeat
    · rename_i hbeats
      refine ⟨hbest, fun g hg => ?_⟩
      rcases List.mem_append.mp hg with hg | hg
      · exact hseen g hg
      · rw [List.mem_singleton.mp hg]
        exact Bool.eq_false_iff.mpr hbeats

/-- On a family of probe node sets the comparison is a strict order if and only if its criteria
contradict each other on no two sets. Then no candidate of a round beats the one that is kept. -/
theorem compareCycleJoin_strict_iff (basic : List (List ν)) (family : List ν → Prop) :
    (StrictOn basic family ↔ ∀ a b, family a → family b → Agree basic a b) ∧
    ((∀ a b, family a → family b → Agree basic a b) →
      ∀ (candidates : List (Graph ν)) (probe : Graph ν), family probe.nodes →
        (∀ g ∈ candidates, family g.nodes) → ∀ g ∈ candidates,
          compareCycleJoin g.nodes (improve basic candidates probe).1.nodes basic = false) :=
  ⟨strictOn_iff, fun h _ _ hprobe hcand => (improve_unbeaten (strictOn_iff.mpr h) hprobe hcand).2⟩

/-- Four ways between 0 and 1: an edge, two paths over one node and one over two. -/
def fourWays : Graph Nat :=
  (((Graph.empty.mergeFrom [0, 1]).mergeFrom [0, 2, 5, 1]).mergeFrom [0, 3, 1]).mergeFrom [0, 4, 1]

/-- In the first round the edge is beaten by the long path because of its build paths, and the long
path by a path over one node because of its size. The edge is smaller than the path that is kept and
closes more cycles. -/
theorem compareCycleJoin_fourWays :
    findBasicCycleIntersection fourWays = [[0, 1], [0, 2, 5, 1], [0, 3, 1], [0, 4, 1]] ∧
    (compareCycleJoin [0, 1] [0, 1, 2, 5] (findBasicCycleIntersection fourWays) = true ∧
      compareCycleJoin [0, 1, 2, 5] [0, 1] (findBasicCycleIntersection fourWays) = true) ∧
    (improve (findBasicCycleIntersection fourWays)
      ((findBasicCycleIntersection fourWays).map pathToGraph) .empty).1.nodes = [0, 1, 3] ∧
    compareCycleJoin [0, 1] [0, 1, 3] (findBasicCycleIntersection fourWays) = true := by
  decide +kernel

end Simple
end CycleJoin
