import CycleJoin.Planner.PlanJoinOrder

/-!
# What the parts of a plan cover

The parts of a plan hold every edge of the simple graph once (`parts_spec`). Rels and predicates
are another matter: an edge comes back as one rel, whatever the number of rels between its nodes,
and a predicate is kept by a part that has all of its variables.

* `coverCount_eq_one_iff`: every rel is in exactly one part when no rel is a self-loop and no two
  rels lie between the same nodes, and only then.
* `predicates_kept_iff`: every predicate is kept when its variables lie in the scope of one part,
  and only then. The scopes are described on the simple graph.
-/

namespace CycleJoin

open Simple ChainPath List

variable {ν : Type} [LinearOrder ν] {π : Type}

/-! ## Rels -/

/-- The number of planned graphs that have the rel. -/
def CycleJoinPlan.coverCount (plan : CycleJoinPlan ν π) (rel : QueryRel ν) : Nat :=
  plan.planned.countP fun planned => rel ∈ planned.1.queryRels

theorem countP_eq_one {α : Type} {p : α → Bool} {l : List α}
    (hpair : l.Pairwise fun x y => ¬ (p x = true ∧ p y = true)) (hex : ∃ x ∈ l, p x = true) :
    l.countP p = 1 := by
  induction l with
  | nil => simp at hex
  | cons x l ih =>
    obtain ⟨hx, hpair⟩ := pairwise_cons.mp hpair
    by_cases hpx : p x = true
    · rw [countP_cons_of_pos hpx, countP_eq_zero.mpr fun y hy hpy => hx y hy ⟨hpx, hpy⟩]
    · rw [countP_cons_of_neg hpx]
      exact ih hpair (by simpa [hpx] using hex)

section Rels

variable {vars : π → List ν} {sh : Shuffle ν} {qg : BoundQueryGraph ν}
  {info : QueryGraphPlanningInfo ν π} {plan : CycleJoinPlan ν π} {rel rel' : QueryRel ν}

section
variable (h : planQueryGraphWithMultiwayIntersect vars sh qg.toQueryGraph info = some plan)
include h

theorem coverCount_eq : plan.coverCount rel = (parts sh (fromQueryGraph qg.toQueryGraph)).countP fun g =>
      rel ∈ (toQueryGraph g qg.toQueryGraph).queryRels := by
  have hcount := congrArg (List.countP fun p : QueryGraph ν × List π => rel ∈ p.1.queryRels) (planned_eq h)
  rwa [countP_map, countP_map] at hcount

/-- A rel that is planned somewhere is the first one between different nodes. -/
theorem getRel_of_covered (hc : 0 < plan.coverCount rel) : ∃ a b, a ≠ b ∧
      getRelExpressionFromRefGraph a b qg.toQueryGraph = some rel := by
  rw [coverCount_eq h, countP_pos_iff] at hc
  obtain ⟨g, hg, hrel⟩ := hc
  have hwf := ((parts_spec (fromQueryGraph_spec qg).1 sh).1 g hg).wf
  obtain ⟨a, b, -, hne, hget⟩ := (mem_queryRels_toQueryGraph qg.namesUnique hwf).mp (of_decide_eq_true hrel)
  exact ⟨a, b, hne, hget⟩

end

/-- A rel that is alone between its nodes is in the parts that have its edge. -/
theorem mem_part_iff {g : Graph ν} (hwf : g.WF) (hrel : rel ∈ qg.queryRels)
    (hloop : rel.srcNodeName ≠ rel.dstNodeName)
    (halone : ∀ rel' ∈ qg.queryRels, rel'.Between rel.srcNodeName rel.dstNodeName → rel = rel') :
    rel ∈ (toQueryGraph g qg.toQueryGraph).queryRels ↔ (rel.srcNodeName, rel.dstNodeName) ∈ g.edges := by
  rw [mem_queryRels_toQueryGraph qg.namesUnique hwf]
  constructor
  · rintro ⟨a, b, hab, -, hget⟩
    rcases (between_of_getRel hget).2 with ⟨rfl, rfl⟩ | ⟨rfl, rfl⟩
    exacts [hab, hwf.symm hab]
  · intro hedge
    obtain ⟨rel', hget⟩ := getRel_isSome ⟨rel, hrel, rel.between_self⟩
    obtain ⟨hrel', hb⟩ := between_of_getRel hget
    exact ⟨_, _, hedge, hloop, by rw [hget, ← halone rel' hrel' hb]⟩

/-- Every rel is planned exactly once if and only if no rel is a self-loop and no two rels lie
between the same nodes. -/
theorem coverCount_eq_one_iff
    (h : planQueryGraphWithMultiwayIntersect vars sh qg.toQueryGraph info = some plan) :
    (∀ rel ∈ qg.queryRels, plan.coverCount rel = 1) ↔
      (∀ rel ∈ qg.queryRels, rel.srcNodeName ≠ rel.dstNodeName) ∧
      ∀ rel ∈ qg.queryRels, ∀ rel' ∈ qg.queryRels,
        rel'.Between rel.srcNodeName rel.dstNodeName → rel = rel' := by
  constructor
  · intro hone
    -- a rel that is planned is what `getRelExpressionFromRefGraph` finds for its ends
    have hfirst (rel : QueryRel ν) (hrel : rel ∈ qg.queryRels) :
        rel.srcNodeName ≠ rel.dstNodeName ∧ getRelExpressionFromRefGraph rel.srcNodeName
          rel.dstNodeName qg.toQueryGraph = some rel := by
      obtain ⟨a, b, hne, hget⟩ := getRel_of_covered h (Nat.lt_of_lt_of_eq Nat.one_pos (hone rel hrel).symm)
      rcases (between_of_getRel hget).2 with ⟨rfl, rfl⟩ | ⟨rfl, rfl⟩
      exacts [⟨hne, hget⟩, ⟨hne.symm, by rw [getRel_swap, hget]⟩]
    refine ⟨fun rel hrel => (hfirst rel hrel).1, fun rel hrel rel' hrel' hb => ?_⟩
    have hget := (hfirst rel hrel).2
    have hget' := (hfirst rel' hrel').2
    rcases hb with ⟨hs, hd⟩ | ⟨hs, hd⟩
    · rw [hs, hd, hget] at hget'
      exact Option.some.inj hget'
    · rw [hs, hd, getRel_swap, hget] at hget'
      exact Option.some.inj hget'
  · rintro ⟨hloop, halone⟩ rel hrel
    obtain ⟨hQ, -, hedges⟩ := fromQueryGraph_spec qg
    obtain ⟨hsub, hpair, hcover⟩ := parts_spec hQ sh
    have hiff (g : Graph ν) (hg : g ∈ parts sh (fromQueryGraph qg.toQueryGraph)) :=
      mem_part_iff (hsub g hg).wf hrel (hloop rel hrel) (halone rel hrel)
    rw [coverCount_eq h]
    refine countP_eq_one (hpair.imp_of_mem fun {g g'} hg hg' hdisj hboth => ?_) ?_
    · rw [decide_eq_true_eq, decide_eq_true_eq, hiff g hg, hiff g' hg'] at hboth
      exact hdisj _ hboth.1 hboth.2
    · obtain ⟨g, hg, hedge⟩ := hcover _ _ ((hedges _ _).mpr ⟨rel, hrel, rel.between_self⟩)
        (hloop rel hrel)
      exact ⟨g, hg, decide_eq_true ((hiff g hg).mpr hedge)⟩

end Rels

/-- `enableRandomJoinOrder` is off. -/
def noShuffle : Shuffle ν := ⟨id, fun _ => .refl _⟩

/-- Two nodes that are joined to each other and to two more nodes. -/
def diamond : BoundQueryGraph Nat where
  queryNodes := [0, 1, 2, 3]
  queryRels := [⟨10, 0, 1⟩, ⟨11, 0, 2⟩, ⟨12, 0, 3⟩, ⟨13, 1, 2⟩, ⟨14, 1, 3⟩]
  nodup_nodes := by decide
  nodup_rels := by decide
  ends := by decide

/-- The diamond, with a second rel back from node 1 to node 0. -/
def parallelDiamond : BoundQueryGraph Nat where
  queryNodes := [0, 1, 2, 3]
  queryRels := [⟨10, 0, 1⟩, ⟨11, 0, 2⟩, ⟨12, 0, 3⟩, ⟨13, 1, 2⟩, ⟨14, 1, 3⟩, ⟨15, 1, 0⟩]
  nodup_nodes := by decide
  nodup_rels := by decide
  ends := by decide

/-- The plan of a query graph, where a predicate is the list of its variables. -/
def planOf (qg : BoundQueryGraph Nat) (predicates : List (List Nat)) :
    Option (CycleJoinPlan Nat (List Nat)) :=
  planQueryGraphWithMultiwayIntersect id noShuffle qg.toQueryGraph ⟨predicates, none⟩

theorem diamond_planned : (planOf diamond [[0, 10, 1]]).isSome := by decide +kernel

theorem diamond_covered : diamond.queryRels.length = 5 ∧ ∀ rel ∈ diamond.queryRels,
    ((planOf diamond [[0, 10, 1]]).get diamond_planned).coverCount rel = 1 :=
  ⟨rfl, (coverCount_eq_one_iff (Option.some_get diamond_planned).symm).mpr ⟨by decide, by decide⟩⟩

/-- The second rel between nodes 0 and 1 is dropped. -/
theorem parallelDiamond_not_covered : ∃ plan, planOf parallelDiamond [] = some plan ∧
      ∃ rel ∈ parallelDiamond.queryRels, plan.coverCount rel = 0 := by
  have hdrop : (planOf parallelDiamond []).map (·.coverCount ⟨15, 1, 0⟩) = some 0 := by
    decide +kernel
  obtain ⟨plan, hplan, hzero⟩ := Option.map_eq_some_iff.mp hdrop
  exact ⟨plan, hplan, _, by decide, hzero⟩

/-! ## Predicates -/

/-- A set of nodes and a set of edges whose variables a predicate may use. -/
@[ext]
structure Scope (ν : Type) where
  nodes : ν → Prop
  edges : ν → ν → Prop

/-- The variable is a node of the scope, or the first rel of one of its edges. -/
def Scope.Has (scope : Scope ν) (qg : QueryGraph ν) (x : ν) : Prop :=
  scope.nodes x ∨ ∃ a b rel, scope.edges a b ∧ a ≠ b ∧
    getRelExpressionFromRefGraph a b qg = some rel ∧ rel.uniqueName = x

/-- The edge lies neither between two probe nodes nor on a build path. -/
def RemainingEdge (Q probe : Graph ν) (trees : List (List (List ν))) (a b : ν) : Prop :=
  (a, b) ∈ Q.edges ∧ ¬ (a ∈ probe.nodes ∧ b ∈ probe.nodes) ∧
    ∀ tree ∈ trees, ∀ p ∈ tree, (a, b) ∉ steps p ∧ (b, a) ∉ steps p

/-- The scopes of a cycle join: the probe nodes and the edges between them, the paths of one tree,
and what remaining edges connect. -/
inductive IsScope (Q probe : Graph ν) (trees : List (List (List ν))) : Scope ν → Prop where
  | probe : IsScope Q probe trees
      ⟨(· ∈ probe.nodes), fun a b => (a, b) ∈ Q.edges ∧ a ∈ probe.nodes ∧ b ∈ probe.nodes⟩
  | build {tree : List (List ν)} (htree : tree ∈ trees) : IsScope Q probe trees
      ⟨fun x => ∃ p ∈ tree, x ∈ p, fun a b => ∃ p ∈ tree, (a, b) ∈ steps p ∨ (b, a) ∈ steps p⟩
  | remaining {root y : ν} (hy : RemainingEdge Q probe trees root y) (hne : y ≠ root) :
      IsScope Q probe trees ⟨Relation.ReflTransGen (RemainingEdge Q probe trees) root,
        fun a b => RemainingEdge Q probe trees a b ∧
          Relation.ReflTransGen (RemainingEdge Q probe trees) root a⟩

/-- The scope of a graph. -/
def scopeOf (g : Graph ν) : Scope ν := ⟨(· ∈ g.nodes), fun a b => (a, b) ∈ g.edges⟩

section Predicates

variable {vars : π → List ν} {sh : Shuffle ν} {qg : BoundQueryGraph ν} {Q : Graph ν}
  {info : QueryGraphPlanningInfo ν π} {plan : CycleJoinPlan ν π}

/-- A part keeps the predicates whose variables are all in its scope. -/
theorem canProject_iff {g : Graph ν} (hwf : g.WF) {predicate : π} :
    (toQueryGraph g qg.toQueryGraph).canProjectExpression vars predicate = true ↔
      ∀ x ∈ vars predicate, (scopeOf g).Has qg.toQueryGraph x := by
  simp only [QueryGraph.canProjectExpression, all_eq_true, Bool.or_eq_true,
    QueryGraph.containsQueryNode, QueryGraph.containsQueryRel, any_eq_true, mem_queryNodes_toQueryGraph,
    mem_queryRels_toQueryGraph qg.namesUnique hwf, Scope.Has, scopeOf]
  grind

theorem mem_remainingEdges_iff (sh : Shuffle ν) (hQ : Q.WF) (a b : ν) :
    (a, b) ∈ (remainingEdges Q (findBestCycleJoin sh Q).1 ((findBestCycleJoin sh Q).2.map buildGraphSimple)).edges ↔
      RemainingEdge Q (findBestCycleJoin sh Q).1 (findBestCycleJoin sh Q).2 a b := by
  rw [(remainingEdges_spec sh hQ).2.2, (findBestCycleJoin_spec sh hQ).1.edges, RemainingEdge]
  simp only [(buildGraphSimple_spec _).2.2]
  grind

omit [LinearOrder ν] in
theorem scopeOf_eq {g : Graph ν} {scope : Scope ν} (hn : ∀ x, x ∈ g.nodes ↔ scope.nodes x)
    (he : ∀ a b, (a, b) ∈ g.edges ↔ scope.edges a b) : scopeOf g = scope :=
  Scope.ext (funext fun x => propext (hn x)) (funext fun a => funext fun b => propext (he a b))

theorem scopeOf_build (tree : List (List ν)) : scopeOf (buildGraphSimple tree) =
    ⟨fun x => ∃ p ∈ tree, x ∈ p, fun a b => ∃ p ∈ tree, (a, b) ∈ steps p ∨ (b, a) ∈ steps p⟩ :=
  scopeOf_eq (buildGraphSimple_spec tree).2.1 (buildGraphSimple_spec tree).2.2

/-- A remaining graph is what its edges connect to any one of its nodes. -/
theorem scopeOf_remaining (hQ : Q.WF) {g : Graph ν} {root : ν}
    (hg : IsPart g (remainingEdges Q (findBestCycleJoin sh Q).1
      ((findBestCycleJoin sh Q).2.map buildGraphSimple))) (hroot : root ∈ g.nodes) :
    scopeOf g = ⟨Relation.ReflTransGen (RemainingEdge Q (findBestCycleJoin sh Q).1 (findBestCycleJoin sh Q).2) root,
      fun a b => RemainingEdge Q (findBestCycleJoin sh Q).1 (findBestCycleJoin sh Q).2 a b ∧ Relation.ReflTransGen
          (RemainingEdge Q (findBestCycleJoin sh Q).1 (findBestCycleJoin sh Q).2) root a⟩ := by
  have hleft := mem_remainingEdges_iff sh hQ
  have hnodes (x : ν) : x ∈ g.nodes ↔ Relation.ReflTransGen
      (RemainingEdge Q (findBestCycleJoin sh Q).1 (findBestCycleJoin sh Q).2) root x := by
    have hreach := hg.connected hroot (b := x)
    have hclosed := hg.closed hroot (b := x)
    simp only [hleft] at hreach hclosed
    exact ⟨hreach, hclosed⟩
  exact scopeOf_eq hnodes fun a b => hg.edges.trans (and_congr (hleft a b) (hnodes a))

/-- The scopes of the parts are the scopes of the cycle join. -/
theorem exists_part_iff (sh : Shuffle ν) (hQ : Q.WF) (scope : Scope ν) : (∃ g ∈ parts sh Q, scopeOf g = scope) ↔
      IsScope Q (findBestCycleJoin sh Q).1 (findBestCycleJoin sh Q).2 scope := by
  have hprobe : scopeOf (findBestCycleJoin sh Q).1 = ⟨(· ∈ (findBestCycleJoin sh Q).1.nodes),
      fun a b => (a, b) ∈ Q.edges ∧ a ∈ (findBestCycleJoin sh Q).1.nodes ∧ b ∈ (findBestCycleJoin sh Q).1.nodes⟩ :=
    scopeOf_eq (fun _ => .rfl) fun _ _ => (findBestCycleJoin_spec sh hQ).1.edges
  have hleft := mem_remainingEdges_iff sh hQ
  constructor
  · rintro ⟨g, hg, rfl⟩
    rcases mem_cons.mp hg with rfl | hg
    · exact hprobe ▸ .probe
    rcases mem_append.mp hg with hg | hg
    · obtain ⟨tree, htree, rfl⟩ := mem_map.mp hg
      exact scopeOf_build tree ▸ .build htree
    · have hpart := remaining_isPart hQ hg
      have hlen : 1 < g.nodes.length := by simpa using (mem_filter.mp hg).2
      obtain ⟨root, hroot⟩ := exists_mem_of_length_pos (by omega : 0 < g.nodes.length)
      obtain ⟨y, hy, hne⟩ := hpart.exists_ne hlen hroot
      rw [scopeOf_remaining hQ hpart hroot]
      exact .remaining ((hleft _ _).mp hy) hne
  · intro hscope
    cases hscope with
    | probe => exact ⟨_, mem_cons_self, hprobe⟩
    | @build tree htree =>
      exact ⟨_, mem_cons_of_mem _ (mem_append_left _ (mem_map_of_mem htree)), scopeOf_build tree⟩
    | @remaining root y hy hne =>
      obtain ⟨g, hg, hroot⟩ := exists_remaining sh hQ ((hleft _ _).mpr hy) hne.symm
      exact ⟨g, mem_cons_of_mem _ (mem_append_right _ hg), scopeOf_remaining hQ (remaining_isPart hQ hg) hroot⟩

/-- Every predicate is handed to a planned graph if and only if, for each of them, all variables
lie in one scope. -/
theorem predicates_kept_iff
    (h : planQueryGraphWithMultiwayIntersect vars sh qg.toQueryGraph info = some plan) :
    (∀ predicate ∈ info.predicates, ∃ planned ∈ plan.planned, predicate ∈ planned.2.predicates) ↔
      ∀ predicate ∈ info.predicates, ∃ scope, IsScope (fromQueryGraph qg.toQueryGraph)
          (findBestCycleJoin sh (fromQueryGraph qg.toQueryGraph)).1
          (findBestCycleJoin sh (fromQueryGraph qg.toQueryGraph)).2 scope ∧
        ∀ x ∈ vars predicate, scope.Has qg.toQueryGraph x := by
  have hQ := (fromQueryGraph_spec qg).1
  refine forall₂_congr fun predicate hpred => ?_
  have hplanned : (∃ planned ∈ plan.planned, predicate ∈ planned.2.predicates) ↔
      ∃ g ∈ parts sh (fromQueryGraph qg.toQueryGraph),
        predicate ∈ (toQueryGraphAndInfo vars g qg.toQueryGraph info).2.predicates := by
    have hlists := congrArg (List.flatMap Prod.snd) (planned_eq h)
    rw [flatMap_map, flatMap_map] at hlists
    rw [← mem_flatMap, hlists, mem_flatMap]
  rw [hplanned]
  simp only [← exists_part_iff sh hQ, toQueryGraphAndInfo, mem_filter]
  constructor
  · rintro ⟨g, hg, -, hproj⟩
    exact ⟨_, ⟨g, hg, rfl⟩, (canProject_iff ((parts_spec hQ sh).1 g hg).wf).mp hproj⟩
  · rintro ⟨_, ⟨g, hg, rfl⟩, hhas⟩
    exact ⟨g, hg, hpred, (canProject_iff ((parts_spec hQ sh).1 g hg).wf).mpr hhas⟩

end Predicates

/-- A predicate on nodes 0 and 1 and the rel between them is kept. -/
theorem diamond_predicate_kept : (planOf diamond [[0, 10, 1]]).isSome ∧ ∀ predicate ∈ [[0, 10, 1]],
      ∃ planned ∈ ((planOf diamond [[0, 10, 1]]).get diamond_planned).planned,
        predicate ∈ planned.2.predicates := by
  refine ⟨diamond_planned, (predicates_kept_iff (Option.some_get diamond_planned).symm).mpr ?_⟩
  intro predicate hpredicate
  rw [mem_singleton.mp hpredicate]
  refine ⟨_, .probe, forall_mem_cons.mpr ⟨.inl (by decide +kernel),
    forall_mem_cons.mpr ⟨.inr ⟨0, 1, ⟨10, 0, 1⟩, by decide +kernel⟩,
      forall_mem_singleton.mpr (.inl (by decide +kernel))⟩⟩⟩

/-- A predicate on nodes 0, 1 and 2 is lost. -/
theorem diamond_predicate_lost : ∃ plan, planOf diamond [[0, 1, 2]] = some plan ∧
      ∀ planned ∈ plan.planned, [0, 1, 2] ∉ planned.2.predicates := by
  have hlost : (planOf diamond [[0, 1, 2]]).map
      (fun plan => plan.planned.all fun planned => [0, 1, 2] ∉ planned.2.predicates) =
        some true := by
    decide +kernel
  obtain ⟨plan, hplan, hall⟩ := Option.map_eq_some_iff.mp hlost
  exact ⟨plan, hplan, fun planned hplanned =>
    of_decide_eq_true (all_eq_true.mp hall planned hplanned)⟩

end CycleJoin
