import CycleJoin.Planner.PlanJoinOrder

/-!
# The recursion of the planner ends

`planQueryGraph` calls `planQueryGraphWithMultiwayIntersect`, which calls `planQueryGraph` for each part of
the query graph. The calls for build graphs have a hint, and a hint ends the recursion.

* `bestProbeLoop_eq`: the do/while loop of `findBestCycleJoin` ends: each round that goes on has a probe
  graph with more nodes.
* `exists_build_edge`: a cycle join has an edge that leaves the probe graph and lies in a build graph.
* `planQueryGraph_terminates`: the probe graph and the remaining graphs lack that edge, so that the
  recursion is well-founded.
-/

namespace CycleJoin

open Simple ChainPath List

variable {ν : Type} [LinearOrder ν] {π : Type}

/-! ## The search for the probe graph -/

/-- The do/while loop of `findBestCycleJoin`, which gives no probe graph if it does not end within the
rounds. -/
def bestProbeLoop (basic : List (List ν)) : Nat → List (Graph ν) → Graph ν → Option (Graph ν)
  | 0, _, _ => none
  | rounds + 1, candidates, probe =>
    let (best, improved) := improve basic candidates probe
    if !improved then some best
    else
      let next := nextCandidates basic best
      if next.length > 0 then bestProbeLoop basic rounds next best else some best

theorem bestProbeLoop_eq {q probe : Graph ν} {basic : List (List ν)} {candidates : List (Graph ν)}
    (hq : q.WF) (hbasic : ∀ path ∈ basic, (∀ u ∈ path, u ∈ q.nodes) ∧ ∀ e ∈ steps path, e ∈ q.edges)
    (rounds : Nat) (h : probe.Sub q) (hcand : Larger q probe candidates)
    (hrounds : q.nodes.length < probe.nodes.length + rounds) :
    bestProbeLoop basic rounds candidates probe = some (bestProbe basic rounds candidates probe) := by
  induction rounds generalizing candidates probe with
  | zero => exact absurd (h.wf.nodup_nodes.subperm fun _ hx => h.nodes hx).length_le (by omega)
  | succ rounds ih =>
    have hin := (improve_mem basic candidates probe).1
    simp only [bestProbeLoop, bestProbe]
    generalize improve basic candidates probe = r at hin ⊢
    obtain ⟨best, improved⟩ := r
    cases improved with
    | false => rfl
    | true =>
      obtain ⟨hbest, hlt⟩ := hcand best (hin rfl)
      have hloop := ih hbest (larger_next hq hbasic hbest) (by omega)
      simp only [Bool.not_true, Bool.false_eq_true, if_false, hloop]
      split <;> rfl

/-! ## An edge that leaves the probe graph -/

section Edge

variable {Q : Graph ν} {sh : Shuffle ν}

theorem two_le_length_tree {tree : List (List ν)} (htree : tree ∈ (findBestCycleJoin sh Q).2) : 2 ≤ tree.length := by
  rw [findBestCycleJoin] at htree
  split at htree
  · cases htree
  · obtain ⟨entry, hentry, rfl⟩ := mem_map.mp htree
    rw [length_map]
    exact (removalLoop_stable _ (Nat.lt_succ_self _) entry hentry).1

theorem exists_build_edge (hQ : Q.WF) (htrees : (findBestCycleJoin sh Q).2 ≠ []) :
    ∃ a b, (a, b) ∈ Q.edges ∧ b ∉ (findBestCycleJoin sh Q).1.nodes ∧
      ∃ tree ∈ (findBestCycleJoin sh Q).2, (a, b) ∈ (buildGraphSimple tree).edges := by
  obtain ⟨tree, htree⟩ := exists_mem_of_ne_nil _ htrees
  have hlen := two_le_length_tree htree
  obtain ⟨p, hp⟩ := exists_mem_of_length_pos (by omega : 0 < tree.length)
  obtain ⟨path, hpath, v, w, ho⟩ := (findBestCycleJoin_spec sh hQ).2.1 tree htree p hp
  -- The path starts in the probe graph, and its first step leaves it.
  obtain ⟨a, b, rest, rfl⟩ : ∃ a b rest, p = a :: b :: rest := by
    have hlen := ho.two_le_length (basic_kept hQ hpath).chain.two_le_length
    match p with
    | [] => simp at hlen
    | [_] => simp at hlen
    | a :: b :: rest => exact ⟨a, b, rest, rfl⟩
  have hstep : (a, b) ∈ steps (a :: b :: rest) := by simp [steps]
  obtain ⟨hedge, hb⟩ := step_of_tree hQ htree hp hstep
  exact ⟨a, b, hedge, hb, tree, htree, ((buildGraphSimple_spec tree).2.2 a b).mpr ⟨_, hp, .inl hstep⟩⟩

end Edge

/-! ## Parts without the edge -/

/-- The query graph has fewer rels than the other one, and fewer edges as a simple graph. -/
def FewerEdges (graph other : QueryGraph ν) : Prop :=
  graph.queryRels.length < other.queryRels.length ∧
    (fromQueryGraph graph).edges.length < (fromQueryGraph other).edges.length

section Parts

variable {qg : BoundQueryGraph ν} {g : Graph ν}

theorem nodup_foldl_addQueryNode (nodes : List ν) {graph : QueryGraph ν} (h : graph.queryNodes.Nodup) :
    (nodes.foldl QueryGraph.addQueryNode graph).queryNodes.Nodup := by
  induction nodes generalizing graph with
  | nil => exact h
  | cons node nodes ih =>
    refine ih ?_
    unfold QueryGraph.addQueryNode
    split
    · exact h
    · next hnot =>
      refine nodup_append'.mpr ⟨h, nodup_singleton _, fun x hx hx' => hnot ?_⟩
      rw [mem_singleton.mp hx'] at hx
      exact decide_eq_true hx

theorem nodup_names_addRelBetween {graph : QueryGraph ν} (h : (graph.queryRels.map (·.uniqueName)).Nodup)
    (refGraph : QueryGraph ν) (node neighbor : ν) :
    ((addRelBetween refGraph node graph neighbor).queryRels.map (·.uniqueName)).Nodup := by
  unfold addRelBetween
  split
  · split
    · next rel _ =>
      unfold QueryGraph.addQueryRel
      split
      · exact h
      · next hnot =>
        rw [map_append]
        refine nodup_append'.mpr ⟨h, nodup_singleton _, fun x hx hx' => hnot ?_⟩
        obtain ⟨rel', hrel', hname⟩ := mem_map.mp hx
        have hx' : x = rel.uniqueName := mem_singleton.mp hx'
        exact any_eq_true.mpr ⟨rel', hrel', decide_eq_true (hname.trans hx')⟩
    · exact h
  · exact h

/-- A part of a query graph is a query graph as the binder makes it. -/
def partOf (qg : BoundQueryGraph ν) (g : Graph ν) (h : g.WF) : BoundQueryGraph ν where
  toQueryGraph := toQueryGraph g qg.toQueryGraph
  nodup_nodes := by
    have hfold (pairs : List (ν × ν)) (graph : QueryGraph ν) :
        (pairs.foldl (fun graph e => addRelBetween qg.toQueryGraph e.1 graph e.2) graph).queryNodes =
          graph.queryNodes := by
      induction pairs generalizing graph with
      | nil => rfl
      | cons e pairs ih => rw [List.foldl_cons, ih, queryNodes_addRelBetween]
    rw [toQueryGraph_eq, hfold]
    exact nodup_foldl_addQueryNode _ List.nodup_nil
  nodup_rels := by
    have hfold (pairs : List (ν × ν)) (graph : QueryGraph ν)
        (hgraph : (graph.queryRels.map (·.uniqueName)).Nodup) :
        ((pairs.foldl (fun graph e => addRelBetween qg.toQueryGraph e.1 graph e.2)
          graph).queryRels.map (·.uniqueName)).Nodup := by
      induction pairs generalizing graph with
      | nil => exact hgraph
      | cons e pairs ih => exact ih _ (nodup_names_addRelBetween hgraph ..)
    rw [toQueryGraph_eq]
    refine hfold _ _ ?_
    rw [queryRels_foldl_addQueryNode]
    exact List.nodup_nil
  ends := by
    intro rel hrel
    obtain ⟨a, b, hab, -, hget⟩ := (mem_queryRels_toQueryGraph qg.namesUnique h).mp hrel
    rw [mem_queryNodes_toQueryGraph, mem_queryNodes_toQueryGraph]
    obtain ⟨rfl, rfl⟩ | ⟨rfl, rfl⟩ := (between_of_getRel hget).2
    · exact ⟨h.mem_nodes hab, h.mem_nodes_right hab⟩
    · exact ⟨h.mem_nodes_right hab, h.mem_nodes hab⟩

/-- The simple graph of a part has no edge that the part does not have. -/
theorem edges_fromQueryGraph_partOf (h : g.WF) {a b : ν}
    (hab : (a, b) ∈ (fromQueryGraph (toQueryGraph g qg.toQueryGraph)).edges) : (a, b) ∈ g.edges := by
  obtain ⟨rel, hrel, hb⟩ := ((fromQueryGraph_spec (partOf qg g h)).2.2 a b).mp hab
  obtain ⟨a', b', hab', -, hget⟩ := (mem_queryRels_toQueryGraph qg.namesUnique h).mp hrel
  obtain ⟨rfl, rfl⟩ | ⟨rfl, rfl⟩ := hb <;> obtain ⟨h1, h2⟩ | ⟨h1, h2⟩ := (between_of_getRel hget).2
  · exact h1 ▸ h2 ▸ hab'
  · exact h1 ▸ h2 ▸ h.symm hab'
  · exact h1 ▸ h2 ▸ h.symm hab'
  · exact h1 ▸ h2 ▸ hab'

/-- A part that lacks an edge has fewer edges. -/
theorem fewerEdges_of_not_mem (hsub : g.Sub (fromQueryGraph qg.toQueryGraph)) {a b : ν}
    (hab : (a, b) ∈ (fromQueryGraph qg.toQueryGraph).edges) (hnot : (a, b) ∉ g.edges) :
    FewerEdges (toQueryGraph g qg.toQueryGraph) qg.toQueryGraph := by
  constructor
  · -- A rel for the edge is no rel of the part.
    obtain ⟨rel, hrel, hb⟩ := ((fromQueryGraph_spec qg).2.2 a b).mp hab
    have hmiss : rel ∉ (toQueryGraph g qg.toQueryGraph).queryRels := fun hmem =>
      hnot (edges_fromQueryGraph_partOf hsub.wf
        (((fromQueryGraph_spec (partOf qg g hsub.wf)).2.2 a b).mpr ⟨rel, hmem, hb⟩))
    have hnodup := (partOf qg g hsub.wf).nodup_rels.of_map
    refine (nodup_cons.mpr ⟨hmiss, hnodup⟩).subperm (fun rel' hrel' => ?_) |>.length_le
    obtain rfl | hrel' := mem_cons.mp hrel'
    · exact hrel
    · obtain ⟨_, _, -, -, hget⟩ := (mem_queryRels_toQueryGraph qg.namesUnique hsub.wf).mp hrel'
      exact (between_of_getRel hget).1
  · have hmiss : (a, b) ∉ (fromQueryGraph (toQueryGraph g qg.toQueryGraph)).edges := fun hmem =>
      hnot (edges_fromQueryGraph_partOf hsub.wf hmem)
    have hnodup := (fromQueryGraph_spec (partOf qg g hsub.wf)).1.nodup_edges
    refine (nodup_cons.mpr ⟨hmiss, hnodup⟩).subperm (fun e he => ?_) |>.length_le
    obtain rfl | he := mem_cons.mp he
    · exact hab
    · exact hsub.edges (edges_fromQueryGraph_partOf hsub.wf he)

end Parts

/-! ## The recursion -/

/-- A call of `planQueryGraph` that a call of `planQueryGraph` makes: without a hint, for the parts of the
cycle join that is found, for any shuffle. -/
inductive PlanCall (vars : π → List ν) : PlannedGraph ν π → PlannedGraph ν π → Prop where
  | part {caller callee : PlannedGraph ν π} {plan : CycleJoinPlan ν π} (sh : Shuffle ν)
      (hhint : caller.2.hint = none)
      (hplan : planQueryGraphWithMultiwayIntersect vars sh caller.1 caller.2 = some plan)
      (hmem : callee ∈ plan.planned) : PlanCall vars callee caller

section Recursion

variable {vars : π → List ν} {sh : Shuffle ν} {qg : BoundQueryGraph ν}
  {info : QueryGraphPlanningInfo ν π} {plan : CycleJoinPlan ν π}

/-- What a plan calls `planQueryGraph` for: a part with fewer edges, or a build graph with a hint. -/
theorem planned_cases (h : planQueryGraphWithMultiwayIntersect vars sh qg.toQueryGraph info = some plan) :
    (FewerEdges plan.probe.1 qg.toQueryGraph ∧ plan.probe.1.queryNodes.length < qg.queryNodes.length) ∧
    (∀ side ∈ plan.remaining, FewerEdges side.planned.1 qg.toQueryGraph) ∧
    (∀ side ∈ plan.builds, side.planned.2.hint ≠ none) ∧
    ∀ planned ∈ plan.planned, ∃ part : BoundQueryGraph ν, planned.1 = part.toQueryGraph := by
  have hQ := (fromQueryGraph_spec qg).1
  have htrees : (findBestCycleJoin sh (fromQueryGraph qg.toQueryGraph)).2 ≠ [] := by
    intro hnil
    simp only [planQueryGraphWithMultiwayIntersect, hnil, length_nil, or_true] at h
    cases h
  obtain ⟨a, b, hab, hb, tree, htree, hbuild⟩ := exists_build_edge hQ htrees
  obtain ⟨-, rfl⟩ := plan_eq h
  obtain ⟨hsubs, -, -⟩ := parts_spec hQ sh
  have hprobe := (findBestCycleJoin_spec sh hQ).1
  refine ⟨⟨fewerEdges_of_not_mem hprobe.sub hab fun hmem => hb (hprobe.edges.mp hmem).2.2, ?_⟩, ?_, ?_, ?_⟩
  · -- The end of the edge is no node of the probe graph.
    have hmiss : b ∉ (toQueryGraph (findBestCycleJoin sh (fromQueryGraph qg.toQueryGraph)).1
        qg.toQueryGraph).queryNodes := fun hmem => hb (mem_queryNodes_toQueryGraph.mp hmem)
    have hnodup := (partOf qg _ hprobe.wf).nodup_nodes
    refine (nodup_cons.mpr ⟨hmiss, hnodup⟩).subperm (fun x hx => ?_) |>.length_le
    obtain rfl | hx := mem_cons.mp hx
    · exact ((fromQueryGraph_spec qg).2.1 _).mp (hQ.mem_nodes_right hab)
    · exact ((fromQueryGraph_spec qg).2.1 x).mp (hprobe.nodes (mem_queryNodes_toQueryGraph.mp hx))
  · intro side hside
    obtain ⟨g, hg, rfl⟩ := mem_map.mp hside
    have hpart := remaining_isPart hQ hg
    have hedges := (remainingEdges_spec sh hQ).2.2
    refine fewerEdges_of_not_mem (hsubs g ?_) hab fun hmem => ?_
    · exact mem_cons_of_mem _ (mem_append_right _ hg)
    · exact ((hedges (a, b)).mp (hpart.edges.mp hmem).1).2.2 tree htree hbuild
  · intro side hside
    obtain ⟨tree', htree', rfl⟩ := mem_map.mp hside
    -- The first path of a tree has a first node.
    have hlen := two_le_length_tree htree'
    obtain ⟨p, rest, rfl⟩ := exists_cons_of_length_pos (by omega : 0 < tree'.length)
    obtain ⟨path, -, v, w, ho⟩ := (findBestCycleJoin_spec sh hQ).2.1 _ htree' p mem_cons_self
    obtain ⟨v', p, rfl⟩ := exists_cons_of_ne_nil (l := p) (by
      rintro rfl
      cases ho.head)
    simp [buildSide, pathsToHintTree]
  · intro planned hplanned
    have hpart : ∃ g ∈ parts sh (fromQueryGraph qg.toQueryGraph), planned.1 = toQueryGraph g qg.toQueryGraph := by
      have hmap := mem_map_of_mem (f := fun planned => (planned.1, planned.2.predicates)) hplanned
      rw [planned_eq h] at hmap
      obtain ⟨g, hg, heq⟩ := mem_map.mp hmap
      exact ⟨g, hg, (congrArg Prod.fst heq).symm⟩
    obtain ⟨g, hg, heq⟩ := hpart
    exact ⟨partOf qg g (hsubs g hg).wf, heq⟩

/-- The recursion ends for every query graph. -/
theorem acc_planCall (qg : BoundQueryGraph ν) (info : QueryGraphPlanningInfo ν π) :
    Acc (PlanCall vars) (qg.toQueryGraph, info) := by
  induction hn : qg.queryRels.length using Nat.strongRecOn generalizing qg info with
  | ind n ih =>
    subst hn
    refine Acc.intro _ fun callee hcall => ?_
    obtain ⟨sh, hhint, hplan, hmem⟩ := hcall
    obtain ⟨⟨hprobe, -⟩, hremaining, hbuilds, hbound⟩ := planned_cases hplan
    obtain ⟨part, hpart⟩ := hbound callee hmem
    have hless : FewerEdges callee.1 qg.toQueryGraph → Acc (PlanCall vars) callee := by
      intro hfewer
      rw [hpart] at hfewer
      have hacc := ih _ hfewer.1 part callee.2 rfl
      rwa [← hpart] at hacc
    obtain rfl | hmem := mem_cons.mp hmem
    · exact hless hprobe
    obtain hmem | hmem := mem_append.mp hmem
    · -- A call with a hint makes no further calls.
      obtain ⟨side, hside, rfl⟩ := mem_map.mp hmem
      refine Acc.intro _ fun callee' hcall' => ?_
      obtain ⟨_, hhint', -, -⟩ := hcall'
      exact absurd hhint' (hbuilds side hside)
    · obtain ⟨side, hside, rfl⟩ := mem_map.mp hmem
      exact hless (hremaining side hside)

end Recursion

/-- For every query graph the loop of `findBestCycleJoin` ends, the probe graph and the remaining graphs of
a cycle join have fewer edges, the probe graph has fewer nodes too, and the recursion of `planQueryGraph`
is well-founded. -/
theorem planQueryGraph_terminates (vars : π → List ν) (sh : Shuffle ν) (qg : BoundQueryGraph ν)
    (info : QueryGraphPlanningInfo ν π) :
    let Q := fromQueryGraph qg.toQueryGraph
    let basic := sh.shuffle (findBasicCycleIntersection Q)
    (∃ rounds probe, bestProbeLoop basic rounds (basic.map pathToGraph) .empty = some probe ∧
      (basic ≠ [] → (findBestCycleJoin sh Q).1 = induce Q probe)) ∧
    (∀ plan, planQueryGraphWithMultiwayIntersect vars sh qg.toQueryGraph info = some plan →
      FewerEdges plan.probe.1 qg.toQueryGraph ∧
      plan.probe.1.queryNodes.length < qg.queryNodes.length ∧
      ∀ side ∈ plan.remaining, FewerEdges side.planned.1 qg.toQueryGraph) ∧
    Acc (PlanCall vars) (qg.toQueryGraph, info) := by
  intro Q basic
  refine ⟨?_, fun plan hplan => ?_, acc_planCall qg info⟩
  · have hQ : Q.WF := (fromQueryGraph_spec qg).1
    have hperm := sh.perm (findBasicCycleIntersection Q)
    have hsub : ∀ path ∈ basic, path ∈ findBasicCycleIntersection Q := fun _ h => hperm.mem_iff.mp h
    refine ⟨Q.nodes.length + 2, _, bestProbeLoop_eq hQ (fun path h => basic_within hQ (hsub path h))
      (Q.nodes.length + 2) (Graph.sub_empty Q) (larger_basic hQ hsub) (by omega), fun hne => ?_⟩
    have hsome : ¬ (findBasicCycleIntersection Q).length = 0 := by
      rw [← hperm.length_eq]
      exact fun h0 => hne (eq_nil_of_length_eq_zero h0)
    simp only [findBestCycleJoin, hsome]
    rfl
  · obtain ⟨⟨hprobe, hnodes⟩, hremaining, -, -⟩ := planned_cases hplan
    exact ⟨hprobe, hnodes, hremaining⟩

end CycleJoin
