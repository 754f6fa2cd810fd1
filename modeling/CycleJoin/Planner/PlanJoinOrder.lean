import CycleJoin.Planner.Components
import CycleJoin.Planner.CycleJoinTrees

/-!
# Planning a query graph with multiway intersection

`Planner::planQueryGraphWithMultiwayIntersect` (`planner/plan/plan_join_order.cpp`). The query
graph is cut into a probe graph, one build graph for each tree of build paths, and the remaining
connected subgraphs. Each part is planned by a recursive call; a plan is modelled by the arguments
of these calls and by what joins their results.

* `planQueryGraphWithMultiwayIntersect`: the plan.
* `parts_spec`: the parts are subgraphs of the query graph, no two share an edge, and every edge
  between different nodes lies in one of them.
-/

namespace CycleJoin

open Simple ChainPath List

variable {ν : Type} [LinearOrder ν] {π : Type}

/-! ## The plan -/

/-- The arguments of a recursive `planQueryGraph`. -/
abbrev PlannedGraph (ν π : Type) := QueryGraph ν × QueryGraphPlanningInfo ν π

/-- A build side of the multiway intersection. -/
structure BuildSide (ν π : Type) where
  planned : PlannedGraph ν π
  /-- Which of its extends `replaceWithSharedExtend` scans flat. -/
  flatScan : List Bool
  probeNode : Option ν
  buildNodes : List ν

/-- A remaining graph and the nodes of the hash join with it. -/
structure RemainingSide (ν π : Type) where
  planned : PlannedGraph ν π
  joinNodes : List ν

/-- The plan for a query graph: a multiway intersection of the probe side and the build sides,
then a hash join with each remaining side. -/
structure CycleJoinPlan (ν π : Type) where
  probe : PlannedGraph ν π
  builds : List (BuildSide ν π)
  remaining : List (RemainingSide ν π)

/-- All graphs that are planned by a recursive call. -/
def CycleJoinPlan.planned (plan : CycleJoinPlan ν π) : List (PlannedGraph ν π) :=
  plan.probe :: (plan.builds.map (·.planned) ++ plan.remaining.map (·.planned))

/-- `buildGraphSimple`. -/
def buildGraphSimple (paths : List (List ν)) : Graph ν := paths.foldl Graph.mergeFrom .empty

/-- The body of the loop over the trees. -/
def buildSide (vars : π → List ν) (queryGraph : QueryGraph ν) (info : QueryGraphPlanningInfo ν π)
    (paths : List (List ν)) : BuildSide ν π :=
  let (buildGraph, buildGraphInfo) :=
    toQueryGraphAndInfo vars (buildGraphSimple paths) queryGraph info
  let hintTree := pathsToHintTree paths queryGraph
  { planned := (buildGraph, { buildGraphInfo with hint := hintTree.map (·.1) })
    flatScan := (paths.map fun path => decide (path.length > 2)).reverse
    probeNode := hintTree.map (·.2.1)
    buildNodes := (hintTree.map (·.2.2)).getD [] }

/-- `Q` after the edges of the probe graph and of the build graphs are removed. -/
def remainingEdges (Q probe : Graph ν) (builds : List (Graph ν)) : Graph ν :=
  builds.foldl Graph.removeEdgesFrom (Q.removeEdgesFrom probe)

/-- The remaining graphs that are joined. -/
def remainingGraphsSimple (Q probe : Graph ν) (builds : List (Graph ν)) : List (Graph ν) :=
  (getConnectedSubgraphs (remainingEdges Q probe builds)).filter fun g => ¬ g.nodes.length ≤ 1

/-- `join_nodes`. -/
def joinNodes (probe : Graph ν) (builds : List (Graph ν)) (remaining : Graph ν) : List ν :=
  remaining.nodes.filter fun joinNode =>
    joinNode ∈ probe.nodes ∨ builds.any fun build => joinNode ∈ build.nodes

/-- The body of the loop over the remaining graphs. -/
def remainingSide (vars : π → List ν) (queryGraph : QueryGraph ν)
    (info : QueryGraphPlanningInfo ν π) (probe : Graph ν) (builds : List (Graph ν))
    (remaining : Graph ν) : RemainingSide ν π :=
  ⟨toQueryGraphAndInfo vars remaining queryGraph info, joinNodes probe builds remaining⟩

/-- `planQueryGraphWithMultiwayIntersect`, with `none` for the empty plan. -/
def planQueryGraphWithMultiwayIntersect (vars : π → List ν) (sh : Shuffle ν)
    (queryGraph : QueryGraph ν) (info : QueryGraphPlanningInfo ν π) : Option (CycleJoinPlan ν π) :=
  let Q := fromQueryGraph queryGraph
  let (probe, trees) := findBestCycleJoin sh Q
  if probe.isEmpty ∨ trees.length = 0 then none
  else
    let builds := trees.map buildGraphSimple
    some {
      probe := toQueryGraphAndInfo vars probe queryGraph info
      builds := trees.map (buildSide vars queryGraph info)
      remaining := (remainingGraphsSimple Q probe builds).map
        (remainingSide vars queryGraph info probe builds) }

/-! ## The parts -/

/-- The simple graphs of the parts. -/
def parts (sh : Shuffle ν) (Q : Graph ν) : List (Graph ν) :=
  let (probe, trees) := findBestCycleJoin sh Q
  probe :: (trees.map buildGraphSimple ++ remainingGraphsSimple Q probe (trees.map buildGraphSimple))

section Plan

variable {vars : π → List ν} {sh : Shuffle ν} {queryGraph : QueryGraph ν}
  {info : QueryGraphPlanningInfo ν π} {plan : CycleJoinPlan ν π}

variable (h : planQueryGraphWithMultiwayIntersect vars sh queryGraph info = some plan)
include h

theorem plan_eq : (findBestCycleJoin sh (fromQueryGraph queryGraph)).1.nodes ≠ [] ∧ plan = {
      probe := toQueryGraphAndInfo vars (findBestCycleJoin sh (fromQueryGraph queryGraph)).1 queryGraph info
      builds := (findBestCycleJoin sh (fromQueryGraph queryGraph)).2.map (buildSide vars queryGraph info)
      remaining := (remainingGraphsSimple (fromQueryGraph queryGraph)
        (findBestCycleJoin sh (fromQueryGraph queryGraph)).1
        ((findBestCycleJoin sh (fromQueryGraph queryGraph)).2.map buildGraphSimple)).map
        (remainingSide vars queryGraph info (findBestCycleJoin sh (fromQueryGraph queryGraph)).1
        ((findBestCycleJoin sh (fromQueryGraph queryGraph)).2.map buildGraphSimple)) } := by
  simp only [planQueryGraphWithMultiwayIntersect] at h
  split at h
  · cases h
  · rename_i hne
    refine ⟨fun hnil => hne (.inl ?_), (Option.some.inj h).symm⟩
    rw [Graph.isEmpty, hnil]
    rfl

/-- Every part is planned, with its own predicates. -/
theorem planned_eq : plan.planned.map (fun planned => (planned.1, planned.2.predicates)) =
      (parts sh (fromQueryGraph queryGraph)).map fun g =>
        ((toQueryGraphAndInfo vars g queryGraph info).1,
          (toQueryGraphAndInfo vars g queryGraph info).2.predicates) := by
  obtain ⟨-, rfl⟩ := plan_eq h
  simp [CycleJoinPlan.planned, parts, Function.comp_def, buildSide, remainingSide]

end Plan

section Parts

variable {sh : Shuffle ν} {Q : Graph ν} {a b x : ν}

/-- The nodes and edges of a build graph are those of its paths. -/
theorem buildGraphSimple_spec (tree : List (List ν)) :
    (buildGraphSimple tree).WF ∧ (∀ x, x ∈ (buildGraphSimple tree).nodes ↔ ∃ p ∈ tree, x ∈ p) ∧
      ∀ a b, (a, b) ∈ (buildGraphSimple tree).edges ↔ ∃ p ∈ tree, (a, b) ∈ steps p ∨ (b, a) ∈ steps p := by
  obtain ⟨hwf, hnodes, hedges⟩ := Graph.foldl_mergeFrom_spec tree Graph.wf_empty
  refine ⟨hwf, fun x => ?_, fun a b => ?_⟩
  · rw [buildGraphSimple, hnodes]
    simp [Graph.empty]
  · rw [buildGraphSimple, hedges]
    simp [Graph.empty]

section
variable (hQ : Q.WF) {tree : List (List ν)} (htree : tree ∈ (findBestCycleJoin sh Q).2)
include hQ htree

/-- A step of a build path is an edge of the query graph and enters a node outside the probe
graph. -/
theorem step_of_tree {p : List ν} (hp : p ∈ tree) (hab : (a, b) ∈ steps p) :
    (a, b) ∈ Q.edges ∧ b ∉ (findBestCycleJoin sh Q).1.nodes := by
  obtain ⟨path, hpath, v, w, ho⟩ := findBestCycleJoin_spec sh hQ |>.2.1 tree htree p hp
  refine ⟨?_, ho.tail b (Origin.mem_ends_of_steps hab).2⟩
  rcases ho.steps_sub hab with h | h
  exacts [(basic_within hQ hpath).2 _ h, hQ.symm ((basic_within hQ hpath).2 _ h)]

theorem buildGraphSimple_sub : (buildGraphSimple tree).Sub Q := by
  obtain ⟨hwf, hnodes, hedges⟩ := buildGraphSimple_spec tree
  refine ⟨hwf, fun {u} hu => ?_, fun {e} he => ?_⟩
  · obtain ⟨p, hp, hup⟩ := (hnodes u).mp hu
    obtain ⟨path, hpath, v, w, ho⟩ := findBestCycleJoin_spec sh hQ |>.2.1 tree htree p hp
    exact (basic_within hQ hpath).1 u (ho.mem_path hup)
  · obtain ⟨a, b⟩ := e
    obtain ⟨p, hp, hab | hba⟩ := (hedges a b).mp he
    exacts [(step_of_tree hQ htree hp hab).1, hQ.symm (step_of_tree hQ htree hp hba).1]

end

def GraphDisjoint (g g' : Graph ν) : Prop := ∀ e ∈ g.edges, e ∉ g'.edges

/-- What is left of the query graph: the edges that lie in no part yet. -/
theorem remainingEdges_spec (sh : Shuffle ν) (hQ : Q.WF) : (remainingEdges Q (findBestCycleJoin sh Q).1
      ((findBestCycleJoin sh Q).2.map buildGraphSimple)).WF ∧
    (remainingEdges Q (findBestCycleJoin sh Q).1 ((findBestCycleJoin sh Q).2.map buildGraphSimple)).nodes = Q.nodes ∧
    ∀ e, e ∈ (remainingEdges Q (findBestCycleJoin sh Q).1 ((findBestCycleJoin sh Q).2.map buildGraphSimple)).edges ↔
      e ∈ Q.edges ∧ e ∉ (findBestCycleJoin sh Q).1.edges ∧
        ∀ tree ∈ (findBestCycleJoin sh Q).2, e ∉ (buildGraphSimple tree).edges := by
  obtain ⟨hwf, hnodes, hedges⟩ := Graph.removeEdgesFrom_spec hQ (findBestCycleJoin_spec sh hQ).1.wf
  obtain ⟨hwf', hnodes', hedges'⟩ := Graph.foldl_removeEdgesFrom_spec
    ((findBestCycleJoin sh Q).2.map buildGraphSimple) hwf (by
      intro o ho
      obtain ⟨tree, -, rfl⟩ := mem_map.mp ho
      exact (buildGraphSimple_spec tree).1)
  refine ⟨hwf', hnodes'.trans hnodes, fun e => ?_⟩
  rw [remainingEdges, hedges', hedges, and_assoc, forall_mem_map]

theorem builds_pairwise (hQ : Q.WF) : ((findBestCycleJoin sh Q).2.map buildGraphSimple).Pairwise GraphDisjoint := by
  rw [pairwise_map]
  refine (findBestCycleJoin_spec sh hQ).2.2.imp fun {t t'} hdisj => ?_
  rintro ⟨a, b⟩ he he'
  obtain ⟨p, hp, hab⟩ := ((buildGraphSimple_spec t).2.2 a b).mp he
  obtain ⟨p', hp', hab'⟩ := ((buildGraphSimple_spec t').2.2 a b).mp he'
  rcases hab with hab | hab
  · have h := hdisj p hp p' hp' a b hab
    exact hab'.elim h.1 h.2
  · have h := hdisj p hp p' hp' b a hab
    exact hab'.elim h.2 h.1

theorem probe_disjoint_build (hQ : Q.WF) {tree : List (List ν)} (htree : tree ∈ (findBestCycleJoin sh Q).2) :
    GraphDisjoint (findBestCycleJoin sh Q).1 (buildGraphSimple tree) := by
  rintro ⟨a, b⟩ he he'
  have hprobe := (findBestCycleJoin_spec sh hQ).1.wf
  obtain ⟨p, hp, hab | hba⟩ := ((buildGraphSimple_spec tree).2.2 a b).mp he'
  · exact (step_of_tree hQ htree hp hab).2 (hprobe.mem_nodes_right he)
  · exact (step_of_tree hQ htree hp hba).2 (hprobe.mem_nodes he)

/-- A remaining graph is a part of what is left. -/
theorem remaining_isPart (hQ : Q.WF) {g : Graph ν} (hg : g ∈ remainingGraphsSimple Q (findBestCycleJoin sh Q).1
      ((findBestCycleJoin sh Q).2.map buildGraphSimple)) :
    IsPart g (remainingEdges Q (findBestCycleJoin sh Q).1 ((findBestCycleJoin sh Q).2.map buildGraphSimple)) :=
  (connectedSubgraphs_spec (remainingEdges_spec sh hQ).1).1 g (mem_filter.mp hg).1

theorem remaining_pairwise (hQ : Q.WF) : (remainingGraphsSimple Q (findBestCycleJoin sh Q).1
      ((findBestCycleJoin sh Q).2.map buildGraphSimple)).Pairwise GraphDisjoint := by
  obtain ⟨hparts, hdisj, -⟩ := connectedSubgraphs_spec (remainingEdges_spec sh hQ).1
  refine List.Pairwise.filter _ (hdisj.imp_of_mem fun {g g'} hg hg' hnodes => ?_)
  rintro ⟨a, b⟩ he he'
  exact hnodes a ((hparts g hg).wf.mem_nodes he) ((hparts g' hg').wf.mem_nodes he')

/-- The component of a remaining edge between different nodes is a remaining graph. -/
theorem exists_remaining (sh : Shuffle ν) (hQ : Q.WF) (hab : (a, b) ∈ (remainingEdges Q (findBestCycleJoin sh Q).1
      ((findBestCycleJoin sh Q).2.map buildGraphSimple)).edges) (hne : a ≠ b) :
    ∃ g ∈ remainingGraphsSimple Q (findBestCycleJoin sh Q).1
      ((findBestCycleJoin sh Q).2.map buildGraphSimple), a ∈ g.nodes := by
  have hwf := (remainingEdges_spec sh hQ).1
  obtain ⟨hparts, -, hcover⟩ := connectedSubgraphs_spec hwf
  obtain ⟨g, hg, hag⟩ := hcover a (hwf.mem_nodes hab)
  have habg := (hparts g hg).edges.mpr ⟨hab, hag⟩
  refine ⟨g, mem_filter.mpr ⟨hg, ?_⟩, hag⟩
  have hlen : [a, b].length ≤ g.nodes.length := by
    refine (List.Nodup.subperm (by simpa using hne) fun x hx => ?_).length_le
    rcases mem_pair.mp hx with rfl | rfl
    exacts [hag, (hparts g hg).wf.mem_nodes_right habg]
  simpa using Nat.lt_of_succ_le hlen

theorem parts_spec (hQ : Q.WF) (sh : Shuffle ν) : (∀ g ∈ parts sh Q, g.Sub Q) ∧ (parts sh Q).Pairwise GraphDisjoint ∧
      ∀ a b, (a, b) ∈ Q.edges → a ≠ b → ∃ g ∈ parts sh Q, (a, b) ∈ g.edges := by
  have hprobe := (findBestCycleJoin_spec sh hQ).1
  obtain ⟨hwf, hnodes, hedges⟩ := remainingEdges_spec sh hQ
  refine ⟨?_, ?_, fun a b hab hne => ?_⟩
  · intro g hg
    rcases mem_cons.mp hg with rfl | hg
    · exact hprobe.sub
    rcases mem_append.mp hg with hg | hg
    · obtain ⟨tree, htree, rfl⟩ := mem_map.mp hg
      exact buildGraphSimple_sub hQ htree
    · have hpart := remaining_isPart hQ hg
      exact ⟨hpart.wf, fun hu => hnodes ▸ hpart.nodes hu, fun {e} he =>
        ((hedges e).mp (hpart.edges.mp he).1).1⟩
  · refine pairwise_cons.mpr ⟨fun g hg => ?_, pairwise_append.mpr
      ⟨builds_pairwise hQ, remaining_pairwise hQ, fun g hg g' hg' => ?_⟩⟩
    · rcases mem_append.mp hg with hg | hg
      · obtain ⟨tree, htree, rfl⟩ := mem_map.mp hg
        exact probe_disjoint_build hQ htree
      · intro e he he'
        exact ((hedges e).mp ((remaining_isPart hQ hg).edges.mp he').1).2.1 he
    · obtain ⟨tree, htree, rfl⟩ := mem_map.mp hg
      intro e he he'
      exact ((hedges e).mp ((remaining_isPart hQ hg').edges.mp he').1).2.2 tree htree he
  · by_cases hp : (a, b) ∈ (findBestCycleJoin sh Q).1.edges
    · exact ⟨_, mem_cons_self, hp⟩
    by_cases hb : ∃ tree ∈ (findBestCycleJoin sh Q).2, (a, b) ∈ (buildGraphSimple tree).edges
    · obtain ⟨tree, htree, hb⟩ := hb
      exact ⟨_, mem_cons_of_mem _ (mem_append_left _ (mem_map_of_mem htree)), hb⟩
    push Not at hb
    have hleft := (hedges (a, b)).mpr ⟨hab, hp, hb⟩
    obtain ⟨g, hg, hag⟩ := exists_remaining sh hQ hleft hne
    exact ⟨g, mem_cons_of_mem _ (mem_append_right _ hg), (remaining_isPart hQ hg).edges.mpr ⟨hleft, hag⟩⟩

end Parts

end CycleJoin
