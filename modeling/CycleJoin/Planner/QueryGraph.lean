import CycleJoin.Planner.GraphLemmas

/-!
# Query graphs

`binder::QueryGraph`, its translation to a simple graph and back
(`binder/query/query_graph.cpp`, `query_graph_simple.hpp`). A query node is its unique name; a
query rel has a unique name and the names of its end nodes. A predicate is an element of some
type; `vars` gives the variables that `DependentVarNameCollector` finds in it.

* `fromQueryGraph`: parallel rels become one edge.
* `toQueryGraphAndInfo`: an edge becomes the first rel between its nodes, and the predicates are
  those whose variables are all there.
* `mem_queryRels_toQueryGraph`: which rels come back.
-/

namespace CycleJoin

open List

open Simple (Graph)
open scoped Simple

variable {ν : Type} [LinearOrder ν] {π : Type}

/-- `RelExpression`, as far as the planning of query graphs reads it. -/
structure QueryRel (ν : Type) where
  uniqueName : ν
  srcNodeName : ν
  dstNodeName : ν
  deriving DecidableEq

namespace QueryRel

/-- The rel lies between the two nodes, in either direction. -/
def Between (rel : QueryRel ν) (src dst : ν) : Prop :=
  rel.srcNodeName = src ∧ rel.dstNodeName = dst ∨ rel.srcNodeName = dst ∧ rel.dstNodeName = src

instance (rel : QueryRel ν) (src dst : ν) : Decidable (rel.Between src dst) :=
  inferInstanceAs (Decidable (_ ∨ _))

omit [LinearOrder ν] in
theorem Between.swap {rel : QueryRel ν} {src dst : ν} (h : rel.Between src dst) : rel.Between dst src := Or.symm h

omit [LinearOrder ν] in
theorem between_self (rel : QueryRel ν) : rel.Between rel.srcNodeName rel.dstNodeName := .inl ⟨rfl, rfl⟩

end QueryRel

/-- `QueryGraph`. -/
structure QueryGraph (ν : Type) where
  queryNodes : List ν
  queryRels : List (QueryRel ν)
  deriving DecidableEq

namespace QueryGraph

/-- `QueryGraph()`. -/
def empty : QueryGraph ν := ⟨[], []⟩

variable (graph : QueryGraph ν)

/-- `containsQueryNode`. -/
def containsQueryNode (name : ν) : Bool := name ∈ graph.queryNodes

/-- `containsQueryRel`. -/
def containsQueryRel (name : ν) : Bool := graph.queryRels.any (·.uniqueName = name)

/-- `addQueryNode`. -/
def addQueryNode (queryNode : ν) : QueryGraph ν :=
  if graph.containsQueryNode queryNode then graph
  else { graph with queryNodes := graph.queryNodes ++ [queryNode] }

/-- `addQueryRel`. -/
def addQueryRel (queryRel : QueryRel ν) : QueryGraph ν :=
  if graph.containsQueryRel queryRel.uniqueName then graph
  else { graph with queryRels := graph.queryRels ++ [queryRel] }

/-- `canProjectExpression`. -/
def canProjectExpression (vars : π → List ν) (expression : π) : Bool :=
  (vars expression).all fun variableName =>
    graph.containsQueryNode variableName || graph.containsQueryRel variableName

end QueryGraph

/-- A query graph as the binder makes it: names are unique and the ends of a rel are nodes. -/
structure BoundQueryGraph (ν : Type) extends QueryGraph ν where
  nodup_nodes : queryNodes.Nodup
  nodup_rels : (queryRels.map (·.uniqueName)).Nodup
  ends : ∀ rel ∈ queryRels, rel.srcNodeName ∈ queryNodes ∧ rel.dstNodeName ∈ queryNodes

/-- `BoundJoinHintNode`: a node, a rel or a join of two hints. -/
inductive BoundJoinHintNode (ν : Type) where
  | node (name : ν)
  | rel (rel : QueryRel ν)
  | join (left right : BoundJoinHintNode ν)
  deriving DecidableEq

/-- `QueryGraphPlanningInfo`. -/
structure QueryGraphPlanningInfo (ν π : Type) where
  predicates : List π
  hint : Option (BoundJoinHintNode ν)

namespace Simple

/-- `fromQueryGraph`. -/
def fromQueryGraph (graph : QueryGraph ν) : Graph ν :=
  graph.queryRels.foldl (fun simple rel => simple.addEdge rel.srcNodeName rel.dstNodeName)
    (graph.queryNodes.foldl Graph.addNode .empty)

/-- `getRelExpressionFromRefGraph`. Without a rel between the nodes the source stops at
`KU_UNREACHABLE`. -/
def getRelExpressionFromRefGraph (src dst : ν) (refGraph : QueryGraph ν) : Option (QueryRel ν) :=
  refGraph.queryRels.find? (·.Between src dst)

/-- The body of the inner loop of `toQueryGraphAndInfo`. -/
def addRelBetween (refGraph : QueryGraph ν) (node : ν) (graph : QueryGraph ν) (neighbor : ν) :
    QueryGraph ν :=
  if node > neighbor then
    match getRelExpressionFromRefGraph node neighbor refGraph with
    | some rel => graph.addQueryRel rel
    | none => graph
  else graph

/-- The query graph of `toQueryGraphAndInfo`. -/
def toQueryGraph (g : Graph ν) (refGraph : QueryGraph ν) : QueryGraph ν :=
  g.nodes.foldl (fun graph node => (g.getNeighbors node).foldl (addRelBetween refGraph node) graph)
    (g.nodes.foldl QueryGraph.addQueryNode .empty)

/-- `toQueryGraphAndInfo`. -/
def toQueryGraphAndInfo (vars : π → List ν) (g : Graph ν) (refGraph : QueryGraph ν)
    (refInfo : QueryGraphPlanningInfo ν π) : QueryGraph ν × QueryGraphPlanningInfo ν π :=
  let graph := toQueryGraph g refGraph
  (graph, { refInfo with predicates := refInfo.predicates.filter (graph.canProjectExpression vars) })

/-- The loop of `pathToHintTree`. -/
def extendHint (refGraph : QueryGraph ν) : BoundJoinHintNode ν → List ν → BoundJoinHintNode ν
  | root, u :: v :: path =>
    match getRelExpressionFromRefGraph u v refGraph with
    | some rel => extendHint refGraph (.join (.join root (.rel rel)) (.node v)) (v :: path)
    | none => root
  | root, _ => root

/-- `pathToHintTree`; `path[1]` is the first node of the hint. -/
def pathToHintTree (path : List ν) (refGraph : QueryGraph ν) : Option (BoundJoinHintNode ν) :=
  match path with
  | _ :: second :: path => some (extendHint refGraph (.node second) (second :: path))
  | _ => none

/-- The first loop of `pathsToHintTree`: the extends of the center. -/
def extendCenter (center : ν) (refGraph : QueryGraph ν) (root : BoundJoinHintNode ν)
    (path : List ν) : BoundJoinHintNode ν :=
  match path with
  | _ :: neighbor :: _ =>
    match getRelExpressionFromRefGraph center neighbor refGraph with
    | some rel => .join root (.rel rel)
    | none => root
  | _ => root

/-- The second loop of `pathsToHintTree`: the joins with the rest of the paths. -/
def joinPath (refGraph : QueryGraph ν) (root : BoundJoinHintNode ν) (path : List ν) :
    BoundJoinHintNode ν :=
  match pathToHintTree path refGraph with
  | some tree => .join root tree
  | none => root

/-- `pathsToHintTree`: the hint, the probe node `paths[0][0]` and the build nodes. -/
def pathsToHintTree (paths : List (List ν)) (refGraph : QueryGraph ν) :
    Option (BoundJoinHintNode ν × ν × List ν) :=
  match paths with
  | (center :: _) :: _ =>
    let root := paths.foldl (extendCenter center refGraph) (.node center)
    let root := paths.foldl (joinPath refGraph) root
    some (root, center, (paths.filterMap getLast?).reverse)
  | _ => none

/-! ## The simple graph of a query graph -/

section From

variable {qg : BoundQueryGraph ν} {a b : ν}

theorem foldl_addEdge_rels_spec {g : Graph ν} (rels : List (QueryRel ν)) (h : g.WF)
    (hends : ∀ rel ∈ rels, rel.srcNodeName ∈ g.nodes ∧ rel.dstNodeName ∈ g.nodes) :
    (rels.foldl (fun g rel => g.addEdge rel.srcNodeName rel.dstNodeName) g).WF ∧
    (rels.foldl (fun g rel => g.addEdge rel.srcNodeName rel.dstNodeName) g).nodes = g.nodes ∧
    ∀ a b, (a, b) ∈ (rels.foldl (fun g rel => g.addEdge rel.srcNodeName rel.dstNodeName) g).edges ↔
      (a, b) ∈ g.edges ∨ ∃ rel ∈ rels, rel.Between a b := by
  induction rels generalizing g with
  | nil => exact ⟨h, rfl, by simp⟩
  | cons rel rels ih =>
    obtain ⟨⟨hsrc, hdst⟩, hends⟩ := forall_mem_cons.mp hends
    obtain ⟨hwf, hnodes, hedges⟩ := ih (h.addEdge hsrc hdst) hends
    refine ⟨hwf, hnodes, fun a b => ?_⟩
    rw [foldl_cons, hedges, Graph.edges_addEdge]
    simp only [QueryRel.Between]
    grind

/-- The simple graph has the nodes of the query graph, and an edge where there is a rel. -/
theorem fromQueryGraph_spec (qg : BoundQueryGraph ν) : (fromQueryGraph qg.toQueryGraph).WF ∧
    (∀ x, x ∈ (fromQueryGraph qg.toQueryGraph).nodes ↔ x ∈ qg.queryNodes) ∧
    ∀ a b, (a, b) ∈ (fromQueryGraph qg.toQueryGraph).edges ↔ ∃ rel ∈ qg.queryRels, rel.Between a b := by
  obtain ⟨hwf, hempty, hnodes⟩ := Graph.foldl_addNode_spec qg.queryNodes Graph.wf_empty
  have hmem (x : ν) : x ∈ (qg.queryNodes.foldl Graph.addNode .empty).nodes ↔ x ∈ qg.queryNodes := by
    rw [hnodes]
    simp [Graph.empty]
  obtain ⟨hwf', hnodes', hedges'⟩ := foldl_addEdge_rels_spec qg.queryRels hwf fun rel hrel =>
    ⟨(hmem _).mpr (qg.ends rel hrel).1, (hmem _).mpr (qg.ends rel hrel).2⟩
  refine ⟨hwf', fun x => ?_, fun a b => ?_⟩
  · rw [fromQueryGraph, hnodes', hmem]
  · rw [fromQueryGraph, hedges', hempty]
    simp [Graph.empty]

end From

/-! ## The query graph of a simple graph -/

section To

variable {qg : QueryGraph ν} {rel : QueryRel ν} {a b : ν}

theorem between_of_getRel (h : getRelExpressionFromRefGraph a b qg = some rel) :
    rel ∈ qg.queryRels ∧ rel.Between a b :=
  ⟨mem_of_find?_eq_some h, by simpa using find?_some h⟩

/-- There is a rel for each edge, so that `KU_UNREACHABLE` is not reached. -/
theorem getRel_isSome (h : ∃ rel ∈ qg.queryRels, rel.Between a b) :
    ∃ rel, getRelExpressionFromRefGraph a b qg = some rel := by
  obtain ⟨rel, hrel, hb⟩ := h
  exact Option.isSome_iff_exists.mp (find?_isSome.mpr ⟨rel, hrel, by simpa using hb⟩)

theorem getRel_swap (a b : ν) (qg : QueryGraph ν) :
    getRelExpressionFromRefGraph a b qg = getRelExpressionFromRefGraph b a qg := by
  unfold getRelExpressionFromRefGraph
  congr 1
  funext rel
  exact decide_eq_decide.mpr ⟨QueryRel.Between.swap, QueryRel.Between.swap⟩

theorem queryNodes_addRelBetween (node : ν) (graph : QueryGraph ν) (neighbor : ν) :
    (addRelBetween qg node graph neighbor).queryNodes = graph.queryNodes := by
  unfold addRelBetween QueryGraph.addQueryRel
  split
  · split
    · split <;> rfl
    · rfl
  · rfl

theorem mem_foldl_addQueryNode (nodes : List ν) (graph : QueryGraph ν) {x : ν} :
    x ∈ (nodes.foldl QueryGraph.addQueryNode graph).queryNodes ↔ x ∈ graph.queryNodes ∨ x ∈ nodes := by
  induction nodes generalizing graph with
  | nil => simp
  | cons node nodes ih =>
    rw [foldl_cons, ih, mem_cons, QueryGraph.addQueryNode, QueryGraph.containsQueryNode]
    split
    · grind
    · rw [mem_append, mem_singleton, or_assoc]

theorem queryRels_foldl_addQueryNode (nodes : List ν) (graph : QueryGraph ν) :
    (nodes.foldl QueryGraph.addQueryNode graph).queryRels = graph.queryRels := by
  induction nodes generalizing graph with
  | nil => rfl
  | cons node nodes ih =>
    rw [foldl_cons, ih, QueryGraph.addQueryNode]
    split <;> rfl

/-- Rels that have the same name are the same. -/
def NamesUnique (rels : List (QueryRel ν)) : Prop :=
  ∀ rel ∈ rels, ∀ rel' ∈ rels, rel.uniqueName = rel'.uniqueName → rel = rel'

theorem mem_addQueryRel {graph : QueryGraph ν} {new : QueryRel ν} (hu : NamesUnique qg.queryRels)
    (hsub : ∀ rel ∈ graph.queryRels, rel ∈ qg.queryRels) (hnew : new ∈ qg.queryRels) :
    rel ∈ (graph.addQueryRel new).queryRels ↔ rel = new ∨ rel ∈ graph.queryRels := by
  unfold QueryGraph.addQueryRel QueryGraph.containsQueryRel
  split
  · rename_i hold
    obtain ⟨old, hold, hname⟩ := any_eq_true.mp hold
    rw [decide_eq_true_eq] at hname
    -- a rel of the same name is the same rel
    have heq := hu old (hsub old hold) new hnew hname
    exact ⟨.inr, fun h => h.elim (fun h => by rw [h, ← heq]; exact hold) id⟩
  · rw [mem_append, mem_singleton, or_comm]

theorem mem_addRelBetween {graph : QueryGraph ν} {node neighbor : ν}
    (hu : NamesUnique qg.queryRels) (hsub : ∀ rel ∈ graph.queryRels, rel ∈ qg.queryRels) :
    rel ∈ (addRelBetween qg node graph neighbor).queryRels ↔ rel ∈ graph.queryRels ∨
        neighbor < node ∧ getRelExpressionFromRefGraph node neighbor qg = some rel := by
  unfold addRelBetween
  split
  · split
    · rename_i new hnew
      rw [mem_addQueryRel hu hsub (between_of_getRel hnew).1]
      grind
    · rename_i hnone
      simp [hnone]
  · rename_i hlt
    exact ⟨.inl, fun h => h.elim id fun ⟨hlt', _⟩ => absurd hlt' hlt⟩

theorem foldl_addRelBetween_spec (hu : NamesUnique qg.queryRels) (pairs : List (ν × ν))
    {graph : QueryGraph ν} (hsub : ∀ rel ∈ graph.queryRels, rel ∈ qg.queryRels) (rel : QueryRel ν) :
    rel ∈ (pairs.foldl (fun graph e => addRelBetween qg e.1 graph e.2) graph).queryRels ↔
      rel ∈ graph.queryRels ∨ ∃ e ∈ pairs, e.2 < e.1 ∧ getRelExpressionFromRefGraph e.1 e.2 qg = some rel := by
  induction pairs generalizing graph with
  | nil => simp
  | cons e pairs ih =>
    have hsub' : ∀ rel ∈ (addRelBetween qg e.1 graph e.2).queryRels, rel ∈ qg.queryRels := by
      intro rel hrel
      rcases (mem_addRelBetween hu hsub).mp hrel with hrel | ⟨-, hrel⟩
      exacts [hsub rel hrel, (between_of_getRel hrel).1]
    rw [foldl_cons, ih hsub', mem_addRelBetween hu hsub, exists_mem_cons_iff, or_assoc]

theorem toQueryGraph_eq (g : Graph ν) (qg : QueryGraph ν) :
    toQueryGraph g qg = (g.nodes.flatMap fun u => (g.getNeighbors u).map fun v => (u, v)).foldl
      (fun graph e => addRelBetween qg e.1 graph e.2)
      (g.nodes.foldl QueryGraph.addQueryNode .empty) := by
  rw [toQueryGraph, foldl_flatMap]
  congr 1
  funext graph u
  rw [foldl_map]

theorem mem_queryNodes_toQueryGraph {g : Graph ν} {x : ν} : x ∈ (toQueryGraph g qg).queryNodes ↔ x ∈ g.nodes := by
  have hfold (pairs : List (ν × ν)) (graph : QueryGraph ν) :
      (pairs.foldl (fun graph e => addRelBetween qg e.1 graph e.2) graph).queryNodes = graph.queryNodes := by
    induction pairs generalizing graph with
    | nil => rfl
    | cons e pairs ih => rw [foldl_cons, ih, queryNodes_addRelBetween]
  rw [toQueryGraph_eq, hfold, mem_foldl_addQueryNode]
  simp [QueryGraph.empty]

/-- A rel comes back when it is the first one for an edge between different nodes. -/
theorem mem_queryRels_toQueryGraph {g : Graph ν} (hu : NamesUnique qg.queryRels) (h : g.WF) :
    rel ∈ (toQueryGraph g qg).queryRels ↔
      ∃ a b, (a, b) ∈ g.edges ∧ a ≠ b ∧ getRelExpressionFromRefGraph a b qg = some rel := by
  have hstart := queryRels_foldl_addQueryNode g.nodes (.empty : QueryGraph ν)
  rw [toQueryGraph_eq, foldl_addRelBetween_spec hu _ (by rw [hstart]; simp [QueryGraph.empty]), hstart]
  simp only [QueryGraph.empty, not_mem_nil, false_or, mem_flatMap, mem_map, Graph.mem_getNeighbors]
  constructor
  · rintro ⟨_, ⟨u, -, v, huv, rfl⟩, hlt, hget⟩
    exact ⟨u, v, huv, hlt.ne', hget⟩
  · rintro ⟨u, v, huv, hne, hget⟩
    rcases lt_or_gt_of_ne hne with hlt | hlt
    · exact ⟨(v, u), ⟨v, h.mem_nodes_right huv, u, h.symm huv, rfl⟩, hlt, by rw [getRel_swap, hget]⟩
    · exact ⟨(u, v), ⟨u, h.mem_nodes huv, v, huv, rfl⟩, hlt, hget⟩

end To

end Simple

omit [LinearOrder ν] in
theorem BoundQueryGraph.namesUnique (qg : BoundQueryGraph ν) : Simple.NamesUnique qg.queryRels :=
  fun _ hrel _ hrel' heq => inj_on_of_nodup_map qg.nodup_rels hrel hrel' heq

end CycleJoin
