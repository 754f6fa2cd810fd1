import Mathlib

/-!
# The simple graph of a query

`binder::simple::Graph` and the functions on it (`binder/query/query_graph_simple.hpp`). Nodes are
the unique names of query nodes, of a linearly ordered type `ν` here. A `std::set` is an ascending
list. The map `edges` from a node to the set of its neighbours is the ascending list of its pairs;
its keys are the nodes of the graph.

* `findBasicCycleIntersection`: the basic paths of the 2-core.
* `findCycleJoin`: the build paths for a set of probe nodes.
* `findBestCycleJoin`: the probe graph and its build paths.
* `getConnectedSubgraphs`: the connected components.

Loops whose end needs an argument take fuel.
-/

namespace CycleJoin
namespace Simple

variable {ν : Type} [LinearOrder ν]

/-! ## Sets and maps -/

scoped instance lawfulBEq : LawfulBEq ν := inferInstance

/-- `std::set::insert`. -/
def insertNode (x : ν) (s : List ν) : List ν := if x ∈ s then s else s.orderedInsert (· ≤ ·) x

/-- The order of the pairs of `edges`. -/
def PairLE (a b : ν × ν) : Prop := a.1 < b.1 ∨ a.1 = b.1 ∧ a.2 ≤ b.2

instance : DecidableRel (@PairLE ν _) := fun a b =>
  inferInstanceAs (Decidable (a.1 < b.1 ∨ a.1 = b.1 ∧ a.2 ≤ b.2))

/-- `edges[src].insert(dst)`. -/
def insertPair (e : ν × ν) (s : List (ν × ν)) : List (ν × ν) :=
  if e ∈ s then s else s.orderedInsert PairLE e

/-- `m[k] = v` on a `std::map`. -/
def mapSet {β : Type} (k : ν) (v : β) : List (ν × β) → List (ν × β)
  | [] => [(k, v)]
  | (k', v') :: m =>
    if k = k' then (k, v) :: m
    else if k < k' then (k, v) :: (k', v') :: m
    else (k', v') :: mapSet k v m

/-- `m.find(k)`. -/
def mapGet {β : Type} (k : ν) (m : List (ν × β)) : Option β := (m.find? (·.1 = k)).map (·.2)

/-! ## Graphs -/

/-- `Graph`. -/
structure Graph (ν : Type) where
  nodes : List ν
  edges : List (ν × ν)
  deriving DecidableEq

namespace Graph

/-- `Graph()`. -/
def empty : Graph ν := ⟨[], []⟩

variable (g other : Graph ν)

/-- `isEmpty`. -/
def isEmpty : Bool := g.nodes.length == 0

/-- `getNeighbors`. -/
def getNeighbors (src : ν) : List ν := (g.edges.filter (·.1 = src)).map (·.2)

/-- `isConnectedAndDifferent`. -/
def isConnectedAndDifferent : Bool :=
  other.nodes.any (· ∈ g.nodes) && other.nodes.any (· ∉ g.nodes)

/-- `addNode`, which asserts that the node is new, and `addNodeMayExists`. -/
def addNode (newNode : ν) : Graph ν := { g with nodes := insertNode newNode g.nodes }

/-- `addEdge`. -/
def addEdge (src dst : ν) : Graph ν :=
  { g with edges := insertPair (dst, src) (insertPair (src, dst) g.edges) }

/-- `addEdgeMayExists`. -/
def addEdgeMayExists (src dst : ν) : Graph ν :=
  if (src, dst) ∈ g.edges then g else g.addEdge src dst

/-- `merge`. -/
def merge : Graph ν :=
  let merged := other.nodes.foldl addNode g
  other.nodes.foldl (fun m u => (other.getNeighbors u).foldl (fun m v => m.addEdge u v) m) merged

/-- The loop of `mergeFrom` over the edges of a path. -/
def addPathEdges : Graph ν → List ν → Graph ν
  | g, u :: v :: path => addPathEdges (g.addEdgeMayExists u v) (v :: path)
  | g, _ => g

/-- `mergeFrom`. -/
def mergeFrom (path : List ν) : Graph ν := addPathEdges (path.foldl addNode g) path

/-- `removeEdge`. -/
def removeEdge (src dst : ν) : Graph ν :=
  { g with edges := g.edges.filter fun e => e ≠ (src, dst) ∧ e ≠ (dst, src) }

/-- `removeNode`. -/
def removeNode (node : ν) : Graph ν :=
  let nodes := g.nodes.filter (· ≠ node)
  let edges := (g.getNeighbors node).foldl (fun edges nbr => edges.filter (· ≠ (nbr, node))) g.edges
  ⟨nodes, edges.filter (·.1 ≠ node)⟩

/-- The body of the inner loop of `removeEdgesFrom`. -/
def removeEdgeIfAny (u : ν) (g : Graph ν) (v : ν) : Graph ν :=
  if v ∈ g.getNeighbors u then g.removeEdge u v else g

/-- The body of the outer loop of `removeEdgesFrom`. -/
def removeEdgesAt (other g : Graph ν) (u : ν) : Graph ν :=
  if u ∈ g.nodes then (other.getNeighbors u).foldl (removeEdgeIfAny u) g else g

/-- `removeEdgesFrom`. -/
def removeEdgesFrom : Graph ν := other.nodes.foldl other.removeEdgesAt g

end Graph

/-- The loop of `pathToGraph` after the first node. -/
def addPath : Graph ν → List ν → Graph ν
  | g, u :: v :: path => addPath ((g.addNode v).addEdge u v) (v :: path)
  | g, _ => g

/-- `pathToGraph`. -/
def pathToGraph : List ν → Graph ν
  | [] => .empty
  | u :: path => addPath (Graph.empty.addNode u) (u :: path)

/-! ## Basic paths -/

/-- `extendPath`. The path is kept unless it ends where it starts or at a node in `visited`. -/
def extendPath (graph : Graph ν) (visited : List ν) : Nat → List ν → List ν
  | 0, path => path
  | fuel + 1, path =>
    match path.reverse with
    | last :: prev :: _ =>
      if (graph.getNeighbors last).length ≠ 2 then
        if last ∈ visited ∨ path.head? = some last then [] else path
      else
        match ((graph.getNeighbors last).filter (· ≠ prev)).getLast? with
        | some next => extendPath graph visited fuel (path ++ [next])
        | none => path
    | _ => path

/-- The loop of `findBasicCycleIntersection` that removes nodes with fewer than two neighbours. -/
def pruneLoop : Nat → Graph ν → Graph ν
  | 0, graph => graph
  | fuel + 1, graph =>
    let toRemove := graph.nodes.filter fun u => (graph.getNeighbors u).length < 2
    if toRemove.length = 0 then graph else pruneLoop fuel (toRemove.foldl Graph.removeNode graph)

/-- The basic paths from one start node. -/
def pathsFrom (graph : Graph ν) (visited : List ν) (start : ν) : List (List ν) :=
  ((graph.getNeighbors start).map fun nbr =>
    extendPath graph visited (graph.edges.length + 1) [start, nbr]).filter (·.length > 0)

/-- The loop of `findBasicCycleIntersection` over the start nodes. -/
def basicPaths (graph : Graph ν) : List ν → List ν → List (List ν)
  | [], _ => []
  | start :: starts, visited =>
    if (graph.getNeighbors start).length ≤ 2 then basicPaths graph starts visited
    else pathsFrom graph visited start ++ basicPaths graph starts (insertNode start visited)

/-- The 2-core of a graph. -/
def core (graph : Graph ν) : Graph ν := pruneLoop (graph.nodes.length + 1) graph

/-- `findBasicCycleIntersection`. -/
def findBasicCycleIntersection (graph : Graph ν) : List (List ν) :=
  basicPaths (core graph) (core graph).nodes []

/-- `addEdge(u, v)` if both are nodes. -/
def addEdgeWithin (u : ν) (g : Graph ν) (v : ν) : Graph ν :=
  if v ∈ g.nodes then g.addEdge u v else g

/-- The loop that adds the edges of `q` from the nodes `us` to other nodes of the graph. -/
def addEdgesWithin (q : Graph ν) (us : List ν) (g : Graph ν) : Graph ν :=
  us.foldl (fun g u => (q.getNeighbors u).foldl (addEdgeWithin u) g) g

/-! ## Connected components -/

/-- The state of the loop of `getConnectedSubgraphs` that collects a component. -/
structure Expansion (ν : Type) where
  nodes : List ν
  visited : List ν
  updated : Bool

/-- The body of the innermost loop. -/
def expandEdge (s : Expansion ν) (dst : ν) : Expansion ν :=
  if dst ∈ s.nodes then s else ⟨insertNode dst s.nodes, insertNode dst s.visited, true⟩

/-- One round of the `do … while` loop. The source also meets the nodes that it inserts behind the
current one in the same round; here they wait for the next round, which leads to the same sets. -/
def expandRound (graph : Graph ν) (nodes visited : List ν) : Expansion ν :=
  nodes.foldl (fun s src => (graph.getNeighbors src).foldl expandEdge s) ⟨nodes, visited, false⟩

/-- The `do … while (updated)` loop: the nodes of the component and `visited`. -/
def expandLoop (graph : Graph ν) : Nat → List ν → List ν → List ν × List ν
  | 0, nodes, visited => (nodes, visited)
  | fuel + 1, nodes, visited =>
    let s := expandRound graph nodes visited
    if s.updated then expandLoop graph fuel s.nodes s.visited else (s.nodes, s.visited)

/-- The component with the given nodes, and all edges between them. -/
def componentOf (graph : Graph ν) (nodes : List ν) : Graph ν :=
  addEdgesWithin graph nodes ⟨nodes, []⟩

/-- The loop of `getConnectedSubgraphs` over the start nodes. -/
def subgraphsFrom (graph : Graph ν) : List ν → List ν → List (Graph ν)
  | [], _ => []
  | start :: starts, visited =>
    if start ∈ visited then subgraphsFrom graph starts visited
    else
      let (nodes, visited) := expandLoop graph (graph.nodes.length + 1) [start] visited
      componentOf graph nodes :: subgraphsFrom graph starts visited

/-- `getConnectedSubgraphs`. -/
def getConnectedSubgraphs (graph : Graph ν) : List (Graph ν) := subgraphsFrom graph graph.nodes []

/-! ## Build paths -/

/-- `BuildPathLengthLimit`. -/
def buildPathLengthLimit : Nat := 3

/-- `building_graphs`: for a probe node and an intersection node the path between them. -/
abbrev BuildingGraphs (ν : Type) := List (ν × List (ν × List ν))

/-- `building_graphs[probe][intersect] = path`. -/
def setPath (bg : BuildingGraphs ν) (probe intersect : ν) (path : List ν) : BuildingGraphs ν :=
  mapSet probe (mapSet intersect path ((mapGet probe bg).getD [])) bg

/-- The assignment that keeps the shorter path. -/
def setShorterPath (bg : BuildingGraphs ν) (probe intersect : ν) (path : List ν) : BuildingGraphs ν :=
  match mapGet intersect ((mapGet probe bg).getD []) with
  | some old => if old.length > path.length then setPath bg probe intersect path else bg
  | none => setPath bg probe intersect path

/-- The body of the loop of `findCycleJoin` over the basic paths. -/
def addBasicPath (probes : List ν) (bg : BuildingGraphs ν) (path : List ν) : BuildingGraphs ν :=
  match path.head?, path.getLast? with
  | some head, some tail =>
    if path.tail.dropLast.any (· ∈ probes) then bg
    else if head ∈ probes then
      if tail ∈ probes then
        if path.length < 2 * buildPathLengthLimit ∧ path.length > 2 then
          match path.drop (path.length / 2) with
          | intersect :: _ =>
            let bg := setPath bg head intersect (path.take (path.length / 2 + 1))
            setPath bg tail intersect (path.drop (path.length / 2)).reverse
          | [] => bg
        else bg
      else if path.length > buildPathLengthLimit then bg
      else setShorterPath bg head tail path
    else if tail ∈ probes then
      if path.length > buildPathLengthLimit then bg
      else setShorterPath bg tail head path.reverse
    else bg
  | _, _ => bg

/-- `intersect_node_counts`. -/
def intersectNodeCount (bg : BuildingGraphs ν) (node : ν) : Nat :=
  bg.countP fun entry => node ∈ entry.2.map (·.1)

/-- One round of the removal loop: whether something was removed, and the paths left. -/
def removalRound (bg : BuildingGraphs ν) : Bool × BuildingGraphs ν :=
  let kept := bg.filter fun entry => ¬ entry.2.length < 2
  let result := kept.map fun entry =>
    (entry.1, entry.2.filter fun p => ¬ intersectNodeCount bg p.1 < 2)
  (bg.any (·.2.length < 2) ||
    kept.any (fun entry => entry.2.any fun p => intersectNodeCount bg p.1 < 2), result)

/-- The removal loop of `findCycleJoin`. -/
def removalLoop : Nat → BuildingGraphs ν → BuildingGraphs ν
  | 0, bg => bg
  | fuel + 1, bg =>
    let (removal, bg) := removalRound bg
    if removal then removalLoop fuel bg else bg

/-- `findCycleJoin`. -/
def findCycleJoin (probes : List ν) (basic : List (List ν)) : List (List (List ν)) :=
  let bg := basic.foldl (addBasicPath probes) []
  let bg := removalLoop ((bg.map fun entry => entry.2.length + 1).sum + 1) bg
  bg.map fun entry => entry.2.map (·.2)

/-- `compareCycleJoin`. -/
def compareCycleJoin (a b : List ν) (basic : List (List ν)) : Bool :=
  let treesA := findCycleJoin a basic
  let treesB := findCycleJoin b basic
  if treesA.length = 0 then false
  else if treesB.length = 0 then true
  else
    let sA : Nat := (treesA.map fun paths => paths.length - 1).sum
    let sB : Nat := (treesB.map fun paths => paths.length - 1).sum
    if sA > sB ∧ sA > 0 then true
    else
      let tA : Nat := (treesA.map fun paths => (paths.map fun path => path.length - 2).sum).sum
      let tB : Nat := (treesB.map fun paths => (paths.map fun path => path.length - 2).sum).sum
      if tA < tB then true
      else if a.length < b.length then true
      else false

/-- The inner loop of `findBestCycleJoin`: the last candidate that improves, if any. -/
def improve (basic : List (List ν)) (candidates : List (Graph ν)) (probe : Graph ν) : Graph ν × Bool :=
  candidates.foldl (fun (best, improved) candidate =>
    if compareCycleJoin candidate.nodes best.nodes basic then (candidate, true)
    else (best, improved)) (probe, false)

/-- The candidates of the next round: the probe graph and one more basic path. -/
def nextCandidates (basic : List (List ν)) (probe : Graph ν) : List (Graph ν) :=
  (basic.filter fun path => probe.isConnectedAndDifferent (pathToGraph path)).map fun path =>
    probe.merge (pathToGraph path)

/-- The outer loop of `findBestCycleJoin`. -/
def bestProbe (basic : List (List ν)) : Nat → List (Graph ν) → Graph ν → Graph ν
  | 0, _, probe => probe
  | fuel + 1, candidates, probe =>
    let (best, improved) := improve basic candidates probe
    if !improved then best
    else
      let next := nextCandidates basic best
      if next.length > 0 then bestProbe basic fuel next best else best

/-- The loop that adds to the probe graph all edges between its nodes. -/
def induce (q probe : Graph ν) : Graph ν := addEdgesWithin q probe.nodes probe

/-- What `std::shuffle` may do to the basic paths; without `enableRandomJoinOrder` the order stays
as it is. -/
structure Shuffle (ν : Type) where
  shuffle : List (List ν) → List (List ν)
  perm : ∀ l, (shuffle l).Perm l

/-- `findBestCycleJoin`: the probe graph and the trees of build paths. -/
def findBestCycleJoin (sh : Shuffle ν) (q : Graph ν) : Graph ν × List (List (List ν)) :=
  let basic := findBasicCycleIntersection q
  if basic.length = 0 then (.empty, [])
  else
    let basic := sh.shuffle basic
    let probe := induce q (bestProbe basic (q.nodes.length + 2) (basic.map pathToGraph) .empty)
    (probe, findCycleJoin probe.nodes basic)

end Simple
end CycleJoin
