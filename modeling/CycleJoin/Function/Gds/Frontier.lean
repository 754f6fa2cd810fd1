import CycleJoin.Lib.Walks

/-!
# Graphs and frontiers of recursive joins

`function/gds/gds_frontier.cpp`, `function/gds/gds_task.cpp`, `function/gds/gds_utils.cpp`. A recursive
join visits the relationships of the nodes of its current frontier, iteration by iteration. Frontiers
and the other data per node are hash maps first (sparse) and arrays later (dense); the switch can come
after any iteration.

The order in which one iteration visits relationships is that of hash maps and threads, so a `Schedule`
gives any order, and any iteration for the switch. Tables are left out: a node of the model is a node ID.
-/

namespace CycleJoin

/-! ## The graph -/

structure Rel (V E : Type) where
  src : V
  dst : V
  id : E
  deriving DecidableEq, Repr

/-- `ExtendDirection`. -/
inductive ExtendDirection where
  | fwd
  | bwd
  | both
  deriving DecidableEq, Repr

/-- A relationship as it is passed from a bound node to its neighbour. -/
structure Hop (V E : Type) where
  node : V
  edge : E
  isFwd : Bool
  deriving DecidableEq, Repr

/-- The arguments of an edge compute for one neighbour of a bound node. -/
structure EdgeVisit (V E : Type) where
  hop : Hop V E
  nbr : V
  deriving DecidableEq, Repr

/-- The relationships of an `OnDiskGraph` have IDs of their own. -/
structure OnDiskGraph (V E : Type) where
  rels : List (Rel V E)
  ids_nodup : (rels.map (·.id)).Nodup

namespace OnDiskGraph

variable {V E : Type} (g : OnDiskGraph V E)

/-- `scanFwd` of all nodes. -/
def scanFwd : List (EdgeVisit V E) := g.rels.map fun rel => ⟨⟨rel.src, rel.id, true⟩, rel.dst⟩

/-- `scanBwd` of all nodes. -/
def scanBwd : List (EdgeVisit V E) := g.rels.map fun rel => ⟨⟨rel.dst, rel.id, false⟩, rel.src⟩

/-- What the frontier tasks of one iteration scan, if all nodes are active. -/
def visits : ExtendDirection → List (EdgeVisit V E)
  | .fwd => g.scanFwd
  | .bwd => g.scanBwd
  | .both => g.scanFwd ++ g.scanBwd

/-- The graph that a recursive join in a direction walks on. -/
def hops (direction : ExtendDirection) : HopGraph V (Hop V E) where
  enters hop node := ⟨hop, node⟩ ∈ g.visits direction
  origin := Hop.node

theorem scanFwd_nodup : g.scanFwd.Nodup := by
  refine List.Nodup.of_map (fun visit => visit.hop.edge) ?_
  simpa only [scanFwd, List.map_map, Function.comp_def] using g.ids_nodup

theorem scanBwd_nodup : g.scanBwd.Nodup := by
  refine List.Nodup.of_map (fun visit => visit.hop.edge) ?_
  simpa only [scanBwd, List.map_map, Function.comp_def] using g.ids_nodup

theorem visits_nodup (direction : ExtendDirection) : (g.visits direction).Nodup := by
  cases direction with
  | fwd => exact g.scanFwd_nodup
  | bwd => exact g.scanBwd_nodup
  | both =>
    refine List.nodup_append'.mpr ⟨g.scanFwd_nodup, g.scanBwd_nodup, fun visit h h' => ?_⟩
    obtain ⟨_, -, rfl⟩ := List.mem_map.mp h
    obtain ⟨_, -, heq⟩ := List.mem_map.mp h'
    simp at heq

/-- A relationship joins the same two nodes, whichever way it is passed. -/
theorem visits_of_edge_eq {g : OnDiskGraph V E} {direction : ExtendDirection} {visit visit' : EdgeVisit V E}
    (h : visit ∈ g.visits direction) (h' : visit' ∈ g.visits direction)
    (hedge : visit.hop.edge = visit'.hop.edge) :
    (visit = visit') ∨ (visit.hop.node = visit'.nbr ∧ visit.nbr = visit'.hop.node) := by
  have hrel : ∀ {visit}, visit ∈ g.visits direction → ∃ rel ∈ g.rels,
      visit = ⟨⟨rel.src, rel.id, true⟩, rel.dst⟩ ∨ visit = ⟨⟨rel.dst, rel.id, false⟩, rel.src⟩ := by
    intro visit hv
    have hscan : visit ∈ g.scanFwd ∨ visit ∈ g.scanBwd := by
      cases direction with
      | fwd => exact .inl hv
      | bwd => exact .inr hv
      | both => exact List.mem_append.mp hv
    obtain hv | hv := hscan
    · obtain ⟨rel, hmem, rfl⟩ := List.mem_map.mp hv
      exact ⟨rel, hmem, .inl rfl⟩
    · obtain ⟨rel, hmem, rfl⟩ := List.mem_map.mp hv
      exact ⟨rel, hmem, .inr rfl⟩
  obtain ⟨rel, hmem, hvisit⟩ := hrel h
  obtain ⟨rel', hmem', hvisit'⟩ := hrel h'
  have hid : rel.id = rel'.id := by
    obtain rfl | rfl := hvisit <;> obtain rfl | rfl := hvisit' <;> exact hedge
  obtain rfl : rel = rel' := List.inj_on_of_nodup_map g.ids_nodup hmem hmem' hid
  obtain rfl | rfl := hvisit <;> obtain rfl | rfl := hvisit'
  · exact .inl rfl
  · exact .inr ⟨rfl, rfl⟩
  · exact .inr ⟨rfl, rfl⟩
  · exact .inl rfl

end OnDiskGraph

def oneRel : OnDiskGraph Nat Nat := ⟨[⟨0, 1, 7⟩], by decide⟩

/-- Two walks of two relationships lead from node `0` to node `3`. -/
def twoWays : OnDiskGraph Nat Nat := ⟨[⟨0, 1, 5⟩, ⟨0, 2, 6⟩, ⟨1, 3, 7⟩, ⟨2, 3, 8⟩], by decide⟩

/-! ## Data per node -/

/-- `GDSDensityState`. -/
inductive GDSDensityState where
  | sparse
  | dense
  deriving DecidableEq, Repr

/-- Data per node, as a hash map (`GDSSpareObjectManager`) or as an array (`GDSDenseObjectManager`). -/
structure DensityMap (V α : Type) where
  state : GDSDensityState
  sparse : V → Option α
  dense : V → α

namespace DensityMap

variable {V α : Type}

/-- An empty hash map; the array is not initialized. -/
def empty (default : α) : DensityMap V α := ⟨.sparse, fun _ => none, fun _ => default⟩

/-- The value of a node, `default` if the hash map has none. -/
def get (default : α) (m : DensityMap V α) (node : V) : α :=
  match m.state with
  | .sparse => (m.sparse node).getD default
  | .dense => m.dense node

def set [DecidableEq V] (m : DensityMap V α) (node : V) (value : α) : DensityMap V α :=
  match m.state with
  | .sparse => { m with sparse := Function.update m.sparse node (some value) }
  | .dense => { m with dense := Function.update m.dense node value }

/-- `switchToDense`: the array starts with `default` and gets the values of the hash map. -/
def switchToDense (default : α) (m : DensityMap V α) : DensityMap V α :=
  { m with state := .dense, dense := fun node => (m.sparse node).getD default }

/-- `switchToDense` of data that is not copied. -/
def resetToDense (default : α) (m : DensityMap V α) : DensityMap V α :=
  { m with state := .dense, dense := fun _ => default }

variable {default : α} {m : DensityMap V α}

@[simp]
theorem get_empty (node : V) : (empty default : DensityMap V α).get default node = default := rfl

@[simp]
theorem state_empty : (empty default : DensityMap V α).state = .sparse := rfl

theorem get_switchToDense (h : m.state = .sparse) (node : V) :
    (m.switchToDense default).get default node = m.get default node := by
  simp [get, switchToDense, h]

@[simp]
theorem get_resetToDense (node : V) : (m.resetToDense default).get default node = default := rfl

variable [DecidableEq V]

@[simp]
theorem state_set (node : V) (value : α) : (m.set node value).state = m.state := by
  unfold set
  split <;> rfl

@[simp]
theorem get_set_self (node : V) (value : α) : (m.set node value).get default node = value := by
  cases h : m.state <;> simp [get, set, h]

theorem get_set_of_ne {node node' : V} (hne : node' ≠ node) (value : α) :
    (m.set node value).get default node' = m.get default node' := by
  cases h : m.state <;> simp [get, set, h, Function.update_of_ne hne]

theorem get_set (node node' : V) (value : α) :
    (m.set node value).get default node' = if node' = node then value else m.get default node' := by
  split
  · next h => rw [h, get_set_self]
  · next h => exact get_set_of_ne h value

end DensityMap

/-! ## Frontiers -/

/-- `FRONTIER_UNVISITED`. -/
def frontierUnvisited : Nat := 2 ^ 16 - 1

/-- `DenseSparseDynamicFrontierPair`. A frontier gives each node the iteration that visited it. -/
structure FrontierPair (V : Type) where
  curIter : Nat
  hasActiveNodesForNextIter : Bool
  currentFrontier : DensityMap V Nat
  nextFrontier : DensityMap V Nat

namespace FrontierPair

variable {V : Type}

/-- `GDSComputeState::initSource`. -/
def initSource [DecidableEq V] (source : V) : FrontierPair V where
  curIter := 0
  hasActiveNodesForNextIter := true
  currentFrontier := .empty frontierUnvisited
  nextFrontier := (DensityMap.empty frontierUnvisited).set source 0

def continueNextIter (p : FrontierPair V) (maxIter : Nat) : Bool :=
  p.hasActiveNodesForNextIter && p.curIter < maxIter

def beginNewIteration (p : FrontierPair V) : FrontierPair V where
  curIter := p.curIter + 1
  hasActiveNodesForNextIter := false
  currentFrontier := p.nextFrontier
  nextFrontier := p.currentFrontier

def isActiveOnCurrentFrontier (p : FrontierPair V) (node : V) : Bool :=
  p.currentFrontier.get frontierUnvisited node = p.curIter - 1

/-- `addNodesToNextFrontier` for one node, with `setActiveNodesForNextIter`. -/
def addNodeToNextFrontier [DecidableEq V] (p : FrontierPair V) (node : V) : FrontierPair V :=
  { p with
    nextFrontier := p.nextFrontier.set node p.curIter
    hasActiveNodesForNextIter := true }

def switchToDense (p : FrontierPair V) : FrontierPair V :=
  { p with
    currentFrontier := p.currentFrontier.resetToDense frontierUnvisited
    nextFrontier := p.nextFrontier.switchToDense frontierUnvisited }

end FrontierPair

/-- What hash maps, threads and the size of the frontier decide: the order of the visits of each
iteration, after which iterations the frontier is large enough to switch to dense, and the order in
which the output writer goes through its hash map. -/
structure Schedule (V E : Type) where
  order : Nat → List (EdgeVisit V E) → List (EdgeVisit V E)
  order_perm : ∀ iter visits, (order iter visits).Perm visits
  needSwitchToDense : Nat → Bool
  mapOrder : List V → List V
  mapOrder_perm : ∀ nodes, (mapOrder nodes).Perm nodes

/-- The visits of an iteration start at the nodes that the one before has added. -/
theorem Schedule.mem_order {V E : Type} (schedule : Schedule V E) {g : OnDiskGraph V E}
    {direction : ExtendDirection} {p : FrontierPair V} {iter : Nat} {visit : EdgeVisit V E} :
    visit ∈ schedule.order iter ((g.visits direction).filter fun visit =>
        p.beginNewIteration.isActiveOnCurrentFrontier visit.hop.node) ↔
      (g.hops direction).enters visit.hop visit.nbr ∧
        p.nextFrontier.get frontierUnvisited visit.hop.node = p.curIter := by
  rw [(schedule.order_perm ..).mem_iff, List.mem_filter, FrontierPair.isActiveOnCurrentFrontier, decide_eq_true_eq]
  rfl

/-- Everything in the order of the graph, and no switch. -/
def Schedule.inOrder (V E : Type) : Schedule V E where
  order := fun _ visits => visits
  order_perm := fun _ _ => .refl _
  needSwitchToDense := fun _ => false
  mapOrder := fun nodes => nodes
  mapOrder_perm := fun _ => .refl _

end CycleJoin
