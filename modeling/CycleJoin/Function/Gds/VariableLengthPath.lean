import CycleJoin.Function.Gds.Search

/-!
# Variable-length joins

`function/gds/variable_length_path.cpp`, with the loop of `GDSUtils::runRecursiveJoinEdgeCompute` and the
output of `RecursiveExtend` (`processor/operator/recursive_extend.cpp`). Every visit of a relationship
adds a parent to the neighbour, with the iteration, and takes the neighbour into the next frontier.

* `ParentLayers`: the parents of a node are the last hops of the walks to it, once for each length, the
  longest first.
* `VarLenState.run_inv`: this holds when the loop ends, for every schedule.
-/

namespace CycleJoin

open List FrontierPair DensityMap

variable {V E : Type} [DecidableEq V]

/-! ## The loop -/

/-- The compute state of a variable-length join. -/
structure VarLenState (V E : Type) where
  frontierPair : FrontierPair V
  bfsGraph : DensityMap V (ParentList V E)

/-- `addParent` of `SparseBFSGraph` and `DenseBFSGraph`: the new parent comes first. -/
def addParent (bfsGraph : DensityMap V (ParentList V E)) (iter : Nat) (visit : EdgeVisit V E) :
    DensityMap V (ParentList V E) :=
  bfsGraph.set visit.nbr (⟨visit.hop, iter⟩ :: bfsGraph.get [] visit.nbr)

namespace VarLenState

def initSource (source : V) : VarLenState V E := ⟨.initSource source, .empty []⟩

def parents (s : VarLenState V E) : V → ParentList V E := s.bfsGraph.get []

/-- `VarLenJoinsEdgeCompute::edgeCompute` for one neighbour. -/
def edgeCompute (s : VarLenState V E) (visit : EdgeVisit V E) : VarLenState V E where
  frontierPair := s.frontierPair.addNodeToNextFrontier visit.nbr
  bfsGraph := addParent s.bfsGraph s.frontierPair.curIter visit

/-- `GDSComputeState::switchToDense`. -/
def switchToDense (s : VarLenState V E) : VarLenState V E where
  frontierPair := s.frontierPair.switchToDense
  bfsGraph := s.bfsGraph.switchToDense []

section
variable (g : OnDiskGraph V E) (direction : ExtendDirection) (schedule : Schedule V E)
  (s : VarLenState V E)

/-- `runOneIteration`: the relationships of the active nodes, in the order of the schedule. -/
def runOneIteration : VarLenState V E :=
  let active := (g.visits direction).filter fun visit =>
    s.frontierPair.isActiveOnCurrentFrontier visit.hop.node
  (schedule.order s.frontierPair.curIter active).foldl edgeCompute s

/-- The body of the loop of `runRecursiveJoinEdgeCompute`. -/
def iterate : VarLenState V E :=
  let s := runOneIteration g direction schedule
    { s with frontierPair := s.frontierPair.beginNewIteration }
  if s.frontierPair.nextFrontier.state = .sparse ∧ schedule.needSwitchToDense s.frontierPair.curIter
  then s.switchToDense else s

end

/-- The loop. It makes at most `maxIter` iterations, so `maxIter` rounds are enough. -/
def runLoop (g : OnDiskGraph V E) (direction : ExtendDirection) (schedule : Schedule V E) (maxIter : Nat) :
    Nat → VarLenState V E → VarLenState V E
  | 0, s => s
  | rounds + 1, s =>
    if s.frontierPair.continueNextIter maxIter then
      runLoop g direction schedule maxIter rounds (s.iterate g direction schedule)
    else s

/-- `runRecursiveJoinEdgeCompute` from a source. -/
def run (g : OnDiskGraph V E) (direction : ExtendDirection) (schedule : Schedule V E) (upperBound : UInt16)
    (source : V) : VarLenState V E :=
  runLoop g direction schedule upperBound.toNat upperBound.toNat (initSource source)

end VarLenState

/-! ## The output -/

/-- `VarLenPathsOutputWriter::writeInternal`. -/
def PathsOutputWriterInfo.writeInternal [DecidableEq E] (info : PathsOutputWriterInfo V)
    (parents : V → ParentList V E) (source : V) (fuel : Nat) (dst : V) : Option (List (PathRow V E)) :=
  match info.findFirstParent (parents dst) with
  | [] => if source = dst ∧ info.lowerBound = 0 then some [info.pathRow dst []] else some []
  | first :: next =>
    if first.iter < info.lowerBound.toNat then some []
    else
      let paths := if info.isFast then dfsFast info parents fuel (first :: next)
        else dfsSlow info parents fuel (first :: next)
      paths.map (·.map (info.pathRow dst))

/-- The rows of a variable-length join from a source: `nodes` are the nodes of the output tables. -/
def PathsOutputWriterInfo.varLenJoin [DecidableEq E] (info : PathsOutputWriterInfo V) (g : OnDiskGraph V E)
    (direction : ExtendDirection) (schedule : Schedule V E) (upperBound : UInt16) (source : V)
    (nodes : List V) (outputNodeMask : V → Bool) (fuel : Nat) : Option (List (PathRow V E)) :=
  let s := VarLenState.run g direction schedule upperBound source
  writeAll outputNodeMask (info.writeInternal s.parents source fuel)
    (info.destinations schedule nodes source s.bfsGraph)

/-! ## What the parents say -/

/-- The parents of a node are the last hops of the walks to it of the lengths `1` to `n`, once for each
length, the longest first. -/
structure ParentLayers (G : HopGraph V (Hop V E)) (source : V) (n : Nat)
    (parents : V → ParentList V E) : Prop where
  sorted : ∀ node, IterSorted (parents node)
  nodup : ∀ node, (parents node).Nodup
  mem : ∀ {node e}, e ∈ parents node ↔
    G.enters e.toHop node ∧ 1 ≤ e.iter ∧ e.iter ≤ n ∧ G.HasWalk source (e.iter - 1) (G.origin e.toHop)

namespace ParentLayers

variable {G : HopGraph V (Hop V E)} {source : V} {n : Nat} {parents : V → ParentList V E}

omit [DecidableEq V] in
/-- If no walk has length `n`, the parents are those of all longer walks too. -/
theorem of_not_hasWalk (h : ParentLayers G source n parents) (hno : ∀ node, ¬ G.HasWalk source n node)
    {m : Nat} (hm : n ≤ m) : ParentLayers G source m parents where
  sorted := h.sorted
  nodup := h.nodup
  mem := fun {node e} => by
    rw [h.mem]
    constructor
    · rintro ⟨he, hpos, hle, hw⟩
      exact ⟨he, hpos, hle.trans hm, hw⟩
    · rintro ⟨he, hpos, -, hw⟩
      refine ⟨he, hpos, ?_, hw⟩
      by_contra hgt
      obtain ⟨node', hw'⟩ := hw.exists_of_le (show n ≤ e.iter - 1 by omega)
      exact hno node' hw'

/-- The parents after an iteration: `visits` are the relationships of the nodes that have a walk of
length `n`, in any order. -/
theorem append (h : ParentLayers G source n parents) {visits : List (EdgeVisit V E)}
    (hnodup : visits.Nodup) (hvisits : ∀ {visit}, visit ∈ visits ↔
      G.enters visit.hop visit.nbr ∧ G.HasWalk source n (G.origin visit.hop)) :
    ParentLayers G source (n + 1) fun node =>
      ((visits.filter (·.nbr = node)).map fun visit => (⟨visit.hop, n + 1⟩ : ParentEntry V E)).reverse
        ++ parents node := by
  have hnew : ∀ {node e}, e ∈ ((visits.filter (·.nbr = node)).map
        fun visit => (⟨visit.hop, n + 1⟩ : ParentEntry V E)).reverse ↔
      e.iter = n + 1 ∧ G.enters e.toHop node ∧ G.HasWalk source n (G.origin e.toHop) := by
    intro node e
    simp only [mem_reverse, mem_map, mem_filter, decide_eq_true_eq]
    constructor
    · rintro ⟨visit, ⟨hmem, rfl⟩, rfl⟩
      exact ⟨rfl, hvisits.mp hmem⟩
    · rintro ⟨hiter, he, hw⟩
      exact ⟨⟨e.toHop, node⟩, ⟨hvisits.mpr ⟨he, hw⟩, rfl⟩, by rw [← hiter]⟩
  constructor
  case sorted =>
    intro node
    refine pairwise_append.mpr ⟨?_, h.sorted node, fun e he e' he' => ?_⟩
    · refine pairwise_of_forall_mem_list fun e he e' he' => ?_
      rw [(hnew.mp he).1, (hnew.mp he').1]
    · rw [(hnew.mp he).1]
      exact Nat.le_succ_of_le (h.mem.mp he').2.2.1
  case nodup =>
    intro node
    refine nodup_append'.mpr ⟨?_, h.nodup node, fun e he he' => ?_⟩
    · refine nodup_reverse.mpr ((hnodup.filter _).map_on fun visit hv visit' hv' heq => ?_)
      cases visit
      cases visit'
      simp_all
    · have hlt := (h.mem.mp he').2.2.1
      have := (hnew.mp he).1
      omega
  case mem =>
    intro node e
    rw [mem_append, hnew, h.mem]
    constructor
    · rintro (⟨hiter, he, hw⟩ | ⟨he, hpos, hle, hw⟩)
      · refine ⟨he, by omega, by omega, ?_⟩
        rwa [hiter]
      · exact ⟨he, hpos, by omega, hw⟩
    · rintro ⟨he, hpos, hle, hw⟩
      by_cases hiter : e.iter = n + 1
      · rw [hiter] at hw
        exact .inl ⟨hiter, he, hw⟩
      · exact .inr ⟨he, hpos, by omega, hw⟩

end ParentLayers

/-! ## One iteration -/

namespace VarLenState

variable {s : VarLenState V E}

/-- A sequence of edge computes. -/
structure AfterVisits (s : VarLenState V E) (visits : List (EdgeVisit V E)) (s' : VarLenState V E) :
    Prop where
  curIter : s'.frontierPair.curIter = s.frontierPair.curIter
  current : s'.frontierPair.currentFrontier = s.frontierPair.currentFrontier
  active : s'.frontierPair.hasActiveNodesForNextIter =
    (s.frontierPair.hasActiveNodesForNextIter || !visits.isEmpty)
  next : ∀ node, s'.frontierPair.nextFrontier.get frontierUnvisited node =
    if ∃ visit ∈ visits, visit.nbr = node then s.frontierPair.curIter
    else s.frontierPair.nextFrontier.get frontierUnvisited node
  state : s'.frontierPair.nextFrontier.state = s.frontierPair.nextFrontier.state
  graphState : s'.bfsGraph.state = s.bfsGraph.state
  parents : ∀ node, s'.parents node = ((visits.filter (·.nbr = node)).map
      fun visit => (⟨visit.hop, s.frontierPair.curIter⟩ : ParentEntry V E)).reverse ++ s.parents node
  keys : (∀ node, s.bfsGraph.sparse node ≠ some []) → ∀ node, s'.bfsGraph.sparse node ≠ some []

theorem afterVisits_foldl (s : VarLenState V E) (visits : List (EdgeVisit V E)) :
    AfterVisits s visits (visits.foldl edgeCompute s) := by
  induction visits generalizing s with
  | nil => constructor <;> simp
  | cons visit visits ih =>
    have h := ih (s.edgeCompute visit)
    rw [foldl_cons]
    constructor
    case curIter => exact h.curIter
    case current => exact h.current
    case active => simpa [edgeCompute, addNodeToNextFrontier] using h.active
    case next =>
      intro node
      rw [h.next node]
      by_cases hlater : ∃ visit' ∈ visits, visit'.nbr = node
      · obtain ⟨visit', hv, hn⟩ := hlater
        rw [if_pos ⟨visit', hv, hn⟩, if_pos ⟨visit', mem_cons_of_mem _ hv, hn⟩]
        rfl
      · rw [if_neg hlater]
        by_cases hn : visit.nbr = node
        · rw [if_pos ⟨visit, mem_cons_self, hn⟩, ← hn]
          exact get_set_self ..
        · rw [if_neg (by simpa [hn] using hlater)]
          exact get_set_of_ne (Ne.symm hn) _
    case state => exact h.state.trans (state_set ..)
    case graphState => exact h.graphState.trans (state_set ..)
    case parents =>
      intro node
      have hadd : (s.edgeCompute visit).parents node =
          if node = visit.nbr then ⟨visit.hop, s.frontierPair.curIter⟩ :: s.parents node
          else s.parents node := by
        simp only [parents, edgeCompute, addParent, get_set]
        split
        · next hn => rw [hn]
        · rfl
      rw [h.parents node, hadd]
      by_cases hn : node = visit.nbr
      · rw [if_pos hn, filter_cons_of_pos (by simpa using hn.symm)]
        simp [edgeCompute, addNodeToNextFrontier]
      · rw [if_neg hn, filter_cons_of_neg (by simpa using Ne.symm hn)]
        simp [edgeCompute, addNodeToNextFrontier]
    case keys =>
      intro hkeys
      refine h.keys fun node => ?_
      simp only [edgeCompute, addParent, DensityMap.set]
      cases s.bfsGraph.state with
      | sparse =>
        by_cases hn : node = visit.nbr
        · subst hn; simp
        · simpa [Function.update_of_ne hn] using hkeys node
      | dense => exact hkeys node

/-- What holds between iterations. -/
structure Inv (g : OnDiskGraph V E) (direction : ExtendDirection) (source : V) (s : VarLenState V E) :
    Prop where
  currentState : s.frontierPair.currentFrontier.state = s.frontierPair.nextFrontier.state
  graphState : s.bfsGraph.state = s.frontierPair.nextFrontier.state
  current_le : ∀ node, s.frontierPair.currentFrontier.get frontierUnvisited node ≤
    s.frontierPair.curIter ∨ s.frontierPair.currentFrontier.get frontierUnvisited node =
      frontierUnvisited
  next_le : ∀ node, s.frontierPair.nextFrontier.get frontierUnvisited node ≤ s.frontierPair.curIter ∨
    s.frontierPair.nextFrontier.get frontierUnvisited node = frontierUnvisited
  next : s.frontierPair.curIter < frontierUnvisited → ∀ node,
    s.frontierPair.nextFrontier.get frontierUnvisited node = s.frontierPair.curIter ↔
      (g.hops direction).HasWalk source s.frontierPair.curIter node
  active : s.frontierPair.hasActiveNodesForNextIter = true ↔
    ∃ node, (g.hops direction).HasWalk source s.frontierPair.curIter node
  layers : ParentLayers (g.hops direction) source s.frontierPair.curIter s.parents
  keys : ∀ node, s.bfsGraph.sparse node ≠ some []

variable {g : OnDiskGraph V E} {direction : ExtendDirection} {source : V}

theorem inv_initSource : Inv g direction source (initSource source : VarLenState V E) where
  currentState := rfl
  graphState := rfl
  current_le := fun _ => .inr rfl
  next_le := fun node => by
    simp only [initSource, FrontierPair.initSource, get_set]
    split
    · exact .inl le_rfl
    · exact .inr rfl
  next := fun _ node => by
    simp only [initSource, FrontierPair.initSource, get_set]
    split
    · next hn => simpa using hn
    · next hn =>
      have : frontierUnvisited ≠ 0 := by decide
      simpa [hn] using this
  active := by simp [initSource, FrontierPair.initSource]
  layers := by
    refine ⟨fun _ => .nil, fun _ => .nil, fun {node e} => ?_⟩
    simp only [initSource, parents, get_empty, not_mem_nil, false_iff]
    rintro ⟨-, hpos, hle, -⟩
    have hle : e.iter ≤ 0 := hle
    omega
  keys := fun _ => by simp [initSource, empty]

omit [DecidableEq V] in
theorem Inv.switchToDense (h : Inv g direction source s)
    (hsparse : s.frontierPair.nextFrontier.state = .sparse) : Inv g direction source s.switchToDense := by
  have hnext : ∀ node, s.switchToDense.frontierPair.nextFrontier.get frontierUnvisited node =
        s.frontierPair.nextFrontier.get frontierUnvisited node :=
    get_switchToDense hsparse
  have hparents : s.switchToDense.parents = s.parents := funext (get_switchToDense (h.graphState.trans hsparse))
  constructor
  case currentState => rfl
  case graphState => rfl
  case current_le => exact fun _ => .inr rfl
  case next_le => exact fun node => (hnext node).symm ▸ h.next_le node
  case next => exact fun hlt node => (hnext node).symm ▸ h.next hlt node
  case active => exact h.active
  case layers => exact hparents ▸ h.layers
  case keys => exact h.keys

theorem Inv.iterate (h : Inv g direction source s) (schedule : Schedule V E)
    (hlt : s.frontierPair.curIter < frontierUnvisited) :
    Inv g direction source (s.iterate g direction schedule) ∧
      (s.iterate g direction schedule).frontierPair.curIter = s.frontierPair.curIter + 1 := by
  -- The state with the frontiers swapped, and the visits of the active nodes.
  obtain ⟨b, hb⟩ : ∃ b : VarLenState V E, b = { s with frontierPair := s.frontierPair.beginNewIteration } := ⟨_, rfl⟩
  obtain ⟨visits, hvisits⟩ : ∃ visits, visits = schedule.order b.frontierPair.curIter
      ((g.visits direction).filter fun visit =>
        b.frontierPair.isActiveOnCurrentFrontier visit.hop.node) := ⟨_, rfl⟩
  have hcur : b.frontierPair.curIter = s.frontierPair.curIter + 1 := by rw [hb]; rfl
  have hmem : ∀ {visit}, visit ∈ visits ↔ (g.hops direction).enters visit.hop visit.nbr ∧
      (g.hops direction).HasWalk source s.frontierPair.curIter ((g.hops direction).origin visit.hop) := by
    intro visit
    rw [hvisits, hb, ← h.next hlt]
    exact schedule.mem_order
  have hnodup : visits.Nodup := hvisits ▸ (schedule.order_perm ..).nodup_iff.mpr ((g.visits_nodup direction).filter _)
  have hreached : ∀ node, (∃ visit ∈ visits, visit.nbr = node) ↔
      (g.hops direction).HasWalk source (s.frontierPair.curIter + 1) node := by
    intro node
    rw [HopGraph.hasWalk_succ]
    constructor
    · rintro ⟨visit, hv, rfl⟩
      exact ⟨visit.hop, hmem.mp hv⟩
    · rintro ⟨hop, hop'⟩
      exact ⟨⟨hop, node⟩, hmem.mpr hop', rfl⟩
  have hafter := afterVisits_foldl b visits
  obtain ⟨c, hc⟩ : ∃ c, c = visits.foldl edgeCompute b := ⟨_, rfl⟩
  rw [← hc] at hafter
  have hccur : c.frontierPair.curIter = s.frontierPair.curIter + 1 := hafter.curIter.trans hcur
  have hnext := hafter.next
  rw [hcur] at hnext
  have hinv : Inv g direction source c := by
    constructor
    case currentState =>
      rw [hafter.current, hafter.state, hb]
      exact h.currentState.symm
    case graphState =>
      rw [hafter.graphState, hafter.state, hb]
      exact h.graphState.trans h.currentState.symm
    case current_le =>
      intro node
      rw [hafter.current, hccur, hb]
      exact (h.next_le node).imp_left Nat.le_succ_of_le
    case next_le =>
      intro node
      rw [hnext, hccur]
      split
      · exact .inl le_rfl
      · rw [hb]
        exact (h.current_le node).imp_left Nat.le_succ_of_le
    case next =>
      rw [hccur]
      intro hlt' node
      rw [hnext]
      split
      · next hv => exact iff_of_true rfl ((hreached node).mp hv)
      · next hv =>
        refine iff_of_false ?_ fun hw => hv ((hreached node).mpr hw)
        rw [hb]
        have hold := h.current_le node
        simp only [beginNewIteration]
        omega
    case active =>
      have hvisit : ∀ node, (g.hops direction).HasWalk source (s.frontierPair.curIter + 1) node → visits ≠ [] := by
        intro node hw hnil
        obtain ⟨visit, hv, -⟩ := (hreached node).mpr hw
        simp [hnil] at hv
      rw [hafter.active, hccur, hb]
      simp only [beginNewIteration, Bool.false_or, Bool.not_eq_true', isEmpty_eq_false_iff]
      constructor
      · intro hne
        obtain ⟨visit, hv⟩ := exists_mem_of_ne_nil _ hne
        exact ⟨visit.nbr, (hreached _).mp ⟨visit, hv, rfl⟩⟩
      · rintro ⟨node, hw⟩
        exact hvisit node hw
    case layers =>
      have hl := h.layers.append hnodup hmem
      have hparents : c.parents = fun node =>
          ((visits.filter (·.nbr = node)).map
            fun visit => (⟨visit.hop, s.frontierPair.curIter + 1⟩ : ParentEntry V E)).reverse ++ s.parents node := by
        funext node
        rw [hafter.parents, hb]
        rfl
      rw [hccur, hparents]
      exact hl
    case keys => exact hafter.keys (hb ▸ h.keys)
  have hiterate : s.iterate g direction schedule =
      if c.frontierPair.nextFrontier.state = .sparse ∧ schedule.needSwitchToDense c.frontierPair.curIter
      then c.switchToDense else c := by
    rw [hc, hvisits, hb]
    rfl
  rw [hiterate]
  split
  · next hswitch => exact ⟨hinv.switchToDense hswitch.1, hccur⟩
  · exact ⟨hinv, hccur⟩

/-- When the loop ends, the parents are those of all walks up to the upper bound. -/
theorem inv_runLoop {schedule : Schedule V E} {maxIter : Nat} (hmax : maxIter ≤ frontierUnvisited)
    {rounds : Nat} (h : Inv g direction source s) (hrounds : s.frontierPair.curIter + rounds = maxIter) :
    Inv g direction source (runLoop g direction schedule maxIter rounds s) ∧
      ParentLayers (g.hops direction) source maxIter (runLoop g direction schedule maxIter rounds s).parents := by
  induction rounds generalizing s with
  | zero => exact ⟨h, hrounds ▸ h.layers⟩
  | succ rounds ih =>
    rw [runLoop]
    cases hcont : s.frontierPair.continueNextIter maxIter with
    | true =>
      have hit := h.iterate schedule (by omega)
      exact ih hit.1 (by omega)
    | false =>
      have hno : s.frontierPair.hasActiveNodesForNextIter = false := by
        have hlt : s.frontierPair.curIter < maxIter := by omega
        simpa [continueNextIter, hlt] using hcont
      refine ⟨h, h.layers.of_not_hasWalk (fun node hw => ?_) (by omega)⟩
      have := h.active.mpr ⟨node, hw⟩
      simp [hno] at this

theorem run_inv (g : OnDiskGraph V E) (direction : ExtendDirection) (schedule : Schedule V E)
    (upperBound : UInt16) (source : V) :
    Inv g direction source (run g direction schedule upperBound source) ∧
      ParentLayers (g.hops direction) source upperBound.toNat
        (run g direction schedule upperBound source).parents := by
  refine inv_runLoop ?_ inv_initSource (zero_add _)
  have := upperBound.toNat_lt
  have : frontierUnvisited = 65535 := rfl
  omega

end VarLenState

end CycleJoin
