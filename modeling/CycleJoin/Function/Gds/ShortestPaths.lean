import CycleJoin.Function.Gds.Frontier
import CycleJoin.Lib.Distance

/-!
# The loop of unweighted shortest paths

`SPFrontierPair` and `SPEdgeCompute` of `function/gds/gds_frontier.cpp`, with the loop of
`GDSUtils::runRecursiveJoinEdgeCompute`. One frontier serves as the current and the next one: it gives
each node the iteration that visited it first. The four algorithms (one or all shortest paths, with paths
or only destinations) differ in an auxiliary state and in what a visit does to it.

An edge compute reads the frontier value of a neighbour before the nodes of its chunk are added, and
other threads add nodes at the same time. So a visit reads the value of the neighbour as it is, or as it
was when the iteration began, which the schedule decides.

* `SPState.run_spec`: when the loop ends, also early, the frontier holds the distances of the nodes in the
  output mask, and an invariant of the auxiliary state holds that each iteration keeps.
-/

namespace CycleJoin

open Finset

variable {V E A : Type} [DecidableEq V]

/-! ## The frontier -/

/-- `SPFrontierPair`: `curSparseFrontier` and `nextSparseFrontier`, and likewise the dense ones, are
references to one frontier. -/
structure SPFrontierPair (V : Type) where
  curIter : Nat
  hasActiveNodesForNextIter : Bool
  frontier : DensityMap V Nat

namespace SPFrontierPair

/-- `GDSComputeState::initSource`. -/
def initSource (source : V) : SPFrontierPair V where
  curIter := 0
  hasActiveNodesForNextIter := true
  frontier := (DensityMap.empty frontierUnvisited).set source 0

variable (p : SPFrontierPair V)

def continueNextIter (maxIter : Nat) : Bool :=
  p.hasActiveNodesForNextIter && p.curIter < maxIter

def beginNewIteration : SPFrontierPair V :=
  { p with curIter := p.curIter + 1, hasActiveNodesForNextIter := false }

def getNextFrontierValue (node : V) : Nat :=
  p.frontier.get frontierUnvisited node

def isActiveOnCurrentFrontier (node : V) : Bool :=
  p.getNextFrontierValue node = p.curIter - 1

/-- `addNodesToNextFrontier` for one node, with `setActiveNodesForNextIter`. -/
def addNodeToNextFrontier (node : V) : SPFrontierPair V :=
  { p with frontier := p.frontier.set node p.curIter, hasActiveNodesForNextIter := true }

def switchToDense : SPFrontierPair V :=
  { p with frontier := p.frontier.switchToDense frontierUnvisited }

def getNumActiveNodesInCurrentFrontier (mask : Finset V) : Nat :=
  (mask.filter fun node => p.isActiveOnCurrentFrontier node).card

end SPFrontierPair

/-! ## The loop -/

/-- A schedule that also says which visits of an iteration read the frontier as it was when the iteration
began. -/
structure SPSchedule (V E : Type) extends Schedule V E where
  stale : Nat → EdgeVisit V E → Bool

/-- What an algorithm adds to `SPEdgeCompute`: its auxiliary state, and what an edge compute does to it in
an iteration for a visit and the frontier value it has read. -/
structure SPAlgorithm (V E A : Type) where
  initSource : V → A
  beginFrontierCompute : A → A
  edgeCompute : Nat → Nat → EdgeVisit V E → A → A
  switchToDense : A → A

/-- The compute state. -/
structure SPState (V A : Type) where
  frontierPair : SPFrontierPair V
  auxiliaryState : A
  numNodesReached : Nat

/-- `EARLY_TERM_NUM_NODES_THRESHOLD`. -/
def earlyTermNumNodesThreshold : Nat := 100

namespace SPState

def value (s : SPState V A) : V → Nat := s.frontierPair.getNextFrontierValue

def initSource (alg : SPAlgorithm V E A) (source : V) : SPState V A where
  frontierPair := .initSource source
  auxiliaryState := alg.initSource source
  numNodesReached := 0

/-- An edge compute for one neighbour, in an iteration that began with the values `start`. All algorithms
add the neighbours that they find unvisited. -/
def edgeCompute (alg : SPAlgorithm V E A) (schedule : SPSchedule V E) (start : V → Nat)
    (s : SPState V A) (visit : EdgeVisit V E) : SPState V A :=
  let curIter := s.frontierPair.curIter
  let nbrVal := if schedule.stale curIter visit then start visit.nbr else s.value visit.nbr
  { s with
    frontierPair := if nbrVal = frontierUnvisited then s.frontierPair.addNodeToNextFrontier visit.nbr
      else s.frontierPair
    auxiliaryState := alg.edgeCompute curIter nbrVal visit s.auxiliaryState }

/-- `runOneIteration`. -/
def runOneIteration (g : OnDiskGraph V E) (direction : ExtendDirection) (alg : SPAlgorithm V E A)
    (schedule : SPSchedule V E) (s : SPState V A) : SPState V A :=
  let active := (g.visits direction).filter fun visit =>
    s.frontierPair.isActiveOnCurrentFrontier visit.hop.node
  (schedule.order s.frontierPair.curIter active).foldl (edgeCompute alg schedule s.value)
    { s with auxiliaryState := alg.beginFrontierCompute s.auxiliaryState }

/-- `GDSComputeState::switchToDense`. -/
def switchToDense (alg : SPAlgorithm V E A) (s : SPState V A) : SPState V A :=
  { s with
    frontierPair := s.frontierPair.switchToDense
    auxiliaryState := alg.switchToDense s.auxiliaryState }

/-- An iteration that has begun. -/
def iterate (g : OnDiskGraph V E) (direction : ExtendDirection) (alg : SPAlgorithm V E A)
    (schedule : SPSchedule V E) (s : SPState V A) : SPState V A :=
  let s := runOneIteration g direction alg schedule s
  if s.frontierPair.frontier.state = .sparse ∧ schedule.needSwitchToDense s.frontierPair.curIter then
    s.switchToDense alg
  else s

/-- `SPEdgeCompute::terminate`: the state and the answer. Without a mask it is not called. -/
def terminate (outputNodeMask : Option (Finset V)) (s : SPState V A) : SPState V A × Bool :=
  match outputNodeMask with
  | none => (s, false)
  | some mask =>
    if earlyTermNumNodesThreshold < mask.card then (s, false)
    else
      let numNodesReached :=
        s.numNodesReached + s.frontierPair.getNumActiveNodesInCurrentFrontier mask
      ({ s with numNodesReached }, numNodesReached = mask.card)

def beginNewIteration (s : SPState V A) : SPState V A :=
  { s with frontierPair := s.frontierPair.beginNewIteration }

/-- The loop. It makes at most `maxIter` iterations, so `maxIter` rounds are enough. -/
def runLoop (g : OnDiskGraph V E) (direction : ExtendDirection) (alg : SPAlgorithm V E A)
    (schedule : SPSchedule V E) (outputNodeMask : Option (Finset V)) (maxIter : Nat) :
    Nat → SPState V A → SPState V A
  | 0, s => s
  | rounds + 1, s =>
    if s.frontierPair.continueNextIter maxIter then
      let checked := s.beginNewIteration.terminate outputNodeMask
      if checked.2 then checked.1
      else runLoop g direction alg schedule outputNodeMask maxIter rounds
        (checked.1.iterate g direction alg schedule)
    else s

/-- `runRecursiveJoinEdgeCompute` from a source. -/
def run (g : OnDiskGraph V E) (direction : ExtendDirection) (alg : SPAlgorithm V E A)
    (schedule : SPSchedule V E) (outputNodeMask : Option (Finset V)) (upperBound : UInt16)
    (source : V) : SPState V A :=
  runLoop g direction alg schedule outputNodeMask upperBound.toNat upperBound.toNat
    (initSource alg source)

end SPState

/-! ## Levels -/

/-- The frontier value of a node after `n` iterations. -/
def Visited (G : HopGraph V (Hop V E)) (source : V) (n : Nat) (node : V) (value : Nat) : Prop :=
  (value = frontierUnvisited ∧ ∀ k ≤ n, ¬ G.IsDist source k node) ∨
    ∃ k ≤ n, G.IsDist source k node ∧ value = k

section Visited

variable {G : HopGraph V (Hop V E)} {source node : V} {n value : Nat}

omit [DecidableEq V]

variable (h : Visited G source n node value)
include h

theorem Visited.eq_iff {k : Nat} (hk : k ≤ n) (hlt : k < frontierUnvisited) : value = k ↔ G.IsDist source k node := by
  obtain ⟨rfl, hfar⟩ | ⟨j, hj, hdist, rfl⟩ := h
  · exact iff_of_false (by omega) (hfar k hk)
  · constructor
    · rintro rfl
      exact hdist
    · exact hdist.unique

theorem Visited.eq_unvisited_iff (hn : n < frontierUnvisited) :
    value = frontierUnvisited ↔ ∀ k ≤ n, ¬ G.IsDist source k node := by
  obtain ⟨rfl, hfar⟩ | ⟨j, hj, hdist, rfl⟩ := h
  · exact iff_of_true rfl hfar
  · exact iff_of_false (by omega) fun hfar => hfar value hj hdist

/-- A value that is written out is the distance. -/
theorem Visited.isDist_iff {k : Nat} : (value = k ∧ k ≠ frontierUnvisited) ↔
      (k ≤ n ∧ k ≠ frontierUnvisited ∧ G.IsDist source k node) := by
  obtain ⟨rfl, hfar⟩ | ⟨j, hj, hdist, rfl⟩ := h
  · exact iff_of_false (fun h => h.2 h.1.symm) fun h => hfar k h.1 h.2.2
  · constructor
    · rintro ⟨rfl, hne⟩
      exact ⟨hj, hne, hdist⟩
    · rintro ⟨-, hne, hk⟩
      exact ⟨hdist.unique hk, hne⟩

end Visited

/-! ## The visits of an iteration -/

/-- The auxiliary state after visits in an iteration that began with the values `start`. A visit reads the
value of its neighbour at the beginning, or the one after the visits before it. -/
inductive AuxSteps (alg : SPAlgorithm V E A) (iter : Nat) (start : V → Nat) (a : A) :
    List (EdgeVisit V E) → A → Prop
  | nil : AuxSteps alg iter start a [] a
  | snoc {visits : List (EdgeVisit V E)} {a' : A} (visit : EdgeVisit V E) (nbrVal : Nat) :
      AuxSteps alg iter start a visits a' →
      (nbrVal = start visit.nbr ∨ nbrVal = iter ∧ start visit.nbr = frontierUnvisited ∧
        ∃ visit' ∈ visits, visit'.nbr = visit.nbr) →
      AuxSteps alg iter start a (visits ++ [visit]) (alg.edgeCompute iter nbrVal visit a')

namespace SPState

variable {alg : SPAlgorithm V E A} {schedule : SPSchedule V E}

/-- A sequence of edge computes from a state at the beginning of an iteration. -/
structure AfterVisits (alg : SPAlgorithm V E A) (s : SPState V A) (visits : List (EdgeVisit V E))
    (s' : SPState V A) : Prop where
  curIter : s'.frontierPair.curIter = s.frontierPair.curIter
  reached : s'.numNodesReached = s.numNodesReached
  state : s'.frontierPair.frontier.state = s.frontierPair.frontier.state
  active : s'.frontierPair.hasActiveNodesForNextIter = true ↔
    s.frontierPair.hasActiveNodesForNextIter = true ∨
      ∃ visit ∈ visits, s.value visit.nbr = frontierUnvisited
  value : ∀ node, s'.value node =
    if s.value node = frontierUnvisited ∧ ∃ visit ∈ visits, visit.nbr = node
    then s.frontierPair.curIter else s.value node
  aux : AuxSteps alg s.frontierPair.curIter s.value s.auxiliaryState visits s'.auxiliaryState

theorem afterVisits_snoc {s s' : SPState V A} {visits : List (EdgeVisit V E)}
    (h : AfterVisits alg s visits s') (visit : EdgeVisit V E) :
    AfterVisits alg s (visits ++ [visit]) (s'.edgeCompute alg schedule s.value visit) := by
  obtain ⟨nbrVal, hnbr⟩ : ∃ nbrVal, nbrVal =
      if schedule.stale s'.frontierPair.curIter visit then s.value visit.nbr else s'.value visit.nbr :=
    ⟨_, rfl⟩
  -- What is read: the value at the beginning, or that of an earlier visit.
  have hread : nbrVal = s.value visit.nbr ∨ nbrVal = s.frontierPair.curIter ∧
      s.value visit.nbr = frontierUnvisited ∧ ∃ visit' ∈ visits, visit'.nbr = visit.nbr := by
    rw [h.value] at hnbr
    split at hnbr
    · exact .inl hnbr
    · split at hnbr
      · next hold => exact .inr ⟨hnbr, hold⟩
      · exact .inl hnbr
  have hunvisited : nbrVal = frontierUnvisited → s.value visit.nbr = frontierUnvisited := by
    rintro rfl
    obtain heq | heq := hread
    · exact heq.symm
    · exact heq.2.1
  have hstep : s'.edgeCompute alg schedule s.value visit = { s' with
        frontierPair := if nbrVal = frontierUnvisited then
            s'.frontierPair.addNodeToNextFrontier visit.nbr else s'.frontierPair
        auxiliaryState := alg.edgeCompute s'.frontierPair.curIter nbrVal visit s'.auxiliaryState } := by
    rw [hnbr]
    rfl
  rw [hstep]
  constructor
  case reached => exact h.reached
  case curIter => split <;> exact h.curIter
  case state =>
    simp only [SPFrontierPair.addNodeToNextFrontier]
    split
    · rw [DensityMap.state_set, h.state]
    · exact h.state
  case active =>
    simp only [List.mem_append, List.mem_singleton, or_and_right, exists_or, exists_eq_left]
    rw [← or_assoc, ← h.active]
    by_cases hn : nbrVal = frontierUnvisited
    · simp [hn, hunvisited hn, SPFrontierPair.addNodeToNextFrontier]
    · rw [if_neg hn]
      refine (or_iff_left_of_imp fun hstart => ?_).symm
      -- The neighbour was unvisited and is not read so: an earlier visit has added it.
      obtain heq | ⟨-, -, visit', hv, hsame⟩ := hread
      · exact absurd (heq.trans hstart) hn
      · exact h.active.mpr (.inr ⟨visit', hv, hsame ▸ hstart⟩)
  case value =>
    intro node
    have hvalue : value { s' with
          frontierPair := if nbrVal = frontierUnvisited then
              s'.frontierPair.addNodeToNextFrontier visit.nbr else s'.frontierPair
          auxiliaryState := alg.edgeCompute s'.frontierPair.curIter nbrVal visit s'.auxiliaryState }
        node = if nbrVal = frontierUnvisited ∧ node = visit.nbr then s.frontierPair.curIter else s'.value node := by
      by_cases hn : nbrVal = frontierUnvisited
      · simp [value, hn, SPFrontierPair.getNextFrontierValue,
          SPFrontierPair.addNodeToNextFrontier, DensityMap.get_set, h.curIter]
      · simp [value, hn]
    rw [hvalue]
    split
    · next hnew =>
      obtain ⟨hn, rfl⟩ := hnew
      exact (if_pos ⟨hunvisited hn, visit, by simp, rfl⟩).symm
    · next hold =>
      rw [h.value]
      by_cases hstart : s.value node = frontierUnvisited ∧ ∃ visit' ∈ visits, visit'.nbr = node
      · obtain ⟨hu, visit', hv, hn⟩ := hstart
        rw [if_pos ⟨hu, visit', hv, hn⟩, if_pos ⟨hu, visit', List.mem_append_left _ hv, hn⟩]
      · rw [if_neg hstart, if_neg]
        rintro ⟨hu, visit', hv, rfl⟩
        obtain hv | hv := List.mem_append.mp hv
        · exact hstart ⟨hu, visit', hv, rfl⟩
        · obtain rfl := List.mem_singleton.mp hv
          obtain heq | ⟨-, -, hearlier⟩ := hread
          · exact hold ⟨heq.trans hu, rfl⟩
          · exact hstart ⟨hu, hearlier⟩
  case aux =>
    rw [h.curIter]
    exact .snoc visit nbrVal h.aux hread

theorem afterVisits_foldl (s : SPState V A) (visits : List (EdgeVisit V E)) :
    AfterVisits alg s visits (visits.foldl (edgeCompute alg schedule s.value) s) := by
  induction visits using List.reverseRecOn with
  | nil => exact ⟨rfl, rfl, rfl, by simp, by simp, .nil⟩
  | append_singleton visits visit ih =>
    rw [List.foldl_append]
    exact afterVisits_snoc ih visit

end SPState

/-! ## Iterations -/

/-- The visits of an iteration: the hops from the nodes at distance `n`, once each. -/
structure LevelVisits (G : HopGraph V (Hop V E)) (source : V) (n : Nat) (visits : List (EdgeVisit V E)) :
    Prop where
  nodup : visits.Nodup
  mem : ∀ {visit}, visit ∈ visits ↔
    G.enters visit.hop visit.nbr ∧ G.IsDist source n (G.origin visit.hop)

/-- An invariant of the auxiliary state after `n` iterations, in the sparse or the dense state. -/
structure AuxInvariant (alg : SPAlgorithm V E A) (G : HopGraph V (Hop V E)) (source : V)
    (I : GDSDensityState → Nat → A → Prop) : Prop where
  init : I .sparse 0 (alg.initSource source)
  step : ∀ {state n a start visits a'}, n < frontierUnvisited → I state n a →
    (∀ node, Visited G source n node (start node)) → LevelVisits G source n visits →
    AuxSteps alg (n + 1) start (alg.beginFrontierCompute a) visits a' → I state (n + 1) a'
  switch : ∀ {n a}, I .sparse n a → I .dense n (alg.switchToDense a)

omit [DecidableEq V] in
/-- The nodes that an iteration finds are those at the next distance. -/
theorem LevelVisits.isDist_succ {G : HopGraph V (Hop V E)} {source node : V} {n : Nat}
    {visits : List (EdgeVisit V E)} (h : LevelVisits G source n visits) :
    G.IsDist source (n + 1) node ↔ (∃ visit ∈ visits, visit.nbr = node) ∧ ∀ k ≤ n, ¬ G.IsDist source k node := by
  rw [HopGraph.isDist_succ]
  refine and_congr_left fun _ => ⟨?_, ?_⟩
  · rintro ⟨hop, hop'⟩
    exact ⟨⟨hop, node⟩, h.mem.mpr hop', rfl⟩
  · rintro ⟨visit, hv, rfl⟩
    exact ⟨visit.hop, h.mem.mp hv⟩

namespace SPState

variable {g : OnDiskGraph V E} {direction : ExtendDirection} {alg : SPAlgorithm V E A} {source : V}
  {I : GDSDensityState → Nat → A → Prop} {outputNodeMask : Option (Finset V)} {s : SPState V A}

/-- What holds between iterations. -/
structure Inv (G : HopGraph V (Hop V E)) (source : V) (I : GDSDensityState → Nat → A → Prop)
    (outputNodeMask : Option (Finset V)) (s : SPState V A) : Prop where
  value : ∀ node, Visited G source s.frontierPair.curIter node (s.value node)
  active : s.frontierPair.hasActiveNodesForNextIter = true ↔
    ∃ node, G.IsDist source s.frontierPair.curIter node
  aux : I s.frontierPair.frontier.state s.frontierPair.curIter s.auxiliaryState
  reached : ∀ mask, outputNodeMask = some mask → mask.card ≤ earlyTermNumNodesThreshold →
    s.numNodesReached = (mask.filter fun node => s.value node < s.frontierPair.curIter).card

variable {G : HopGraph V (Hop V E)}

theorem inv_initSource (haux : AuxInvariant alg G source I) (outputNodeMask : Option (Finset V)) :
    Inv G source I outputNodeMask (initSource alg source) where
  value := fun node => by
    simp only [value, initSource, SPFrontierPair.getNextFrontierValue, SPFrontierPair.initSource, DensityMap.get_set]
    split
    · next hn => exact .inr ⟨0, Nat.le_refl 0, HopGraph.isDist_zero.mpr hn, rfl⟩
    · next hn => exact .inl ⟨rfl, fun k hk hd => hn (by simpa [Nat.le_zero.mp hk] using hd)⟩
  active := by simp [initSource, SPFrontierPair.initSource]
  aux := haux.init
  reached := fun mask _ _ => by simp [initSource, SPFrontierPair.initSource]

omit [DecidableEq V] in
/-- `terminate` counts the nodes of a small mask that the iterations so far have visited. -/
theorem terminate_spec (s : SPState V A) (outputNodeMask : Option (Finset V)) :
    (s.terminate outputNodeMask).1.frontierPair = s.frontierPair ∧
      (s.terminate outputNodeMask).1.auxiliaryState = s.auxiliaryState ∧
      (∀ mask, outputNodeMask = some mask → mask.card ≤ earlyTermNumNodesThreshold →
        (s.terminate outputNodeMask).1.numNodesReached = s.numNodesReached +
          s.frontierPair.getNumActiveNodesInCurrentFrontier mask) ∧
      ((s.terminate outputNodeMask).2 = true ↔ ∃ mask, outputNodeMask = some mask ∧
        mask.card ≤ earlyTermNumNodesThreshold ∧ s.numNodesReached +
          s.frontierPair.getNumActiveNodesInCurrentFrontier mask = mask.card) := by
  unfold terminate
  cases outputNodeMask with
  | none => simp
  | some mask =>
    by_cases hcard : earlyTermNumNodesThreshold < mask.card
    · simp [hcard]
    · simp [hcard, not_lt.mp hcard]

/-- After the check, the count is that of the nodes of the mask within the distance reached. -/
theorem Inv.reached_terminate (h : Inv G source I outputNodeMask s)
    {mask : Finset V} (hmask : outputNodeMask = some mask)
    (hcard : mask.card ≤ earlyTermNumNodesThreshold) :
    s.numNodesReached + s.beginNewIteration.frontierPair.getNumActiveNodesInCurrentFrontier mask =
      (mask.filter fun node => s.value node < s.frontierPair.curIter + 1).card := by
  rw [h.reached mask hmask hcard, SPFrontierPair.getNumActiveNodesInCurrentFrontier, ← card_union_of_disjoint]
  · congr 1
    ext node
    have hactive : s.beginNewIteration.frontierPair.isActiveOnCurrentFrontier node = true ↔
        s.value node = s.frontierPair.curIter := decide_eq_true_iff
    simp only [Finset.mem_union, Finset.mem_filter, hactive, Nat.lt_succ_iff_lt_or_eq, and_or_left]
  · refine disjoint_filter.mpr fun node _ hlt hactive => ?_
    have hvalue : s.value node = s.frontierPair.curIter := of_decide_eq_true hactive
    omega

/-- Before the first iteration the check stops if the mask has no node but the source. -/
theorem Inv.reached_zero (h : Inv G source I outputNodeMask s)
    (hzero : s.frontierPair.curIter = 0) {mask : Finset V} (hmask : outputNodeMask = some mask)
    (hcard : mask.card ≤ earlyTermNumNodesThreshold) :
    s.numNodesReached + s.beginNewIteration.frontierPair.getNumActiveNodesInCurrentFrontier mask =
      mask.card ↔ mask ⊆ {source} := by
  have hvalue : ∀ node, s.value node < s.frontierPair.curIter + 1 ↔ node = source := by
    intro node
    have heq := (h.value node).eq_iff (Nat.zero_le _) (by decide : 0 < frontierUnvisited)
    rw [HopGraph.isDist_zero] at heq
    rw [← heq]
    omega
  rw [h.reached_terminate hmask hcard]
  simp only [hvalue]
  constructor
  · intro heq node hnode
    have hfilter := eq_of_subset_of_card_le (filter_subset _ _) heq.ge
    exact mem_singleton.mpr (filter_eq_self.mp hfilter node hnode)
  · intro hsub
    rw [filter_eq_self.mpr fun node hnode => mem_singleton.mp (hsub hnode)]

theorem Inv.iterate (haux : AuxInvariant alg (g.hops direction) source I)
    (h : Inv (g.hops direction) source I outputNodeMask s) (schedule : SPSchedule V E)
    (hlt : s.frontierPair.curIter < frontierUnvisited) :
    let s' := (s.beginNewIteration.terminate outputNodeMask).1.iterate g direction alg schedule
    Inv (g.hops direction) source I outputNodeMask s' ∧ s'.frontierPair.curIter = s.frontierPair.curIter + 1 := by
  intro s'
  obtain ⟨c, hc⟩ : ∃ c, c = (s.beginNewIteration.terminate outputNodeMask).1 := ⟨_, rfl⟩
  obtain ⟨hpair, hstate, hreached, -⟩ := terminate_spec s.beginNewIteration outputNodeMask
  rw [← hc] at hpair hstate hreached
  have hcur : c.frontierPair.curIter = s.frontierPair.curIter + 1 := by rw [hpair]; rfl
  have hval : c.value = s.value := by rw [SPState.value, hpair]; rfl
  -- The visits are those of the nodes at the distance reached.
  obtain ⟨visits, hvisits⟩ : ∃ visits, visits = schedule.order c.frontierPair.curIter
      ((g.visits direction).filter fun visit =>
        c.frontierPair.isActiveOnCurrentFrontier visit.hop.node) := ⟨_, rfl⟩
  have hlevel : LevelVisits (g.hops direction) source s.frontierPair.curIter visits := by
    have hperm := schedule.order_perm c.frontierPair.curIter ((g.visits direction).filter fun visit =>
      c.frontierPair.isActiveOnCurrentFrontier visit.hop.node)
    rw [← hvisits] at hperm
    refine ⟨hperm.nodup_iff.mpr ((g.visits_nodup direction).filter _), fun {visit} => ?_⟩
    have hactive : c.frontierPair.isActiveOnCurrentFrontier visit.hop.node = true ↔
        c.value visit.hop.node = c.frontierPair.curIter - 1 := decide_eq_true_iff
    rw [hperm.mem_iff, List.mem_filter, hactive, hval, hcur, Nat.add_sub_cancel, (h.value _).eq_iff le_rfl hlt]
    rfl
  obtain ⟨b, hb⟩ : ∃ b : SPState V A,
      b = { c with auxiliaryState := alg.beginFrontierCompute c.auxiliaryState } := ⟨_, rfl⟩
  obtain ⟨d, hd⟩ : ∃ d, d = visits.foldl (edgeCompute alg schedule b.value) b := ⟨_, rfl⟩
  have hafter : AfterVisits alg b visits d := hd ▸ afterVisits_foldl b visits
  have hbpair : b.frontierPair = c.frontierPair := by rw [hb]
  have hbval : b.value = s.value := by rw [← hval, SPState.value, hbpair]; rfl
  have hdcur : d.frontierPair.curIter = s.frontierPair.curIter + 1 := by
    rw [hafter.curIter, hbpair, hcur]
  have hdval := hafter.value
  rw [hbval, hbpair, hcur] at hdval
  have hinv : Inv (g.hops direction) source I outputNodeMask d := by
    constructor
    case value =>
      intro node
      rw [hdcur, hdval]
      obtain ⟨hu, hfar⟩ | ⟨k, hk, hdist, hv⟩ := h.value node
      · by_cases hvisit : ∃ visit ∈ visits, visit.nbr = node
        · rw [if_pos ⟨hu, hvisit⟩]
          exact .inr ⟨_, le_rfl, hlevel.isDist_succ.mpr ⟨hvisit, hfar⟩, rfl⟩
        · rw [if_neg fun hs => hvisit hs.2]
          refine .inl ⟨hu, fun k hk hdist => ?_⟩
          obtain rfl | hk := Nat.eq_or_lt_of_le hk
          · exact hvisit (hlevel.isDist_succ.mp hdist).1
          · exact hfar k (by omega) hdist
      · rw [if_neg fun hs => by omega]
        exact .inr ⟨k, by omega, hdist, hv⟩
    case active =>
      rw [hafter.active, hdcur, hbpair, hpair, hbval]
      have hfalse : s.beginNewIteration.frontierPair.hasActiveNodesForNextIter = false := rfl
      simp only [hfalse, Bool.false_eq_true, false_or, hlevel.isDist_succ]
      constructor
      · rintro ⟨visit, hv, hu⟩
        exact ⟨visit.nbr, ⟨visit, hv, rfl⟩, ((h.value _).eq_unvisited_iff hlt).mp hu⟩
      · rintro ⟨node, ⟨visit, hv, rfl⟩, hfar⟩
        exact ⟨visit, hv, ((h.value _).eq_unvisited_iff hlt).mpr hfar⟩
    case aux =>
      have hsteps := hafter.aux
      rw [hbval, hbpair, hcur, hb] at hsteps
      rw [hafter.state, hdcur, hbpair, hpair]
      exact haux.step hlt h.aux h.value hlevel (hstate ▸ hsteps)
    case reached =>
      intro mask hmask hcard
      have hcount := h.reached_terminate hmask hcard
      have hbreached : b.numNodesReached = c.numNodesReached := by rw [hb]
      rw [hafter.reached, hbreached, hreached mask hmask hcard]
      refine hcount.trans (congrArg card (filter_congr fun node _ => ?_))
      rw [hdcur, hdval]
      split
      · next hu => omega
      · rfl
  have hiterate : s' = if d.frontierPair.frontier.state = .sparse ∧
      schedule.needSwitchToDense d.frontierPair.curIter then d.switchToDense alg else d := by
    rw [hd, hb, hvisits, hc]
    rfl
  rw [hiterate]
  split
  · next hswitch =>
    have hsame : (d.switchToDense alg).value = d.value := funext (DensityMap.get_switchToDense hswitch.1)
    refine ⟨⟨?_, hinv.active, ?_, ?_⟩, hdcur⟩
    · rw [hsame]
      exact hinv.value
    · exact haux.switch (hswitch.1 ▸ hinv.aux)
    · rw [hsame]
      exact hinv.reached
  · exact ⟨hinv, hdcur⟩

/-! ## The whole run -/

/-- The end of a run that has made `n` iterations: there is nothing more to find within the bound, or in
the mask. -/
structure Ended (G : HopGraph V (Hop V E)) (source : V) (I : GDSDensityState → Nat → A → Prop)
    (outputNodeMask : Option (Finset V)) (maxIter n : Nat) (s : SPState V A) : Prop where
  value : ∀ node, Visited G source n node (s.value node)
  aux : I s.frontierPair.frontier.state n s.auxiliaryState
  found : ∀ node, (∀ mask, outputNodeMask = some mask → node ∈ mask) → ∀ k ≤ maxIter,
    G.IsDist source k node → k ≤ n

/-- A check that stops has found all nodes of the mask. -/
theorem Inv.ended_terminate (h : Inv G source I outputNodeMask s)
    (hlt : s.frontierPair.curIter < frontierUnvisited) {maxIter : Nat}
    (hstop : (s.beginNewIteration.terminate outputNodeMask).2 = true) :
    Ended G source I outputNodeMask maxIter s.frontierPair.curIter
      (s.beginNewIteration.terminate outputNodeMask).1 := by
  obtain ⟨hpair, hstate, -, hiff⟩ := terminate_spec s.beginNewIteration outputNodeMask
  obtain ⟨mask, hmask, hcard, hall⟩ := hiff.mp hstop
  have hval : (s.beginNewIteration.terminate outputNodeMask).1.value = s.value := by
    rw [SPState.value, hpair]
    rfl
  have hfilter : (mask.filter fun node => s.value node < s.frontierPair.curIter + 1) = mask :=
    eq_of_subset_of_card_le (filter_subset _ _) (((h.reached_terminate hmask hcard).symm.trans hall).ge)
  constructor
  case value =>
    rw [hval]
    exact h.value
  case aux =>
    rw [hpair, hstate]
    exact h.aux
  case found =>
    intro node hin k _ hdist
    have hvalue := (filter_eq_self.mp hfilter) node (hin mask hmask)
    have hnode := ((h.value node).eq_iff (k := s.value node) (by omega) (by omega)).mp rfl
    have := hdist.unique hnode
    omega

variable (haux : AuxInvariant alg (g.hops direction) source I) (schedule : SPSchedule V E)
include haux

theorem runLoop_spec {maxIter : Nat} (hmax : maxIter ≤ frontierUnvisited) (rounds : Nat)
    (h : Inv (g.hops direction) source I outputNodeMask s)
    (hrounds : s.frontierPair.curIter + rounds = maxIter) :
    ∃ n, s.frontierPair.curIter ≤ n ∧ n ≤ maxIter ∧ Ended (g.hops direction) source I outputNodeMask maxIter n
        (runLoop g direction alg schedule outputNodeMask maxIter rounds s) := by
  induction rounds generalizing s with
  | zero => exact ⟨s.frontierPair.curIter, le_rfl, by omega, h.value, h.aux, by omega⟩
  | succ rounds ih =>
    have hlt : s.frontierPair.curIter < maxIter := by omega
    rw [runLoop]
    cases hcont : s.frontierPair.continueNextIter maxIter with
    | false =>
      refine ⟨s.frontierPair.curIter, le_rfl, by omega, h.value, h.aux, fun node _ k _ hdist => ?_⟩
      have hno : s.frontierPair.hasActiveNodesForNextIter = false := by
        simpa [SPFrontierPair.continueNextIter, hlt] using hcont
      by_contra hgt
      have := h.active.mpr (hdist.exists_of_le (by omega))
      simp [hno] at this
    | true =>
      simp only [if_true]
      split
      · next hstop =>
        exact ⟨s.frontierPair.curIter, le_rfl, by omega, h.ended_terminate (by omega) hstop⟩
      · obtain ⟨hinv, hcur⟩ := h.iterate haux schedule (by omega)
        obtain ⟨n, hle, hn⟩ := ih hinv (by omega)
        exact ⟨n, by omega, hn⟩

/-- When the loop ends, the frontier holds the distances of the nodes in the mask. No iteration is made if
the bound is zero, or if the mask has no node but the source. -/
theorem run_spec (outputNodeMask : Option (Finset V)) (upperBound : UInt16) :
    ∃ n ≤ upperBound.toNat, Ended (g.hops direction) source I outputNodeMask upperBound.toNat n
        (run g direction alg schedule outputNodeMask upperBound source) ∧
      (n = 0 ↔ upperBound = 0 ∨ ∃ mask, outputNodeMask = some mask ∧ mask ⊆ {source}) := by
  have hmax : upperBound.toNat ≤ frontierUnvisited := by
    have := upperBound.toNat_lt
    have : frontierUnvisited = 65535 := rfl
    omega
  have hinv := inv_initSource haux outputNodeMask
  have hzero : (initSource alg source : SPState V A).frontierPair.curIter = 0 := rfl
  have hlt : (initSource alg source : SPState V A).frontierPair.curIter < frontierUnvisited := by
    rw [hzero]
    decide
  -- The check before the first iteration: the frontier has only the source.
  have hstop : ((initSource alg source).beginNewIteration.terminate outputNodeMask).2 = true ↔
      ∃ mask, outputNodeMask = some mask ∧ mask ⊆ {source} := by
    rw [(terminate_spec _ _).2.2.2]
    refine exists_congr fun mask => and_congr_right fun hmask => ?_
    constructor
    · rintro ⟨hcard, hall⟩
      exact (hinv.reached_zero hzero hmask hcard).mp hall
    · intro hsub
      have hone := card_le_card hsub
      rw [card_singleton] at hone
      have hcard : mask.card ≤ earlyTermNumNodesThreshold := hone.trans (by decide)
      exact ⟨hcard, (hinv.reached_zero hzero hmask hcard).mpr hsub⟩
  rw [← UInt16.toNat_inj, run]
  cases hupper : upperBound.toNat with
  | zero => exact ⟨0, Nat.le_refl 0, ⟨hinv.value, hinv.aux, fun _ _ _ hk _ => hk⟩, by simp⟩
  | succ rounds =>
    have hcont : (initSource alg source).frontierPair.continueNextIter (rounds + 1) = true := rfl
    rw [runLoop, hcont]
    simp only [if_true]
    split
    · next hs =>
      exact ⟨0, Nat.zero_le _, hinv.ended_terminate hlt hs, iff_of_true rfl (.inr (hstop.mp hs))⟩
    · next hs =>
      obtain ⟨hnext, hcur⟩ := hinv.iterate haux schedule hlt
      obtain ⟨n, hle, hn, hended⟩ := runLoop_spec haux schedule (hupper ▸ hmax) rounds hnext (by omega)
      refine ⟨n, hn, hended, iff_of_false (by omega) ?_⟩
      rintro (h0 | hmask)
      · cases h0
      · exact hs (hstop.mpr hmask)

end SPState

end CycleJoin
