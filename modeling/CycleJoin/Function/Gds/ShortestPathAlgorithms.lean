import CycleJoin.Function.Gds.PathSemantics
import CycleJoin.Function.Gds.ShortestPaths

/-!
# The four algorithms of unweighted shortest paths

`ssp_destinations.cpp`, `asp_destinations.cpp`, `ssp_paths.cpp` and `asp_paths.cpp` of `function/gds`: one
or all shortest paths, and only the destinations or the paths too. For each one the auxiliary state, the
output, and what holds of the auxiliary state after `n` iterations:

* multiplicities are the numbers of shortest walks modulo `2 ^ 64` (`aspDestinations_invariant`);
* the parents of all shortest paths are the last hops of the shortest walks (`aspPaths_invariant`);
* for one shortest path a node has one of them (`sspPaths_invariant`).
-/

namespace CycleJoin

open DensityMap List HopGraph

variable {V E : Type} [DecidableEq V]

/-! ## Destinations -/

/-- `SSPDestinationsEdgeCompute`, with an `EmptyGDSAuxiliaryState`. -/
def sspDestinations : SPAlgorithm V E Unit where
  initSource := fun _ => ()
  beginFrontierCompute := id
  edgeCompute := fun _ _ _ => id
  switchToDense := id

/-- `MultiplicitiesPair`. The current and the next multiplicities are references to the same objects.
`curMultiplicities` is `nullptr` until a frontier task pins a table; then it is the sparse or the dense
reference. -/
structure MultiplicitiesPair (V : Type) where
  multiplicities : DensityMap V UInt64
  curMultiplicities : Option GDSDensityState

namespace MultiplicitiesPair

variable (p : MultiplicitiesPair V)

def increaseNextMultiplicity (node : V) (multiplicity : UInt64) : MultiplicitiesPair V :=
  { p with multiplicities := p.multiplicities.set node (p.multiplicities.get 0 node + multiplicity) }

/-- `getCurrentMultiplicity`, after a task has pinned a table. -/
def getCurrentMultiplicity (node : V) : UInt64 :=
  p.multiplicities.get 0 node

def pinCurTableID : MultiplicitiesPair V :=
  { p with curMultiplicities := some p.multiplicities.state }

/-- `getCurrentMultiplicities`: what the pointer gives. -/
def getCurrentMultiplicities : Option (V → UInt64) :=
  p.curMultiplicities.map fun
    | .sparse => fun node => (p.multiplicities.sparse node).getD 0
    | .dense => p.multiplicities.dense

end MultiplicitiesPair

/-- `ASPDestinationsEdgeCompute` and `ASPDestinationsAuxiliaryState`. -/
def aspDestinations : SPAlgorithm V E (MultiplicitiesPair V) where
  initSource := fun source => (⟨.empty 0, none⟩ : MultiplicitiesPair V).increaseNextMultiplicity source 1
  beginFrontierCompute := MultiplicitiesPair.pinCurTableID
  edgeCompute := fun curIter nbrVal visit p =>
    if nbrVal = frontierUnvisited ∨ nbrVal = curIter then
      p.increaseNextMultiplicity visit.nbr (p.getCurrentMultiplicity visit.hop.node)
    else p
  switchToDense := fun p => { p with multiplicities := p.multiplicities.switchToDense 0 }

/-! ## Paths -/

/-- `addSingleParent` of `SparseBFSGraph` and `DenseBFSGraph`. -/
def addSingleParent (bfsGraph : DensityMap V (ParentList V E)) (iter : Nat) (visit : EdgeVisit V E) :
    DensityMap V (ParentList V E) :=
  match bfsGraph.get [] visit.nbr with
  | [] => bfsGraph.set visit.nbr [⟨visit.hop, iter⟩]
  | _ :: _ => bfsGraph

/-- `SSPPathsEdgeCompute`, with a `PathAuxiliaryState`. -/
def sspPaths : SPAlgorithm V E (DensityMap V (ParentList V E)) where
  initSource := fun _ => .empty []
  beginFrontierCompute := id
  edgeCompute := fun curIter nbrVal visit bfsGraph =>
    if nbrVal = frontierUnvisited then addSingleParent bfsGraph curIter visit else bfsGraph
  switchToDense := switchToDense []

/-- `ASPPathsEdgeCompute`, with a `PathAuxiliaryState`. -/
def aspPaths : SPAlgorithm V E (DensityMap V (ParentList V E)) where
  initSource := fun _ => .empty []
  beginFrontierCompute := id
  edgeCompute := fun curIter nbrVal visit bfsGraph =>
    if nbrVal = frontierUnvisited ∨ nbrVal = curIter then addParent bfsGraph curIter visit else bfsGraph
  switchToDense := switchToDense []

/-! ## The output -/

/-- A row of the algorithms without paths: the source is the same for all. -/
structure DestinationRow (V : Type) where
  dst : V
  length : Nat
  deriving DecidableEq, Repr

/-- `RJOutputWriter::inOutputNodeMask`. -/
def inOutputNodeMask (outputNodeMask : Option (Finset V)) (node : V) : Bool :=
  match outputNodeMask with
  | none => true
  | some mask => node ∈ mask

/-- The nodes of the output tables that are written: those in the hash map, or all. -/
def SPFrontierPair.destinations (schedule : Schedule V E) (nodes : List V) (p : SPFrontierPair V) :
    List V :=
  match p.frontier.state with
  | .sparse => schedule.mapOrder (nodes.filter fun node => (p.frontier.sparse node).isSome)
  | .dense => schedule.mapOrder nodes

/-- The row of a destination: none for the source, and for a node that is not visited. -/
def SPFrontierPair.destinationRow (p : SPFrontierPair V) (source dst : V) : Option (DestinationRow V) :=
  if dst = source then none
  else
    let iter := p.getNextFrontierValue dst
    if iter = frontierUnvisited then none else some ⟨dst, iter⟩

/-- `SingleSPDestinationsAlgorithm`: the rows from a source. -/
def singleSPDestinations (g : OnDiskGraph V E) (direction : ExtendDirection) (schedule : SPSchedule V E)
    (upperBound : UInt16) (source : V) (nodes : List V) (outputNodeMask : Option (Finset V)) :
    List (DestinationRow V) :=
  let p := (SPState.run g direction sspDestinations schedule outputNodeMask upperBound source).frontierPair
  ((p.destinations schedule.toSchedule nodes).filter (inOutputNodeMask outputNodeMask)).flatMap fun dst =>
    (p.destinationRow source dst).toList

/-- `for (auto i = 0u; i < multiplicity; ++i)`: the counter has 32 bits. -/
def appendLoop {R : Type} (row : R) (multiplicity : UInt64) : Nat → UInt32 → Option (List R)
  | fuel, i =>
    if i.toUInt64 < multiplicity then
      match fuel with
      | 0 => none
      | fuel + 1 => (appendLoop row multiplicity fuel (i + 1)).map (row :: ·)
    else some []

/-- `AllSPDestinationsAlgorithm`: the rows from a source. Without `curMultiplicities` the output writer
runs into `nullptr`. -/
def allSPDestinations (g : OnDiskGraph V E) (direction : ExtendDirection) (schedule : SPSchedule V E)
    (upperBound : UInt16) (source : V) (nodes : List V) (outputNodeMask : Option (Finset V))
    (fuel : Nat) : Option (List (DestinationRow V)) :=
  let s := SPState.run g direction aspDestinations schedule outputNodeMask upperBound source
  s.auxiliaryState.getCurrentMultiplicities.bind fun multiplicities =>
    writeAll (inOutputNodeMask outputNodeMask) (fun dst =>
        match s.frontierPair.destinationRow source dst with
        | none => some []
        | some row => appendLoop row (multiplicities dst) fuel 0)
      (s.frontierPair.destinations schedule.toSchedule nodes)

namespace PathsOutputWriterInfo

variable [DecidableEq E] (info : PathsOutputWriterInfo V)

/-- `SPPathsOutputWriter::writeInternal`. -/
def spWriteInternal (parents : V → ParentList V E) (source : V) (fuel : Nat) (dst : V) :
    Option (List (PathRow V E)) :=
  match info.findFirstParent (parents dst) with
  | [] => some []
  | first :: next =>
    if dst = source then some []
    else
      let paths := if info.isFast then dfsFast info parents fuel (first :: next)
        else dfsSlow info parents fuel (first :: next)
      paths.map (·.map (info.pathRow dst))

/-- The rows of an algorithm that tracks paths, from a source. -/
def spJoin (alg : SPAlgorithm V E (DensityMap V (ParentList V E))) (g : OnDiskGraph V E)
    (direction : ExtendDirection) (schedule : SPSchedule V E) (upperBound : UInt16) (source : V)
    (nodes : List V) (outputNodeMask : Option (Finset V)) (fuel : Nat) : Option (List (PathRow V E)) :=
  let bfsGraph :=
    (SPState.run g direction alg schedule outputNodeMask upperBound source).auxiliaryState
  writeAll (inOutputNodeMask outputNodeMask) (info.spWriteInternal (bfsGraph.get []) source fuel)
    (info.destinations schedule.toSchedule nodes source bfsGraph)

variable (g : OnDiskGraph V E) (direction : ExtendDirection) (schedule : SPSchedule V E)
  (upperBound : UInt16) (source : V) (nodes : List V) (outputNodeMask : Option (Finset V))
  (fuel : Nat)

/-- `SingleSPPathsAlgorithm`. -/
def singleSPPaths : Option (List (PathRow V E)) :=
  info.spJoin sspPaths g direction schedule upperBound source nodes outputNodeMask fuel

/-- `AllSPPathsAlgorithm`. -/
def allSPPaths : Option (List (PathRow V E)) :=
  info.spJoin aspPaths g direction schedule upperBound source nodes outputNodeMask fuel

end PathsOutputWriterInfo

/-! ## Multiplicities -/

section Invariants

variable {G : HopGraph V (Hop V E)} {source : V}

omit [DecidableEq V] in
theorem sspDestinations_invariant :
    AuxInvariant (sspDestinations : SPAlgorithm V E Unit) G source fun _ _ _ => True :=
  ⟨trivial, fun _ _ _ _ _ => trivial, fun _ => trivial⟩

/-- The multiplicities after `n` iterations. -/
structure Multiplicities (G : HopGraph V (Hop V E)) (source : V) (state : GDSDensityState) (n : Nat)
    (p : MultiplicitiesPair V) : Prop where
  state : p.multiplicities.state = state
  cur : p.curMultiplicities = none ↔ n = 0
  current : ∀ f, p.getCurrentMultiplicities = some f → ∀ node, f node = p.multiplicities.get 0 node
  far : ∀ node, (∀ k ≤ n, ¬ G.IsDist source k node) → p.multiplicities.get 0 node = 0
  count : ∀ node, ∀ k ≤ n, G.IsDist source k node → ∃ c, G.WalkCount source k node c ∧
    p.multiplicities.get 0 node = UInt64.ofNat c

variable {visits : List (EdgeVisit V E)} {start : V → Nat} {iter : Nat}

omit [DecidableEq V] in
/-- A visit that reads a value of the iteration reads it of a neighbour that was unvisited. -/
theorem updates_iff {visit : EdgeVisit V E} {nbrVal : Nat} {Earlier : Prop}
    (hiter : ∀ node, start node ≠ iter ∨ start node = frontierUnvisited)
    (hread : nbrVal = start visit.nbr ∨ nbrVal = iter ∧ start visit.nbr = frontierUnvisited ∧ Earlier) :
    (nbrVal = frontierUnvisited ∨ nbrVal = iter) ↔ start visit.nbr = frontierUnvisited := by
  obtain rfl | ⟨rfl, hu, -⟩ := hread
  · exact or_iff_left_of_imp fun heq => (hiter _).resolve_left (not_not.mpr heq)
  · exact iff_of_true (.inr rfl) hu

/-- The visits of an iteration add the multiplicities of the bound nodes to those of the neighbours that
were unvisited. -/
theorem aspDestinations_steps {p p' : MultiplicitiesPair V}
    {count : V → Nat} (hiter : ∀ node, start node ≠ iter ∨ start node = frontierUnvisited)
    (hzero : ∀ node, start node = frontierUnvisited → p.multiplicities.get 0 node = 0)
    (hbound : ∀ visit ∈ visits, start visit.hop.node ≠ frontierUnvisited ∧
      p.multiplicities.get 0 visit.hop.node = UInt64.ofNat (count visit.hop.node))
    (h : AuxSteps aspDestinations iter start p visits p') :
    p'.multiplicities.state = p.multiplicities.state ∧ p'.curMultiplicities = p.curMultiplicities ∧
      ∀ node, p'.multiplicities.get 0 node = if start node = frontierUnvisited then
          UInt64.ofNat ((visits.filter (·.nbr = node)).map fun visit => count visit.hop.node).sum
        else p.multiplicities.get 0 node := by
  induction h with
  | nil =>
    refine ⟨rfl, rfl, fun node => ?_⟩
    split
    · next hu => exact hzero node hu
    · rfl
  | @snoc visits p' visit nbrVal _ hread ih =>
    obtain ⟨hstate, hcur, hget⟩ := ih fun visit hv => hbound visit (mem_append_left _ hv)
    obtain ⟨hvisited, hcount⟩ := hbound visit (by simp)
    have hother : p'.getCurrentMultiplicity visit.hop.node = UInt64.ofNat (count visit.hop.node) := by
      rw [MultiplicitiesPair.getCurrentMultiplicity, hget, if_neg hvisited, hcount]
    simp only [aspDestinations, updates_iff hiter hread, hother]
    split
    · next hu =>
      refine ⟨(state_set ..).trans hstate, hcur, fun node => ?_⟩
      rw [MultiplicitiesPair.increaseNextMultiplicity, get_set]
      split
      · next hn =>
        subst hn
        rw [hget, if_pos hu, if_pos hu]
        simp
      · next hn =>
        rw [hget]
        simp [Ne.symm hn]
    · next hu =>
      refine ⟨hstate, hcur, fun node => ?_⟩
      rw [hget]
      split
      · next hu' =>
        have hn : visit.nbr ≠ node := by
          rintro rfl
          exact hu hu'
        simp [hn]
      · rfl

omit [DecidableEq V] in
/-- A reference points to the objects of the density state that it was pinned in. -/
theorem getCurrentMultiplicities_eq {p : MultiplicitiesPair V}
    (h : p.curMultiplicities = some p.multiplicities.state) {f : V → UInt64}
    (hf : p.getCurrentMultiplicities = some f) (node : V) : f node = p.multiplicities.get 0 node := by
  rw [MultiplicitiesPair.getCurrentMultiplicities, h] at hf
  obtain rfl := Option.some.inj hf
  cases hstate : p.multiplicities.state <;> simp [DensityMap.get, hstate]

omit [DecidableEq V] in
/-- The values of the frontier are below the iteration that runs. -/
theorem Visited.ne_succ {n value : Nat} {node : V} (h : Visited G source n node value) :
    value ≠ n + 1 ∨ value = frontierUnvisited := by
  obtain ⟨hu, -⟩ | ⟨k, hk, -, rfl⟩ := h
  · exact .inr hu
  · exact .inl (by omega)

theorem LevelVisits.lastHops {n : Nat} {node : V}
    (h : LevelVisits G source n visits) (hdist : G.IsDist source (n + 1) node) :
    ((visits.filter (·.nbr = node)).map (·.hop)).Nodup ∧ ∀ {hop}, hop ∈ (visits.filter (·.nbr = node)).map (·.hop) ↔
        G.enters hop node ∧ G.HasWalk source n (G.origin hop) := by
  constructor
  · refine (h.nodup.filter _).map_on fun visit hv visit' hv' heq => ?_
    cases visit
    cases visit'
    simp_all
  · intro hop
    simp only [mem_map, mem_filter, decide_eq_true_eq]
    constructor
    · rintro ⟨visit, ⟨hv, rfl⟩, rfl⟩
      obtain ⟨henters, hbound⟩ := h.mem.mp hv
      exact ⟨henters, hbound.1⟩
    · rintro ⟨henters, hw⟩
      exact ⟨⟨hop, node⟩, ⟨h.mem.mpr ⟨henters, hdist.origin henters hw⟩, rfl⟩, rfl⟩

theorem aspDestinations_invariant (horigin : ∀ hop, G.origin hop = hop.node) :
    AuxInvariant (aspDestinations : SPAlgorithm V E (MultiplicitiesPair V)) G source (Multiplicities G source) where
  init := by
    have hget : ∀ node, ((aspDestinations : SPAlgorithm V E _).initSource source).multiplicities.get 0
        node = if node = source then 1 else 0 := by
      intro node
      simp only [aspDestinations, MultiplicitiesPair.increaseNextMultiplicity, get_set]
      rfl
    refine ⟨rfl, iff_of_true rfl rfl, fun f hf => ?_, fun node hfar => ?_, fun node k hk hdist => ?_⟩
    · cases hf
    · rw [hget, if_neg fun hn => hfar 0 le_rfl (isDist_zero.mpr hn)]
    · obtain rfl := Nat.le_zero.mp hk
      obtain rfl := isDist_zero.mp hdist
      exact ⟨1, walkCount_zero, by rw [hget, if_pos rfl]; rfl⟩
  step := by
    intro state n p start visits p' hn h hstart hlevel hsteps
    have hcounts : ∀ node, G.IsDist source n node → ∃ c, G.WalkCount source n node c ∧
        p.multiplicities.get 0 node = UInt64.ofNat c := fun node => h.count node n le_rfl
    choose! count hcount using hcounts
    obtain ⟨hstate, hcur, hget⟩ := aspDestinations_steps (p := p.pinCurTableID) (fun node => (hstart node).ne_succ)
      (fun node hu => h.far node (((hstart node).eq_unvisited_iff hn).mp hu))
      (fun visit hv => by
        have hdist := (hlevel.mem.mp hv).2
        rw [horigin] at hdist
        refine ⟨fun hu => ?_, (hcount _ hdist).2⟩
        exact ((hstart _).eq_unvisited_iff hn).mp hu n le_rfl hdist) hsteps
    have hpinned : p'.curMultiplicities = some p'.multiplicities.state := by
      rw [hcur, hstate]
      rfl
    refine ⟨hstate.trans h.state, by simp [hpinned], fun f hf => getCurrentMultiplicities_eq hpinned hf,
      fun node hfar => ?_, fun node k hk hdist => ?_⟩
    · have hu := ((hstart node).eq_unvisited_iff hn).mpr fun k hk => hfar k (by omega)
      have hnone : visits.filter (·.nbr = node) = [] := by
        refine filter_eq_nil_iff.mpr fun visit hv heq => ?_
        refine hfar (n + 1) le_rfl (hlevel.isDist_succ.mpr ⟨⟨visit, hv, ?_⟩, ?_⟩)
        · exact of_decide_eq_true heq
        · exact fun k hk => hfar k (by omega)
      rw [hget, if_pos hu, hnone]
      rfl
    · obtain rfl | hk := Nat.eq_or_lt_of_le hk
      · -- A node of the new level: its walks are those to the bound nodes of its visits.
        have hfar := (hlevel.isDist_succ.mp hdist).2
        rw [hget, if_pos (((hstart node).eq_unvisited_iff hn).mpr hfar)]
        refine ⟨_, ?_, rfl⟩
        obtain ⟨hnodup, hhops⟩ := hlevel.lastHops hdist
        have hwalks := walkCount_succ hnodup hhops fun hop hmem => by
          obtain ⟨henters, hw⟩ := hhops.mp hmem
          exact (hcount _ (hdist.origin henters hw)).1
        simpa only [map_map, Function.comp_def, horigin] using hwalks
      · have hvisited : start node ≠ frontierUnvisited := fun hu =>
          ((hstart node).eq_unvisited_iff hn).mp hu k (by omega) hdist
        rw [hget, if_neg hvisited]
        exact h.count node k (by omega) hdist
  switch := by
    intro n p h
    have hget : ∀ node, (p.multiplicities.switchToDense 0).get 0 node = p.multiplicities.get 0 node :=
      get_switchToDense h.state
    refine ⟨rfl, h.cur, fun f hf node => ?_, fun node hfar => ?_, fun node k hk hdist => ?_⟩
    · cases hcur : p.curMultiplicities with
      | none => simp [MultiplicitiesPair.getCurrentMultiplicities, aspDestinations, hcur] at hf
      | some pinned =>
        simp only [MultiplicitiesPair.getCurrentMultiplicities, aspDestinations, hcur, Option.map_some,
          Option.some.injEq] at hf
        subst hf
        cases pinned <;> rfl
    · exact (hget node).trans (h.far node hfar)
    · obtain ⟨c, hc, heq⟩ := h.count node k hk hdist
      exact ⟨c, hc, (hget node).trans heq⟩

/-! ## Parents -/

/-- The parents of all shortest paths after `n` iterations. -/
structure ShortestParents (G : HopGraph V (Hop V E)) (source : V) (state : GDSDensityState) (n : Nat)
    (bfsGraph : DensityMap V (ParentList V E)) : Prop where
  state : bfsGraph.state = state
  layers : ParentLayers (G.shortest source) source n (bfsGraph.get [])

/-- The visits of an iteration add parents to the neighbours that were unvisited. -/
theorem aspPaths_steps {bfsGraph bfsGraph' : DensityMap V (ParentList V E)}
    (hiter : ∀ node, start node ≠ iter ∨ start node = frontierUnvisited)
    (h : AuxSteps aspPaths iter start bfsGraph visits bfsGraph') :
    bfsGraph'.state = bfsGraph.state ∧ ∀ node, bfsGraph'.get [] node =
        (((visits.filter fun visit => start visit.nbr = frontierUnvisited).filter (·.nbr = node)).map
          fun visit => (⟨visit.hop, iter⟩ : ParentEntry V E)).reverse ++ bfsGraph.get [] node := by
  induction h with
  | nil => exact ⟨rfl, fun _ => rfl⟩
  | @snoc visits bfsGraph' visit nbrVal _ hread ih =>
    obtain ⟨hstate, hget⟩ := ih
    simp only [aspPaths, updates_iff hiter hread]
    split
    · next hu =>
      refine ⟨(state_set ..).trans hstate, fun node => ?_⟩
      rw [addParent, get_set]
      split
      · next hn =>
        subst hn
        rw [hget]
        simp [hu]
      · next hn =>
        rw [hget]
        simp [Ne.symm hn]
    · next hu =>
      refine ⟨hstate, fun node => ?_⟩
      rw [hget]
      simp [hu]

theorem aspPaths_invariant : AuxInvariant (aspPaths : SPAlgorithm V E (DensityMap V (ParentList V E))) G source
      (ShortestParents G source) where
  init := by
    refine ⟨rfl, ⟨fun _ => .nil, fun _ => .nil, fun {node e} => ?_⟩⟩
    refine iff_of_false not_mem_nil ?_
    omega
  step := by
    intro state n bfsGraph start visits bfsGraph' hn h hstart hlevel hsteps
    obtain ⟨hstate, hget⟩ := aspPaths_steps (fun node => (hstart node).ne_succ) hsteps
    refine ⟨hstate.trans h.state, ?_⟩
    rw [funext hget]
    refine h.layers.append (hlevel.nodup.filter _) fun {visit} => ?_
    -- A hop from the level to an unvisited node is a hop of a shortest walk.
    rw [mem_filter, hlevel.mem, decide_eq_true_eq, (hstart _).eq_unvisited_iff hn, hasWalk_shortest]
    constructor
    · rintro ⟨⟨henters, hdist⟩, hfar⟩
      exact ⟨⟨henters, n, hdist, isDist_succ.mpr ⟨⟨_, henters, hdist⟩, hfar⟩⟩, hdist⟩
    · rintro ⟨⟨henters, k, hk, hnext⟩, hdist⟩
      obtain rfl := hk.unique hdist
      exact ⟨⟨henters, hk⟩, (isDist_succ.mp hnext).2⟩
  switch := by
    intro n bfsGraph h
    have hget : (bfsGraph.switchToDense []).get [] = bfsGraph.get [] := funext (get_switchToDense h.state)
    refine ⟨rfl, ?_⟩
    exact hget.symm ▸ h.layers

/-- The parents of one shortest path after `n` iterations: a node that has been visited has one. -/
structure SingleParents (G : HopGraph V (Hop V E)) (source : V) (state : GDSDensityState) (n : Nat)
    (bfsGraph : DensityMap V (ParentList V E)) : Prop where
  state : bfsGraph.state = state
  far : ∀ node, (∀ k, 1 ≤ k → k ≤ n → ¬ G.IsDist source k node) → bfsGraph.get [] node = []
  single : ∀ node k, k + 1 ≤ n → G.IsDist source (k + 1) node → ∃ hop,
    bfsGraph.get [] node = [⟨hop, k + 1⟩] ∧ G.enters hop node ∧ G.IsDist source k (G.origin hop)

/-- The first visit of an unvisited neighbour gives it its parent. -/
theorem sspPaths_steps {bfsGraph bfsGraph' : DensityMap V (ParentList V E)}
    (hempty : ∀ node, start node = frontierUnvisited → bfsGraph.get [] node = [])
    (h : AuxSteps sspPaths iter start bfsGraph visits bfsGraph') :
    bfsGraph'.state = bfsGraph.state ∧ ∀ node, (bfsGraph'.get [] node = bfsGraph.get [] node ∧
          (start node = frontierUnvisited → ∀ visit ∈ visits, visit.nbr ≠ node)) ∨
        (start node = frontierUnvisited ∧ ∃ visit ∈ visits, visit.nbr = node ∧
          bfsGraph'.get [] node = [⟨visit.hop, iter⟩]) := by
  induction h with
  | nil => exact ⟨rfl, fun _ => .inl ⟨rfl, by simp⟩⟩
  | @snoc visits bfsGraph' visit nbrVal _ hread ih =>
    obtain ⟨hstate, hget⟩ := ih
    have hold : ∀ node, (start node = frontierUnvisited → visit.nbr ≠ node) ∨
        (start node = frontierUnvisited ∧ ∃ visit' ∈ visits, visit'.nbr = node) →
        (bfsGraph'.get [] node = bfsGraph.get [] node ∧
          (start node = frontierUnvisited → ∀ visit' ∈ visits ++ [visit], visit'.nbr ≠ node)) ∨
        (start node = frontierUnvisited ∧ ∃ visit' ∈ visits ++ [visit], visit'.nbr = node ∧
          bfsGraph'.get [] node = [⟨visit'.hop, iter⟩]) := by
      rintro node hnode
      obtain ⟨heq, hnone⟩ | ⟨hu, visit', hv, hn, heq⟩ := hget node
      · obtain hne | ⟨hu, visit', hv, hn⟩ := hnode
        · refine .inl ⟨heq, fun hu visit' hv => ?_⟩
          obtain hv | hv := mem_append.mp hv
          · exact hnone hu visit' hv
          · obtain rfl := mem_singleton.mp hv
            exact hne hu
        · exact absurd hn (hnone hu visit' hv)
      · exact .inr ⟨hu, visit', mem_append_left _ hv, hn, heq⟩
    simp only [sspPaths]
    split
    · next hnbr =>
      -- The neighbour is read as unvisited, and was so at the beginning.
      have hu : start visit.nbr = frontierUnvisited := by
        obtain heq | heq := hread
        · exact heq.symm.trans hnbr
        · exact heq.2.1
      unfold addSingleParent
      cases hlist : bfsGraph'.get [] visit.nbr with
      | nil =>
        refine ⟨(state_set ..).trans hstate, fun node => ?_⟩
        simp only [get_set]
        split
        · next hn =>
          subst hn
          exact .inr ⟨hu, visit, by simp, rfl, rfl⟩
        · next hn => exact hold node (.inl fun _ heq => hn heq.symm)
      | cons e list =>
        refine ⟨hstate, fun node => hold node ?_⟩
        by_cases hn : visit.nbr = node
        · subst hn
          refine .inr ⟨hu, ?_⟩
          obtain ⟨heq, -⟩ | ⟨-, visit', hv, hn, -⟩ := hget visit.nbr
          · rw [hlist, hempty _ hu] at heq
            cases heq
          · exact ⟨visit', hv, hn⟩
        · exact .inl fun _ => hn
    · next hnbr =>
      refine ⟨hstate, fun node => hold node ?_⟩
      by_cases hn : visit.nbr = node
      · subst hn
        obtain heq | ⟨-, hu, hearlier⟩ := hread
        · exact .inl fun hu => absurd (heq.trans hu) hnbr
        · exact .inr ⟨hu, hearlier⟩
      · exact .inl fun _ => hn

theorem sspPaths_invariant : AuxInvariant (sspPaths : SPAlgorithm V E (DensityMap V (ParentList V E))) G source
      (SingleParents G source) where
  init := by
    refine ⟨rfl, fun _ _ => rfl, fun node k hk => ?_⟩
    omega
  step := by
    intro state n bfsGraph start visits bfsGraph' hn h hstart hlevel hsteps
    have hempty : ∀ node, start node = frontierUnvisited → bfsGraph.get [] node = [] := fun node hu =>
      h.far node fun k _ hk => ((hstart node).eq_unvisited_iff hn).mp hu k hk
    obtain ⟨hstate, hget⟩ := sspPaths_steps hempty hsteps
    refine ⟨hstate.trans h.state, fun node hfar => ?_, fun node k hk hdist => ?_⟩
    · obtain ⟨heq, -⟩ | ⟨hu, visit, hv, hn', -⟩ := hget node
      · exact heq.trans (h.far node fun k hpos hk => hfar k hpos (by omega))
      · have hnone := ((hstart node).eq_unvisited_iff hn).mp hu
        exact absurd (hlevel.isDist_succ.mpr ⟨⟨visit, hv, hn'⟩, hnone⟩) (hfar (n + 1) (by omega) le_rfl)
    · obtain hk | hk := Nat.eq_or_lt_of_le hk
      · obtain rfl : k = n := by omega
        obtain ⟨⟨visit, hv, hn'⟩, hfar⟩ := hlevel.isDist_succ.mp hdist
        have hu := ((hstart node).eq_unvisited_iff hn).mpr hfar
        obtain ⟨-, hnone⟩ | ⟨-, visit', hv', rfl, heq⟩ := hget node
        · exact absurd hn' (hnone hu visit hv)
        · exact ⟨visit'.hop, heq, hlevel.mem.mp hv'⟩
      · have hvisited : start node ≠ frontierUnvisited := fun hu =>
          ((hstart node).eq_unvisited_iff hn).mp hu (k + 1) (by omega) hdist
        obtain ⟨heq, -⟩ | ⟨hu, -⟩ := hget node
        · rw [heq]
          exact h.single node k (by omega) hdist
        · exact absurd hu hvisited
  switch := by
    intro n bfsGraph h
    have hget : ∀ node, (bfsGraph.switchToDense []).get [] node = bfsGraph.get [] node := get_switchToDense h.state
    refine ⟨rfl, fun node hfar => (hget node).trans (h.far node hfar), fun node k hk hdist => ?_⟩
    obtain ⟨hop, heq, hhop⟩ := h.single node k hk hdist
    exact ⟨hop, (hget node).trans heq, hhop⟩

end Invariants

end CycleJoin
