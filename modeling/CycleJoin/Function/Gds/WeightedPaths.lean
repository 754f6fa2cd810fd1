import CycleJoin.Function.Gds.VariableLengthRows
import CycleJoin.Function.Gds.WeightedShortestPaths

/-!
# Weighted shortest paths

`wsp_destinations.cpp` keeps a cost for each node, `wsp_paths.cpp` keeps a cost and one parent. The path
of a destination is rebuilt by going from parent to parent until a cost is zero.

* `ParentTree`: the parents lead back to the source in every state of a run, though costs change under
  them.
* `weightedSPPaths_exact_iff`: the paths have the least weights as their costs if and only if no node other
  than the source has the least weight zero.
-/

namespace CycleJoin

open List Function PathsOutputWriterInfo WeightedState

variable {V E X : Type}

/-! ## The algorithms -/

/-- An element of a `ParentList` with its cost. The IDs of `sourceParent` are never set. -/
structure WeightedParent (V E : Type) where
  hop : Option (Hop V E)
  cost : Nat
  deriving DecidableEq, Repr

/-- An entry is replaced if the new cost is less: `tryReplaceWithMinCost`,
`tryAddSingleParentWithWeight`. -/
def singleEntry (cost : X → Nat) (sourceEntry : X) (make : Hop V E → Nat → X)
    (hsource : cost sourceEntry = 0) (hmake : ∀ hop c, cost (make hop c) = c) :
    WeightedAlgorithm V E X where
  cost := cost
  sourceEntry := sourceEntry
  tryAdd entry hop newCost :=
    if entry.all (newCost < cost ·) then some (make hop newCost) else none
  cost_sourceEntry := hsource
  cost_of_tryAdd := by
    intro entry hop newCost new hadd
    split at hadd
    · next hall =>
      obtain rfl := Option.some.inj hadd
      refine ⟨hmake .., fun x hx => ?_⟩
      rw [hx] at hall
      exact Nat.le_of_lt (by simpa using hall)
    · cases hadd
  le_of_tryAdd := by
    intro entry hop newCost hadd
    split at hadd
    · cases hadd
    · next hall =>
      cases entry with
      | none => exact absurd rfl hall
      | some x => exact ⟨x, rfl, by simpa using hall⟩

/-- `WSPDestinationsEdgeCompute` and `WSPDestinationsAuxiliaryState`. -/
def wspDestinations : WeightedAlgorithm V E Nat :=
  singleEntry id 0 (fun _ newCost => newCost) rfl fun _ _ => rfl

/-- `WSPPathsEdgeCompute` and `WSPPathsAuxiliaryState`. -/
def wspPaths : WeightedAlgorithm V E (WeightedParent V E) :=
  singleEntry (·.cost) ⟨none, 0⟩ (fun hop newCost => ⟨some hop, newCost⟩) rfl fun _ _ => rfl

/-! ## Output -/

/-- A row of `WSPDestinationsOutputWriter`. -/
structure CostRow (V : Type) where
  dst : V
  cost : Nat
  deriving DecidableEq, Repr

/-- A row of `WSPPathsOutputWriter`. -/
structure WeightedPathRow (V E : Type) extends PathRow V E where
  cost : Nat
  deriving DecidableEq, Repr

/-- The loop of `WSPPathsOutputWriter::writeInternal`, with `pop_back` after it. -/
def fillPath (entries : V → Option (WeightedParent V E)) :
    Nat → WeightedParent V E → List (WeightedParent V E) → Option (List (WeightedParent V E))
  | fuel, parent, curPath =>
    if parent.cost = 0 then some curPath.dropLast
    else
      match fuel with
      | 0 => none
      | fuel + 1 =>
        match parent.hop.bind fun hop => entries hop.node with
        | none => none
        | some parent => fillPath entries fuel parent (curPath ++ [parent])

/-- The iteration of a parent with a cost is never set. -/
def WeightedParent.toParentEntry (parent : WeightedParent V E) : Option (ParentEntry V E) :=
  parent.hop.map fun hop => ⟨hop, 2 ^ 16 - 1⟩

section Output

variable [DecidableEq V] (info : PathsOutputWriterInfo V)

/-- `WSPDestinationsOutputWriter::write`. -/
def wspDestinationRow (costs : V → Option Nat) (source : V) (mask : V → Bool) (dst : V) :
    Option (CostRow V) :=
  if !mask dst then none
  else if dst = source then none
  else (costs dst).map fun cost => ⟨dst, cost⟩

/-- `WeightedSPDestinationsFunction` from a source. -/
def weightedSPDestinations (g : OnDiskGraph V E) (direction : ExtendDirection) (weight : E → Nat)
    (schedule : WeightedSchedule V E) (upperBound : UInt16) (source : V) (nodes : List V)
    (mask : V → Bool) : List (CostRow V) :=
  let s := run g direction wspDestinations weight schedule upperBound source
  (schedule.mapOrder nodes).filterMap (wspDestinationRow s.pinnedEntries source mask)

/-- `WSPPathsOutputWriter::writeInternal`. -/
def PathsOutputWriterInfo.wspWriteInternal (entries : V → Option (WeightedParent V E)) (source : V)
    (fuel : Nat) (dst : V) : Option (List (WeightedPathRow V E)) :=
  if dst = source then some []
  else
    match entries dst with
    | none => some []
    | some parent =>
      (fillPath entries fuel parent [parent]).map fun path =>
        [⟨info.pathRow dst (path.filterMap (·.toParentEntry)), parent.cost⟩]

/-- `WeightedSPPathsFunction` from a source. -/
def PathsOutputWriterInfo.weightedSPPaths (g : OnDiskGraph V E) (direction : ExtendDirection)
    (weight : E → Nat) (schedule : WeightedSchedule V E) (upperBound : UInt16) (source : V)
    (nodes : List V) (mask : V → Bool) (fuel : Nat) : Option (List (WeightedPathRow V E)) :=
  let s := run g direction wspPaths weight schedule upperBound source
  writeAll mask (info.wspWriteInternal s.entries source fuel)
    (info.destinations schedule.toSchedule nodes source s.data)

end Output

/-! ## What is asked for -/

/-- The row of a walk. The length has 16 bits. -/
def PathsOutputWriterInfo.weightedRow (info : PathsOutputWriterInfo V) (dst : V)
    (walk : List (Hop V E)) (cost : Nat) : WeightedPathRow V E :=
  { info.walkRow dst walk with
    length := walk.length % 2 ^ 16
    cost }

/-- A destination: a node of the output tables and the mask, with the least weight of its walks. -/
structure IsWeightedDestination (G : HopGraph V (Hop V E)) (weight : E → Nat) (source : V)
    (nodes : List V) (mask : V → Bool) (row : CostRow V) : Prop where
  mem : row.dst ∈ nodes
  mask : mask row.dst = true
  ne_source : row.dst ≠ source
  isMinWeight : G.IsMinWeight source (hopWeight weight) row.cost row.dst

/-- One row for each destination. -/
def CostsExact (Dest : CostRow V → Prop) (rows : List (CostRow V)) : Prop :=
  rows.Nodup ∧ ∀ row, row ∈ rows ↔ Dest row

/-- One row for each destination: that of a walk with the cost as its weight. -/
def WeightedPathsExact [DecidableEq V] (info : PathsOutputWriterInfo V) (G : HopGraph V (Hop V E))
    (weight : E → Nat) (source : V) (Dest : CostRow V → Prop) (rows : List (WeightedPathRow V E)) :
    Prop :=
  (∀ row ∈ rows, Dest ⟨row.dst, row.cost⟩) ∧
    ∀ row, Dest row → ∃ walk, G.IsWalk source walk row.dst ∧
      HopGraph.walkWeight (hopWeight weight) walk = row.cost ∧
      rows.filter (·.dst = row.dst) = [info.weightedRow row.dst walk row.cost]

/-! ## Parents lead back to the source -/

/-- The hops from parents. -/
def parentHops (entries : V → Option (WeightedParent V E)) : HopGraph V (Hop V E) where
  enters hop node := ∃ c, entries node = some ⟨some hop, c⟩
  origin := Hop.node

/-- What holds of parents while costs change: a parent costs less than its child by the weight of the hop
at least, and every node has its way back. -/
structure ParentTree (weight : E → Nat) (G : HopGraph V (Hop V E)) (source : V)
    (entries : V → Option (WeightedParent V E)) : Prop where
  atSource : entries source = some ⟨none, 0⟩
  parent : ∀ {node x}, node ≠ source → entries node = some x → ∃ hop y, x.hop = some hop ∧
    G.enters hop node ∧ entries hop.node = some y ∧ y.cost + weight hop.edge ≤ x.cost
  rooted : ∀ {node}, entries node ≠ none → ∃ walk, (parentHops entries).IsWalk source walk node

namespace ParentTree

variable {weight : E → Nat} {G : HopGraph V (Hop V E)} {source : V}
  {entries : V → Option (WeightedParent V E)} {node : V} {hop : Hop V E} {c : Nat}

variable (h : ParentTree weight G source entries)
include h

theorem of_enters (he : entries node = some ⟨some hop, c⟩) : node ≠ source ∧ G.enters hop node ∧
      ∃ y, entries hop.node = some y ∧ y.cost + weight hop.edge ≤ c := by
  have hne : node ≠ source := by
    rintro rfl
    rw [h.atSource] at he
    cases he
  obtain ⟨hop', y, hhop, henters, hy, hle⟩ := h.parent hne he
  obtain rfl := Option.some.inj hhop
  exact ⟨hne, henters, y, hy, hle⟩

/-- The way back from a node that costs less than the old entry of a neighbour does not pass the
neighbour. -/
theorem isWalk_update [DecidableEq V] {nbr : V}
    {entry : WeightedParent V E} (hlt : ∀ x, entries nbr = some x → c < x.cost)
    (hsource : nbr ≠ source) {walk : List (Hop V E)} {y : WeightedParent V E}
    (hy : entries node = some y) (hle : y.cost ≤ c)
    (hwalk : (parentHops entries).IsWalk source walk node) :
    (parentHops (update entries nbr (some entry))).IsWalk source walk node := by
  induction walk generalizing node y with
  | nil => exact hwalk
  | cons hop walk ih =>
    obtain ⟨⟨cost, he⟩, hrest⟩ := hwalk
    obtain ⟨-, -, z, hz, hzle⟩ := h.of_enters he
    obtain rfl := Option.mem_unique hy he
    have hne : node ≠ nbr := by
      rintro rfl
      have := hlt _ hy
      omega
    refine ⟨⟨cost, by rwa [update_of_ne hne]⟩, ih hz ?_ hrest⟩
    have hcost : cost ≤ c := hle
    omega

/-- A cheaper parent keeps the ways back. -/
theorem update [DecidableEq V] {nbr : V}
    (henters : G.enters hop nbr) {y : WeightedParent V E} (hy : entries hop.node = some y)
    (hle : y.cost + weight hop.edge ≤ c) (hlt : ∀ x, entries nbr = some x → c < x.cost) :
    ParentTree weight G source (Function.update entries nbr (some ⟨some hop, c⟩)) := by
  have hsource : nbr ≠ source := by
    rintro rfl
    exact absurd (hlt _ h.atSource) (Nat.not_lt_zero c)
  have hbound : hop.node ≠ nbr := by
    intro heq
    have := hlt y (heq ▸ hy)
    omega
  constructor
  case atSource =>
    rw [update_of_ne hsource.symm]
    exact h.atSource
  case parent =>
    intro node x hnode hx
    by_cases hn : node = nbr
    · subst hn
      rw [update_self] at hx
      obtain rfl := Option.some.inj hx
      exact ⟨hop, y, rfl, henters, by rwa [update_of_ne hbound], hle⟩
    · rw [update_of_ne hn] at hx
      obtain ⟨hop', z, hhop, he, hz, hzle⟩ := h.parent hnode hx
      by_cases hn' : hop'.node = nbr
      · have := hlt z (hn' ▸ hz)
        exact ⟨hop', ⟨some hop, c⟩, hhop, he, by rw [hn', update_self], by simp only; omega⟩
      · exact ⟨hop', z, hhop, he, by rwa [update_of_ne hn'], hzle⟩
  case rooted =>
    -- The neighbour goes back through its new parent, and other nodes as before or through it.
    obtain ⟨walk, hwalk⟩ := h.rooted (by simp [hy] : entries hop.node ≠ none)
    have hnbr : (parentHops (Function.update entries nbr (some ⟨some hop, c⟩))).IsWalk source (hop :: walk) nbr :=
      ⟨⟨c, update_self ..⟩, h.isWalk_update hlt hsource hy (by omega) hwalk⟩
    intro node hnode
    by_cases hn : node = nbr
    · exact ⟨hop :: walk, hn ▸ hnbr⟩
    · rw [update_of_ne hn] at hnode
      obtain ⟨walk', hwalk'⟩ := h.rooted hnode
      clear hn hnode
      induction walk' generalizing node with
      | nil => exact ⟨[], hwalk'⟩
      | cons hop' walk' ih =>
        by_cases hn : node = nbr
        · exact ⟨hop :: walk, hn ▸ hnbr⟩
        · obtain ⟨walk'', hwalk''⟩ := ih hwalk'.2
          obtain ⟨c', hc'⟩ := hwalk'.1
          exact ⟨hop' :: walk'', ⟨c', by rwa [update_of_ne hn]⟩, hwalk''⟩

end ParentTree

/-- The parents of a run lead back to the source. -/
theorem wspPaths_invariant [DecidableEq V] {weight : E → Nat} {G : HopGraph V (Hop V E)} {source : V} :
    WeightedInvariant wspPaths weight G source fun _ entries _ => ParentTree weight G source entries where
  init := by
    have hne : ∀ {node x}, node ≠ source →
        update (fun _ => none) source (some (⟨none, 0⟩ : WeightedParent V E)) node ≠ some x := by
      intro node x hn
      simp [update_of_ne hn]
    refine ⟨update_self .., fun hn hx => absurd hx (hne hn), fun {node} hnode => ⟨[], ?_⟩⟩
    obtain ⟨x, hx⟩ := Option.ne_none_iff_exists'.mp hnode
    exact by_contra fun hn => hne hn hx
  mono := fun _ h => h
  step := by
    intro P entries trace steps entries' changed _ h hrelaxes hsteps hcover
    clear hcover
    induction hrelaxes with
    | nil => exact h
    | keep visit c _ _ _ ih => exact ih fun step hs => hsteps step (mem_append_left _ hs)
    | @add steps entries changed visit c entry _ hread hadd ih =>
      have h := ih fun step hs => hsteps step (mem_append_left _ hs)
      obtain ⟨y, hy, hle, -⟩ := hread.current
      have henters : G.enters visit.hop visit.nbr := hsteps _ (mem_append_right _ mem_cons_self)
      simp only [wspPaths, singleEntry] at hadd
      split at hadd
      · next hall =>
        obtain rfl := Option.some.inj hadd
        refine h.update henters hy (Nat.add_le_add_right hle _) fun x hx => ?_
        rw [hx] at hall
        simpa using hall
      · cases hadd

/-! ## The paths of parents -/

section Paths

variable {weight : E → Nat} {G : HopGraph V (Hop V E)} {source node : V}
  {entries : V → Option (WeightedParent V E)} {x : WeightedParent V E}

/-- The loop goes along the parents, if only the source has the cost zero. -/
theorem fillPath_eq (hsource : entries source = some ⟨none, 0⟩)
    (hpos : ∀ {node x}, node ≠ source → entries node = some x → x.cost ≠ 0)
    {walk : List (Hop V E)} (hwalk : (parentHops entries).IsWalk source walk node)
    (hx : entries node = some x) {fuel : Nat} (hfuel : walk.length ≤ fuel)
    (curPath : List (WeightedParent V E)) : ∃ path,
      fillPath entries fuel x (curPath ++ [x]) = some (curPath ++ path) ∧
        path.filterMap (·.toParentEntry) = walk.map fun hop => ⟨hop, 2 ^ 16 - 1⟩ := by
  induction walk generalizing node x fuel curPath with
  | nil =>
    obtain rfl : node = source := hwalk
    obtain rfl := Option.mem_unique hx hsource
    unfold fillPath
    simp
  | cons hop walk ih =>
    obtain ⟨⟨c, he⟩, hrest⟩ := hwalk
    obtain rfl := Option.mem_unique hx he
    have hne : node ≠ source := by
      rintro rfl
      rw [hsource] at he
      cases he
    obtain ⟨y, hy⟩ : ∃ y, entries hop.node = some y := by
      cases walk with
      | nil =>
        have heq : hop.node = source := hrest
        exact ⟨_, heq ▸ hsource⟩
      | cons hop' walk => exact ⟨_, hrest.1.choose_spec⟩
    obtain ⟨fuel, rfl⟩ : ∃ n, fuel = n + 1 := ⟨fuel - 1, by rw [length_cons] at hfuel; omega⟩
    obtain ⟨path, hpath, hhops⟩ := ih hrest hy (Nat.le_of_succ_le_succ hfuel) (curPath ++ [⟨some hop, c⟩])
    refine ⟨⟨some hop, c⟩ :: path, ?_, ?_⟩
    · unfold fillPath
      simp only [hpos hne he, if_false, Option.bind_some, hy]
      rw [hpath, append_assoc, singleton_append]
    · rw [filterMap_cons, hhops]
      rfl

variable (h : ParentTree weight G source entries) (horigin : ∀ hop, G.origin hop = hop.node)
include h horigin

/-- The way back along parents is a walk. -/
theorem ParentTree.isWalk {walk : List (Hop V E)}
    (hwalk : (parentHops entries).IsWalk source walk node) : G.IsWalk source walk node :=
  hwalk.mono (funext fun hop => (horigin hop).symm) fun ⟨_, he⟩ => (h.of_enters he).2.1

/-- If the costs are least weights, the walk along parents has the cost as its weight. -/
theorem ParentTree.walkWeight_eq (hmin : ∀ {node x}, entries node = some x → G.IsMinWeight source (hopWeight weight) x.cost node)
    {walk : List (Hop V E)} (hwalk : (parentHops entries).IsWalk source walk node)
    (hx : entries node = some x) : HopGraph.walkWeight (hopWeight weight) walk = x.cost := by
  induction walk generalizing node x with
  | nil =>
    obtain rfl : node = source := hwalk
    obtain rfl := Option.mem_unique hx h.atSource
    rfl
  | cons hop walk ih =>
    obtain ⟨⟨c, he⟩, hrest⟩ := hwalk
    obtain rfl := Option.mem_unique hx he
    obtain ⟨-, henters, y, hy, hle⟩ := h.of_enters he
    have hback : c ≤ y.cost + weight hop.edge :=
      (hmin he).le_of_hasWeight ((horigin hop ▸ (hmin hy).has : G.HasWeight source _ y.cost _).cons henters)
    rw [HopGraph.walkWeight_cons, ih hrest hy, add_comm]
    exact le_antisymm hle hback

end Paths

/-! ## Exactness -/

section Exact

variable [DecidableEq V] {g : OnDiskGraph V E} {direction : ExtendDirection} {weight : E → Nat}
  {schedule : WeightedSchedule V E} {upperBound : UInt16} {source : V}

theorem wspDestinationRow_eq_some {costs : V → Option Nat} {mask : V → Bool} {dst : V} {row : CostRow V} :
    wspDestinationRow costs source mask dst = some row ↔
      mask dst = true ∧ dst ≠ source ∧ row.dst = dst ∧ costs dst = some row.cost := by
  unfold wspDestinationRow
  cases mask dst with
  | false => simp
  | true =>
    by_cases hs : dst = source
    · simp [hs]
    · obtain ⟨rowDst, cost⟩ := row
      simp only [Bool.not_true, Bool.false_eq_true, if_false, hs, Option.map_eq_some_iff,
        CostRow.mk.injEq, ne_eq, not_false_eq_true, true_and]
      constructor
      · rintro ⟨c, hc, rfl, rfl⟩
        exact ⟨rfl, hc⟩
      · rintro ⟨rfl, hc⟩
        exact ⟨cost, hc, rfl, rfl⟩

theorem weightedSPDestinations_exact
    (hconv : (run g direction wspDestinations weight schedule upperBound source).Converged)
    {nodes : List V} (hnodes : nodes.Nodup) (mask : V → Bool) :
    CostsExact (IsWeightedDestination (g.hops direction) weight source nodes mask)
      (weightedSPDestinations g direction weight schedule upperBound source nodes mask) := by
  have htrue : WeightedInvariant wspDestinations weight (g.hops direction) source fun _ _ _ => True :=
    ⟨trivial, fun _ _ => trivial, fun _ _ _ _ _ => trivial⟩
  have hinv := run_spec htrue schedule upperBound
  have hperm := schedule.mapOrder_perm nodes
  refine ⟨Nodup.filterMap (fun dst dst' row h h' => ?_) (hperm.nodup_iff.mpr hnodes), fun row => ?_⟩
  · exact (wspDestinationRow_eq_some.mp h).2.2.1.symm.trans (wspDestinationRow_eq_some.mp h').2.2.1
  · have hcost : ∀ {node c}, _ ↔ (g.hops direction).IsMinWeight source (hopWeight weight) c node :=
      hinv.isMinWeight_iff (fun _ => rfl) hconv
    simp only [weightedSPDestinations, mem_filterMap, wspDestinationRow_eq_some, hperm.mem_iff, hinv.pinned]
    constructor
    · rintro ⟨dst, hdst, hmask, hne, rfl, hc⟩
      exact ⟨hdst, hmask, hne, hcost.mp (by rw [hc]; rfl)⟩
    · rintro ⟨hdst, hmask, hne, hmin⟩
      obtain ⟨c, hc, hceq⟩ := Option.map_eq_some_iff.mp (hcost.mpr hmin)
      exact ⟨row.dst, hdst, hmask, hne, rfl, hc.trans (congrArg some hceq)⟩

theorem wspPaths_run (g : OnDiskGraph V E) (direction : ExtendDirection) (weight : E → Nat)
    (schedule : WeightedSchedule V E) (upperBound : UInt16) (source : V) :
    let s := run g direction wspPaths weight schedule upperBound source
    ParentTree weight (g.hops direction) source s.entries ∧ (s.Converged → ∀ {node c},
      (s.entries node).map (·.cost) = some c ↔ (g.hops direction).IsMinWeight source (hopWeight weight) c node) := by
  have hparents : WeightedInvariant wspPaths weight (g.hops direction) source
    fun _ entries _ => ParentTree weight (g.hops direction) source entries := wspPaths_invariant
  have hinv := run_spec hparents schedule upperBound
  exact ⟨hinv.extra, fun hconv => hinv.isMinWeight_iff (fun _ => rfl) hconv⟩

theorem wspWriteInternal_eq (info : PathsOutputWriterInfo V) {G : HopGraph V (Hop V E)}
    {entries : V → Option (WeightedParent V E)} (h : ParentTree weight G source entries)
    (hpos : ∀ {node x}, node ≠ source → entries node = some x → x.cost ≠ 0) (dst : V) :
    ∃ rows rounds, (∀ fuel, rounds ≤ fuel → info.wspWriteInternal entries source fuel dst = some rows) ∧
      (rows = [] ∧ (dst = source ∨ entries dst = none) ∨
        ∃ x walk, rows = [info.weightedRow dst walk x.cost] ∧ dst ≠ source ∧ entries dst = some x ∧
          (parentHops entries).IsWalk source walk dst) := by
  by_cases hsource : dst = source
  · exact ⟨[], 0, fun _ _ => by simp [wspWriteInternal, hsource], .inl ⟨rfl, .inl hsource⟩⟩
  cases hx : entries dst with
  | none => exact ⟨[], 0, fun _ _ => by simp [wspWriteInternal, hx], .inl ⟨rfl, .inr rfl⟩⟩
  | some x =>
    obtain ⟨walk, hwalk⟩ := h.rooted (by simp [hx] : entries dst ≠ none)
    refine ⟨[info.weightedRow dst walk x.cost], walk.length, fun fuel hfuel => ?_,
      .inr ⟨x, walk, rfl, hsource, rfl, hwalk⟩⟩
    obtain ⟨path, hpath, hhops⟩ := fillPath_eq h.atSource hpos hwalk hx hfuel []
    rw [nil_append] at hpath
    simp [wspWriteInternal, hsource, hx, hpath, hhops, pathRow_eq, comp_def, weightedRow]

section Rows

variable {G : HopGraph V (Hop V E)} {data : DensityMap V (Option (WeightedParent V E))}
  (horigin : ∀ hop, G.origin hop = hop.node)
  (hcost : ∀ {node c}, (data.get none node).map (·.cost) = some c ↔
    G.IsMinWeight source (hopWeight weight) c node)

include horigin hcost

theorem wspRows_exact (info : PathsOutputWriterInfo V) (htree : ParentTree weight G source (data.get none))
    (hpos : ∀ node, node ≠ source → ¬ G.IsMinWeight source (hopWeight weight) 0 node)
    (schedule : Schedule V E) {nodes : List V} (hnodes : nodes.Nodup) (mask : V → Bool) :
    ∃ rounds, ∀ fuel, rounds ≤ fuel → ∃ rows, writeAll mask (info.wspWriteInternal (data.get none) source fuel)
        (info.destinations schedule nodes source data) = some rows ∧
      WeightedPathsExact info G weight source (IsWeightedDestination G weight source nodes mask) rows := by
  have hmin : ∀ {node x}, data.get none node = some x →
      G.IsMinWeight source (hopWeight weight) x.cost node := fun hx => hcost.mp (by rw [hx]; rfl)
  choose rows rounds hrun hrows using wspWriteInternal_eq info htree fun hne hx h0 => hpos _ hne (h0 ▸ hmin hx)
  have hdst : ∀ dst, ∀ row ∈ rows dst, row.dst = dst := by
    intro dst row hrow
    obtain ⟨hnil, -⟩ | ⟨x, walk, heq, -⟩ := hrows dst
    · rw [hnil] at hrow
      cases hrow
    · rw [heq] at hrow
      rw [mem_singleton.mp hrow]
      rfl
  obtain ⟨rounds, hall⟩ := writeAll_eq mask (info.destinations schedule nodes source data)
    fun dst _ _ => ⟨rounds dst, hrun dst⟩
  refine ⟨rounds, fun fuel hf => ⟨_, hall fuel hf, fun row hrow => ?_, fun row hrow => ?_⟩⟩
  · obtain ⟨dst, hmem, hrow⟩ := mem_flatMap.mp hrow
    obtain ⟨hmem, hin⟩ := mem_filter.mp hmem
    obtain ⟨hnil, -⟩ | ⟨x, walk, heq, hne, hx, -⟩ := hrows dst
    · rw [hnil] at hrow
      cases hrow
    · rw [heq] at hrow
      obtain rfl := mem_singleton.mp hrow
      exact ⟨mem_of_mem_destinations hmem, hin, hne, hmin hx⟩
  · obtain ⟨y, hy, hcosteq⟩ := Option.map_eq_some_iff.mp (hcost.mpr hrow.isMinWeight)
    obtain ⟨-, hsrc | hnone⟩ | ⟨x, walk, heq, -, hx, hwalk⟩ := hrows row.dst
    · exact absurd hsrc hrow.ne_source
    · rw [hnone] at hy
      cases hy
    · obtain rfl := Option.mem_unique hx hy
      refine ⟨walk, htree.isWalk horigin hwalk, (htree.walkWeight_eq horigin hmin hwalk hx).trans hcosteq, ?_⟩
      rw [← hcosteq, ← heq]
      refine filter_flatMap_destinations hdst hnodes hrow.mem hrow.mask (fun hstate hkey => ?_) fun _ => ?_
      · simp [DensityMap.get, hstate, hkey] at hx
      · obtain ⟨hnil, -⟩ | ⟨_, _, _, hne, -⟩ := hrows source
        · exact hnil
        · exact absurd rfl hne

omit horigin in
/-- A node other than the source with the cost zero gets an empty path. -/
theorem wspRows_of_zero (info : PathsOutputWriterInfo V) (schedule : Schedule V E) {node : V}
    (hne : node ≠ source) (hzero : G.IsMinWeight source (hopWeight weight) 0 node) :
    ∃ rounds, ∀ fuel, rounds ≤ fuel → ∃ rows,
      writeAll (fun _ => true) (info.wspWriteInternal (data.get none) source fuel)
        (info.destinations schedule [node] source data) = some rows ∧
      rows.filter (·.dst = node) = [⟨info.pathRow node [], 0⟩] := by
  obtain ⟨x, hx, hxcost⟩ := Option.map_eq_some_iff.mp (hcost.mpr hzero)
  have hwrite : ∀ fuel, info.wspWriteInternal (data.get none) source fuel node =
      some [⟨info.pathRow node [], 0⟩] := by
    intro fuel
    have hfill : fillPath (data.get none) fuel x [x] = some [] := by
      unfold fillPath
      simp [hxcost]
    simp [wspWriteInternal, hne, hx, hfill, hxcost]
  obtain ⟨rows, hrows⟩ : ∃ rows : V → List (WeightedPathRow V E),
      rows = fun dst => if dst = node then [⟨info.pathRow node [], 0⟩] else [] := ⟨_, rfl⟩
  have hrowsNode : rows node = [⟨info.pathRow node [], 0⟩] := by simp [hrows]
  have hdst : ∀ dst, ∀ row ∈ rows dst, row.dst = dst := by
    intro dst row hrow
    rw [hrows] at hrow
    by_cases hd : dst = node
    · simp only [hd, if_true, mem_singleton] at hrow
      rw [hrow, hd]
      exact dst_pathRow ..
    · simp [hd] at hrow
  have hone : ∀ dst ∈ info.destinations schedule [node] source data, true = true → ∃ rounds, ∀ fuel,
      rounds ≤ fuel → info.wspWriteInternal (data.get none) source fuel dst = some (rows dst) := by
    intro dst hmem _
    obtain rfl := mem_singleton.mp (mem_of_mem_destinations hmem)
    exact ⟨0, fun fuel _ => (hwrite fuel).trans (congrArg some hrowsNode.symm)⟩
  obtain ⟨rounds, hall⟩ := writeAll_eq (fun _ => true) _ hone
  refine ⟨rounds, fun fuel hf => ⟨_, hall fuel hf, ?_⟩⟩
  rw [← hrowsNode]
  refine filter_flatMap_destinations hdst (nodup_singleton _) mem_cons_self rfl (fun hstate hkey => ?_) fun _ => ?_
  · simp [DensityMap.get, hstate, hkey] at hx
  · simp [hrows, hne.symm]

end Rows

/-- In runs that converge, the paths and the destinations of weighted shortest paths are as asked for, for
all output tables and masks, if and only if no node other than the source has the least weight zero. -/
theorem weightedSPPaths_exact_iff (info : PathsOutputWriterInfo V) (hwrite : info.writePath = true)
    (g : OnDiskGraph V E) (direction : ExtendDirection) (weight : E → Nat)
    (schedule schedule' : WeightedSchedule V E) (upperBound : UInt16) (source : V)
    (hpaths : (run g direction wspPaths weight schedule upperBound source).Converged)
    (hdests : (run g direction wspDestinations weight schedule' upperBound source).Converged) :
    (∀ (nodes : List V) (mask : V → Bool), nodes.Nodup →
      let Dest := IsWeightedDestination (g.hops direction) weight source nodes mask
      CostsExact Dest (weightedSPDestinations g direction weight schedule' upperBound source nodes mask) ∧
      ∃ rounds, ∀ fuel, rounds ≤ fuel → ∃ rows, info.weightedSPPaths g direction weight schedule
        upperBound source nodes mask fuel = some rows ∧
          WeightedPathsExact info (g.hops direction) weight source Dest rows) ↔
    ∀ node, node ≠ source → ¬ (g.hops direction).IsMinWeight source (hopWeight weight) 0 node := by
  obtain ⟨htree, hcost⟩ := wspPaths_run g direction weight schedule upperBound source
  replace hcost := @hcost hpaths
  constructor
  · intro hexact node hne hzero
    obtain ⟨-, m, hm⟩ := hexact [node] (fun _ => true) (nodup_singleton node)
    obtain ⟨n, hn⟩ := wspRows_of_zero hcost info schedule.toSchedule hne hzero
    obtain ⟨rows, hrun, -, hrows⟩ := hm (m + n) (Nat.le_add_right m n)
    obtain ⟨rows', hrun', hrows'⟩ := hn (m + n) (Nat.le_add_left n m)
    obtain rfl := Option.mem_unique hrun hrun'
    obtain ⟨walk, hwalk, -, heq⟩ := hrows ⟨node, 0⟩ ⟨mem_cons_self, rfl, hne, hzero⟩
    -- The row of a walk to another node than the source has an edge.
    have hrow := congrArg (·.edgeIDs) (cons.inj (hrows'.symm.trans heq)).1
    have hnil : walk = [] := by
      simp only [pathRow_eq, weightedRow, walkRow, hwrite] at hrow
      cases hflip : info.flipPath <;> simpa [hflip] using hrow
    subst hnil
    exact hne hwalk
  · intro hpos nodes mask hnodes
    exact ⟨weightedSPDestinations_exact hdests hnodes mask,
      wspRows_exact (fun _ => rfl) hcost info htree hpos schedule.toSchedule hnodes mask⟩

/-- No visit is read late. -/
def WeightedSchedule.inOrder (V E : Type) : WeightedSchedule V E := ⟨.inOrder V E, fun _ _ => 0⟩

/-- A relationship of weight zero: the node that it leads to gets an empty path. -/
theorem weightedSPPaths_zeroWeight :
    (run oneRel .fwd wspPaths (fun _ => 0) (.inOrder Nat Nat) 30 0).Converged ∧
      weightedSPPaths { lowerBound := 1, writePath := true } oneRel .fwd
        (fun _ => 0) (.inOrder Nat Nat) 30 0 [0, 1] (fun _ => true) 5 =
          some [⟨⟨1, 0, [], [], []⟩, 0⟩] ∧
      ¬ ∃ walk, (oneRel.hops .fwd).IsWalk 0 walk 1 ∧ walk.map (·.edge) = [] := by
  refine ⟨by decide, by decide, ?_⟩
  rintro ⟨walk, hwalk, hnil⟩
  obtain rfl := map_eq_nil_iff.mp hnil
  cases hwalk

theorem weightedSPPaths_exact_twoWays :
    (run twoWays .fwd wspPaths (fun _ => 3) (.inOrder Nat Nat) 30 0).Converged ∧
      (run twoWays .fwd wspDestinations (fun _ => 3) (.inOrder Nat Nat) 30 0).Converged ∧
      ∀ (nodes : List Nat) (mask : Nat → Bool), nodes.Nodup →
        let info : PathsOutputWriterInfo Nat := { lowerBound := 1, writePath := true }
        let Dest := IsWeightedDestination (twoWays.hops .fwd) (fun _ => 3) 0 nodes mask
        CostsExact Dest
          (weightedSPDestinations twoWays .fwd (fun _ => 3) (.inOrder Nat Nat) 30 0 nodes mask) ∧
        ∃ rounds, ∀ fuel, rounds ≤ fuel → ∃ rows, info.weightedSPPaths twoWays .fwd (fun _ => 3)
          (.inOrder Nat Nat) 30 0 nodes mask fuel = some rows ∧
            WeightedPathsExact info (twoWays.hops .fwd) (fun _ => 3) 0 Dest rows := by
  refine ⟨by decide, by decide, ?_⟩
  refine (weightedSPPaths_exact_iff { lowerBound := 1, writePath := true } rfl twoWays .fwd (fun _ => 3)
    (.inOrder Nat Nat) (.inOrder Nat Nat) 30 0 (by decide) (by decide)).mpr fun node hne hzero => ?_
  obtain ⟨walk, hwalk, hweight⟩ := hzero.has
  cases walk with
  | nil => exact hne hwalk
  | cons hop walk =>
    rw [HopGraph.walkWeight_cons] at hweight
    have : hopWeight (fun _ => 3) hop = 3 := rfl
    omega

end Exact

end CycleJoin
