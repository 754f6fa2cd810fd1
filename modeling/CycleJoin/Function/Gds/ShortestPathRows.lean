import CycleJoin.Function.Gds.ShortestPathAlgorithms

/-!
# The rows of unweighted shortest paths

* `kept_of_shortest`: no semantic rejects a shortest walk.
* `shortestPaths_exact_iff`: which rows the four algorithms write, and when these are the rows that are
  asked for.
-/

namespace CycleJoin

open List PathsOutputWriterInfo SPState HopGraph SPFrontierPair

variable {V E : Type} [DecidableEq V]

/-! ## What is asked for -/

/-- A destination: a node of the output tables and the mask within the bound, with its distance. -/
def IsDestination (G : HopGraph V (Hop V E)) (source : V) (nodes : List V)
    (outputNodeMask : Option (Finset V)) (upperBound : UInt16) (row : DestinationRow V) : Prop :=
  row.dst ∈ nodes ∧ inOutputNodeMask outputNodeMask row.dst = true ∧ row.dst ≠ source ∧
    row.length ≤ upperBound.toNat ∧ G.IsDist source row.length row.dst

/-- One row for each destination. -/
def SingleDestinationsExact (Dest : DestinationRow V → Prop) (rows : List (DestinationRow V)) : Prop :=
  rows.Nodup ∧ ∀ row, row ∈ rows ↔ Dest row

/-- One row for each shortest walk to a destination. -/
def AllDestinationsExact (G : HopGraph V (Hop V E)) (source : V) (Dest : DestinationRow V → Prop)
    (rows : List (DestinationRow V)) : Prop :=
  ∀ row, (Dest row → G.WalkCount source row.length row.dst (rows.count row)) ∧ (row ∈ rows → Dest row)

section
variable (info : PathsOutputWriterInfo V) (G : HopGraph V (Hop V E)) (source : V)
  (Dest : DestinationRow V → Prop) (rows : List (PathRow V E))

/-- The row of one shortest walk for each destination. -/
def SinglePathsExact : Prop :=
  (∀ row ∈ rows, Dest ⟨row.dst, row.length⟩) ∧
    ∀ row, Dest row → ∃ walk, G.IsWalk source walk row.dst ∧ walk.length = row.length ∧
      rows.filter (·.dst = row.dst) = [info.walkRow row.dst walk]

/-- The rows of all shortest walks for each destination. -/
def AllPathsExact : Prop :=
  (∀ row ∈ rows, Dest ⟨row.dst, row.length⟩) ∧
    ∀ row, Dest row → RowsOfWalks info rows row.dst fun walk =>
      G.IsWalk source walk row.dst ∧ walk.length = row.length

end

/-! ## Shortest walks pass every semantic -/

section Kept

variable {g : OnDiskGraph V E} {direction : ExtendDirection} {source : V}

variable {walk : List (Hop V E)} {node : V}

omit [DecidableEq V] in
/-- The hops of a shortest walk start at smaller distances than its end has. -/
theorem exists_isDist_of_mem {G : HopGraph V (Hop V E)}
    (h : (G.shortest source).IsWalk source walk node) {hop : Hop V E} (hmem : hop ∈ walk) :
    ∃ k < walk.length, G.IsDist source k (G.origin hop) ∧ ∃ node, G.enters hop node ∧
      G.IsDist source (k + 1) node := by
  induction walk generalizing node with
  | nil => cases hmem
  | cons first walk ih =>
    obtain rfl | hmem := mem_cons.mp hmem
    · obtain ⟨⟨henters, k, hk, hnext⟩, hw⟩ := h
      have hdist := (isWalk_shortest.mp hw).2
      obtain rfl : k = walk.length := hk.unique hdist
      exact ⟨walk.length, Nat.lt_succ_self _, hk, node, henters, hnext⟩
    · obtain ⟨k, hlt, hk⟩ := ih h.2 hmem
      exact ⟨k, Nat.lt_succ_of_lt hlt, hk⟩

omit [DecidableEq V] in
theorem pairwise_of_shortest (h : ((g.hops direction).shortest source).IsWalk source walk node) :
    walk.Pairwise fun hop hop' => hop.node ≠ hop'.node ∧ hop.edge ≠ hop'.edge := by
  induction walk generalizing node with
  | nil => exact .nil
  | cons hop walk ih =>
    refine pairwise_cons.mpr ⟨fun hop' hmem => ?_, ih h.2⟩
    obtain ⟨⟨henters, j, hj, hnext⟩, hw⟩ := h
    obtain ⟨k, hlt, hk, node', henters', hnext'⟩ := exists_isDist_of_mem hw hmem
    obtain rfl := hj.unique (isWalk_shortest.mp hw).2
    have hnode : hop.node ≠ hop'.node := fun hn => by
      have hk : (g.hops direction).IsDist source k hop.node := hn ▸ hk
      have := hk.unique hj
      omega
    refine ⟨hnode, fun heq => ?_⟩
    -- The same relationship at another distance, in one direction or the other.
    obtain hvisit | ⟨-, hn⟩ := OnDiskGraph.visits_of_edge_eq henters henters' heq
    · exact hnode (congrArg (·.hop.node) hvisit)
    · have hn : node = hop'.node := hn
      have hk : (g.hops direction).IsDist source k node := hn ▸ hk
      have := hk.unique hnext
      omega

variable [DecidableEq E] {info : PathsOutputWriterInfo V} {parents : V → ParentList V E}

theorem kept_of_shortest (hmask : info.pathNodeMask = none) (hne : walk ≠ [])
    (h : ((g.hops direction).shortest source).IsWalk source walk node) : info.Kept parents walk := by
  have hpasses : info.PassesMask walk := fun mask hm => by simp [hmask] at hm
  by_cases hsem : info.semantic = .acyclic
  · have hnodup : ((parentsOf walk).map (·.node)).Nodup := by
      have hmap := congrArg (map Hop.node) (map_toHop_parentsOf walk)
      rw [map_map] at hmap
      exact hmap ▸ pairwise_map.mpr ((pairwise_of_shortest h).imp And.left)
    cases walk with
    | nil => exact absurd rfl hne
    | cons hop walk =>
      refine ⟨by simp [checkPathNodeMask, hmask], ?_⟩
      exact searchKeeps_of_nodup hsem (by simp) (by simp [checkPathNodeMask, hmask]) hnodup.of_cons _
  · rw [kept_iff_passes hsem hne]
    refine ⟨hpasses, ?_⟩
    cases hs : info.semantic with
    | walk => trivial
    | trail => exact pairwise_map.mpr ((pairwise_of_shortest h).imp And.right)
    | acyclic => exact absurd hs hsem

end Kept

/-! ## Rows of destinations -/

section Destinations

variable {G : HopGraph V (Hop V E)} {source : V} {nodes : List V} {outputNodeMask : Option (Finset V)}
  {upperBound : UInt16} {schedule : Schedule V E} {p : SPFrontierPair V}

omit [DecidableEq V] in
theorem destinations_nodup (hnodes : nodes.Nodup) : (p.destinations schedule nodes).Nodup := by
  unfold SPFrontierPair.destinations
  split
  · exact (schedule.mapOrder_perm _).nodup_iff.mpr (hnodes.filter _)
  · exact (schedule.mapOrder_perm _).nodup_iff.mpr hnodes

variable {row : DestinationRow V} {dst : V}

theorem destinationRow_eq_some : p.destinationRow source dst = some row ↔ dst = row.dst ∧ row.dst ≠ source ∧
      p.getNextFrontierValue row.dst = row.length ∧ row.length ≠ frontierUnvisited := by
  unfold destinationRow
  constructor
  · intro h
    split at h
    · cases h
    · next hsource =>
      simp only at h
      split at h
      · cases h
      · next hvisited =>
        obtain rfl := Option.some.inj h
        exact ⟨rfl, hsource, rfl, hvisited⟩
  · rintro ⟨rfl, hsource, hvalue, hvisited⟩
    simp [hsource, hvalue, hvisited]

/-- A visited node is written if it is in the output tables. -/
theorem mem_destinations (h : p.destinationRow source dst = some row) :
    dst ∈ p.destinations schedule nodes ↔ dst ∈ nodes := by
  obtain ⟨rfl, -, hvalue, hvisited⟩ := destinationRow_eq_some.mp h
  unfold SPFrontierPair.destinations
  cases hstate : p.frontier.state with
  | dense => exact (schedule.mapOrder_perm _).mem_iff
  | sparse =>
    rw [(schedule.mapOrder_perm _).mem_iff, mem_filter]
    refine and_iff_left ?_
    simp only [getNextFrontierValue, DensityMap.get, hstate] at hvalue
    cases hentry : p.frontier.sparse row.dst with
    | none =>
      rw [hentry] at hvalue
      exact absurd hvalue.symm hvisited
    | some _ => rfl

/-- A destination has been found. -/
theorem SPState.Ended.found_of_mask {A : Type} {I : GDSDensityState → Nat → A → Prop} {maxIter n : Nat}
    {s : SPState V A} (h : Ended G source I outputNodeMask maxIter n s) {node : V} {k : Nat}
    (hin : inOutputNodeMask outputNodeMask node = true) (hk : k ≤ maxIter)
    (hdist : G.IsDist source k node) : k ≤ n := by
  refine h.found node ?_ k hk hdist
  rintro mask rfl
  simpa [inOutputNodeMask] using hin

/-- The rows that the frontier gives: those of the destinations whose distance is not the value for
unvisited nodes. -/
theorem mem_destinationRow_iff {A : Type} {I : GDSDensityState → Nat → A → Prop} {n : Nat}
    {s : SPState V A} (h : Ended G source I outputNodeMask upperBound.toNat n s)
    (hn : n ≤ upperBound.toNat) :
    (row.dst ∈ (s.frontierPair.destinations schedule nodes).filter (inOutputNodeMask outputNodeMask) ∧
        s.frontierPair.destinationRow source row.dst = some row) ↔
      (IsDestination G source nodes outputNodeMask upperBound row ∧ row.length ≠ frontierUnvisited) := by
  have hvalue := (h.value row.dst).isDist_iff (k := row.length)
  rw [mem_filter]
  constructor
  · rintro ⟨⟨hmem, hin⟩, hrow⟩
    obtain ⟨-, hsource, hdist⟩ := destinationRow_eq_some.mp hrow
    obtain ⟨hle, hne, hdist⟩ := hvalue.mp hdist
    exact ⟨⟨(mem_destinations hrow).mp hmem, hin, hsource, by omega, hdist⟩, hne⟩
  · rintro ⟨⟨hmem, hin, hsource, hle, hdist⟩, hne⟩
    have hfound := h.found_of_mask hin hle hdist
    have hrow := destinationRow_eq_some.mpr ⟨rfl, hsource, hvalue.mpr ⟨hfound, hne, hdist⟩⟩
    exact ⟨⟨(mem_destinations hrow).mpr hmem, hin⟩, hrow⟩

/-- `SingleSPDestinationsAlgorithm` misses the destinations at the distance that stands for unvisited
nodes, and no others. -/
theorem singleSPDestinations_exact_iff (g : OnDiskGraph V E) (direction : ExtendDirection)
    (schedule : SPSchedule V E) (upperBound : UInt16) (source : V) {nodes : List V}
    (hnodes : nodes.Nodup) (outputNodeMask : Option (Finset V)) :
    SingleDestinationsExact (IsDestination (g.hops direction) source nodes outputNodeMask upperBound)
        (singleSPDestinations g direction schedule upperBound source nodes outputNodeMask) ↔
      ∀ row, IsDestination (g.hops direction) source nodes outputNodeMask upperBound row →
        row.length ≠ frontierUnvisited := by
  have haux : AuxInvariant sspDestinations (g.hops direction) source fun _ _ _ => True := sspDestinations_invariant
  obtain ⟨n, hn, hended, -⟩ := run_spec haux schedule outputNodeMask upperBound
  have hmem : ∀ row, row ∈ singleSPDestinations g direction schedule upperBound source nodes
      outputNodeMask ↔ IsDestination (g.hops direction) source nodes outputNodeMask upperBound row ∧
        row.length ≠ frontierUnvisited := by
    intro row
    rw [← mem_destinationRow_iff hended hn]
    simp only [singleSPDestinations, mem_flatMap, Option.mem_toList]
    constructor
    · rintro ⟨dst, hdst, hrow⟩
      obtain ⟨rfl, -⟩ := destinationRow_eq_some.mp hrow
      exact ⟨hdst, hrow⟩
    · exact fun h => ⟨row.dst, h⟩
  have hnodup : (singleSPDestinations g direction schedule upperBound source nodes outputNodeMask).Nodup := by
    have hsmall : ∀ row : Option (DestinationRow V), row.toList.Nodup := by
      rintro (_ | row) <;> simp
    refine nodup_flatMap.mpr ⟨fun dst _ => ?_, ?_⟩
    · exact hsmall _
    · refine ((destinations_nodup hnodes).filter _).imp fun hne => ?_
      intro row hrow hrow'
      obtain ⟨rfl, -⟩ := destinationRow_eq_some.mp (Option.mem_toList.mp hrow)
      obtain ⟨rfl, -⟩ := destinationRow_eq_some.mp (Option.mem_toList.mp hrow')
      exact hne rfl
  rw [SingleDestinationsExact, and_iff_right hnodup]
  simp [hmem]

/-! ## Rows with multiplicities -/

variable {R : Type}

omit [DecidableEq V] in
/-- The loop that appends rows ends if the multiplicity fits its counter. -/
theorem appendLoop_eq (row : R) {multiplicity : UInt64} (hfits : multiplicity.toNat < 2 ^ 32)
    {fuel : Nat} {i : UInt32} (hi : i.toNat ≤ multiplicity.toNat)
    (hfuel : multiplicity.toNat - i.toNat ≤ fuel) :
    appendLoop row multiplicity fuel i = some (replicate (multiplicity.toNat - i.toNat) row) := by
  induction fuel generalizing i with
  | zero =>
    have hle : ¬ i.toUInt64 < multiplicity := by
      rw [UInt64.lt_iff_toNat_lt, UInt32.toNat_toUInt64]
      omega
    rw [appendLoop, if_neg hle, show multiplicity.toNat - i.toNat = 0 by omega, replicate_zero]
  | succ fuel ih =>
    rw [appendLoop]
    by_cases hlt : i.toUInt64 < multiplicity
    · have hlt' := hlt
      rw [UInt64.lt_iff_toNat_lt, UInt32.toNat_toUInt64] at hlt'
      have hsucc : (i + 1).toNat = i.toNat + 1 := by
        rw [UInt32.toNat_add, UInt32.toNat_one]
        exact Nat.mod_eq_of_lt (by omega)
      rw [if_pos hlt]
      simp only [ih (i := i + 1) (by omega) (by omega), Option.map_some, hsucc]
      rw [← replicate_succ, show multiplicity.toNat - (i.toNat + 1) + 1 = multiplicity.toNat - i.toNat by omega]
    · rw [if_neg hlt]
      rw [UInt64.lt_iff_toNat_lt, UInt32.toNat_toUInt64] at hlt
      rw [show multiplicity.toNat - i.toNat = 0 by omega, replicate_zero]

omit [DecidableEq V] in
theorem appendLoop_none (row : R) {multiplicity : UInt64}
    (hlarge : 2 ^ 32 ≤ multiplicity.toNat) (fuel : Nat) (i : UInt32) :
    appendLoop row multiplicity fuel i = none := by
  have hlt : ∀ i : UInt32, i.toUInt64 < multiplicity := fun i => by exact i.toNat_lt.trans_le hlarge
  induction fuel generalizing i with
  | zero => rw [appendLoop, if_pos (hlt i)]
  | succ fuel ih =>
    rw [appendLoop, if_pos (hlt i)]
    simp [ih]

omit [DecidableEq V] in
theorem writeAll_eq_none {mask : V → Bool} {write : V → Option (List R)} {dsts : List V}
    (hmem : dst ∈ dsts) (hmask : mask dst = true) (hnone : write dst = none) :
    writeAll mask write dsts = none := by
  rw [writeAll, Option.map_eq_none_iff]
  induction dsts with
  | nil => cases hmem
  | cons first dsts ih =>
    obtain rfl | hmem := mem_cons.mp hmem
    · simp [hmask, hnone]
    · simp [ih hmem]

/-- Rows that say where they come from are counted there. -/
theorem count_flatMap_of_key [DecidableEq R] {rows : V → List R} {key : R → V} {row : R}
    (hkey : ∀ node, ∀ row ∈ rows node, key row = node) {list : List V} (hnodup : list.Nodup)
    (hmem : key row ∈ list) : (list.flatMap rows).count row = (rows (key row)).count row := by
  rw [← count_filter (p := (key · = key row)) (by simp), filter_dst_flatMap hkey, filter_eq,
    count_eq_one_of_mem hnodup hmem]
  simp

/-- The rows of a destination, for multiplicities that fit the counter. -/
def multiplicityRows (p : SPFrontierPair V) (source : V) (multiplicities : V → UInt64) (dst : V) :
    List (DestinationRow V) :=
  match p.destinationRow source dst with
  | none => []
  | some row => replicate (multiplicities dst).toNat row

theorem count_multiplicityRows {multiplicities : V → UInt64} {list : List V} (hnodup : list.Nodup)
    (row : DestinationRow V) :
    (row.dst ∈ list ∧ p.destinationRow source row.dst = some row →
        (list.flatMap (multiplicityRows p source multiplicities)).count row = (multiplicities row.dst).toNat) ∧
      (row ∈ list.flatMap (multiplicityRows p source multiplicities) →
        row.dst ∈ list ∧ p.destinationRow source row.dst = some row) := by
  have hkey : ∀ dst, ∀ row ∈ multiplicityRows p source multiplicities dst,
      p.destinationRow source dst = some row ∧ row.dst = dst := by
    intro dst row hrow
    unfold multiplicityRows at hrow
    split at hrow
    · cases hrow
    · next row' heq =>
      obtain ⟨-, rfl⟩ := mem_replicate.mp hrow
      exact ⟨heq, (destinationRow_eq_some.mp heq).1.symm⟩
  constructor
  · rintro ⟨hmem, hrow⟩
    rw [count_flatMap_of_key (fun dst row hrow => (hkey dst row hrow).2) hnodup hmem, multiplicityRows, hrow]
    exact count_replicate_self
  · intro hmem
    obtain ⟨dst, hdst, hrow⟩ := mem_flatMap.mp hmem
    obtain ⟨heq, rfl⟩ := hkey dst row hrow
    exact ⟨hdst, heq⟩

theorem multiplicityRows_exact_iff {s : SPState V (MultiplicitiesPair V)} {n : Nat}
    (hended : Ended G source (Multiplicities G source) outputNodeMask upperBound.toNat n s)
    (hn : n ≤ upperBound.toNat) (hnodes : nodes.Nodup) {multiplicities : V → UInt64}
    (hcur : s.auxiliaryState.getCurrentMultiplicities = some multiplicities)
    {output : Nat → Option (List (DestinationRow V))}
    (houtput : ∀ fuel, output fuel = writeAll (inOutputNodeMask outputNodeMask) (fun dst =>
        match s.frontierPair.destinationRow source dst with
        | none => some []
        | some row => appendLoop row (multiplicities dst) fuel 0)
      (s.frontierPair.destinations schedule nodes)) :
    (∃ rounds, ∀ fuel, rounds ≤ fuel → ∃ rows, output fuel = some rows ∧
        AllDestinationsExact G source (IsDestination G source nodes outputNodeMask upperBound) rows) ↔
      ∀ row, IsDestination G source nodes outputNodeMask upperBound row → row.length ≠ frontierUnvisited ∧
          ∀ count, G.WalkCount source row.length row.dst count → count < 2 ^ 32 := by
  obtain ⟨dsts, hdsts⟩ : ∃ dsts, dsts = (s.frontierPair.destinations schedule nodes).filter
    (inOutputNodeMask outputNodeMask) := ⟨_, rfl⟩
  have hwritten : ∀ {row}, (row.dst ∈ dsts ∧ s.frontierPair.destinationRow source row.dst = some row) ↔
      (IsDestination G source nodes outputNodeMask upperBound row ∧ row.length ≠ frontierUnvisited) := by
    rw [hdsts]
    exact mem_destinationRow_iff hended hn
  have hnodup : dsts.Nodup := hdsts ▸ (destinations_nodup hnodes).filter _
  -- The multiplicity of a row that is written is its number of walks.
  have hmultiplicity : ∀ {row}, row.dst ∈ dsts → s.frontierPair.destinationRow source row.dst = some row → ∃ c,
        G.WalkCount source row.length row.dst c ∧ multiplicities row.dst = UInt64.ofNat c := by
    intro row hmem hrow
    have hvalue := (destinationRow_eq_some.mp hrow).2.2
    obtain ⟨hle, -, hdist⟩ := (hended.value row.dst).isDist_iff.mp hvalue
    obtain ⟨c, hc, heq⟩ := hended.aux.count row.dst row.length hle hdist
    exact ⟨c, hc, (hended.aux.current _ hcur row.dst).trans heq⟩
  -- If all multiplicities fit, the loops end.
  have hrun : (∀ row, row.dst ∈ dsts → s.frontierPair.destinationRow source row.dst = some row →
      (multiplicities row.dst).toNat < 2 ^ 32) → ∃ rounds, ∀ fuel, rounds ≤ fuel →
        output fuel = some (dsts.flatMap (multiplicityRows s.frontierPair source multiplicities)) := by
    intro hfits
    simp only [houtput, hdsts]
    refine writeAll_eq _ _ fun dst hmem hmask => ⟨(multiplicities dst).toNat, fun fuel hf => ?_⟩
    unfold multiplicityRows
    cases hrow : s.frontierPair.destinationRow source dst with
    | none => rfl
    | some row =>
      obtain ⟨rfl, -⟩ := destinationRow_eq_some.mp hrow
      have hin : row.dst ∈ dsts := hdsts ▸ mem_filter.mpr ⟨hmem, hmask⟩
      exact appendLoop_eq row (hfits row hin hrow) (i := 0) (Nat.zero_le _) hf
  constructor
  · rintro ⟨rounds, hexact⟩ row hdest
    have hfits : ∀ row, row.dst ∈ dsts → s.frontierPair.destinationRow source row.dst = some row →
        (multiplicities row.dst).toNat < 2 ^ 32 := by
      intro row hmem hrow
      by_contra hlarge
      obtain ⟨rows, hrows, -⟩ := hexact rounds le_rfl
      rw [hdsts] at hmem
      obtain ⟨hmem, hmask⟩ := mem_filter.mp hmem
      rw [houtput, writeAll_eq_none hmem hmask] at hrows
      · cases hrows
      · rw [hrow]
        exact appendLoop_none row (not_lt.mp hlarge) _ _
    obtain ⟨rounds', hrun⟩ := hrun hfits
    obtain ⟨rows, hrows, hall⟩ := hexact (rounds + rounds') (by omega)
    obtain rfl := Option.mem_unique hrows (hrun _ (by omega))
    have hcount := (hall row).1 hdest
    have hpos := hcount.pos hdest.2.2.2.2.1
    obtain ⟨hmem, hrow⟩ := (count_multiplicityRows hnodup row).2 (count_pos_iff.mp hpos)
    refine ⟨(hwritten.mp ⟨hmem, hrow⟩).2, fun count hc => ?_⟩
    rw [hc.unique hcount, (count_multiplicityRows hnodup row).1 ⟨hmem, hrow⟩]
    exact hfits row hmem hrow
  · intro hcond
    have hsmall : ∀ {row}, row.dst ∈ dsts → s.frontierPair.destinationRow source row.dst = some row →
        ∃ c, G.WalkCount source row.length row.dst c ∧ (multiplicities row.dst).toNat = c ∧ c < 2 ^ 32 := by
      intro row hmem hrow
      obtain ⟨c, hc, heq⟩ := hmultiplicity hmem hrow
      have hlt := (hcond row (hwritten.mp ⟨hmem, hrow⟩).1).2 c hc
      refine ⟨c, hc, ?_, hlt⟩
      rw [heq]
      exact UInt64.toNat_ofNat_of_lt (hlt.trans (by decide))
    obtain ⟨rounds, hrun⟩ := hrun fun row hmem hrow => by
      obtain ⟨c, -, heq, hlt⟩ := hsmall hmem hrow
      rwa [heq]
    refine ⟨rounds, fun fuel hf => ⟨_, hrun fuel hf, fun row => ⟨fun hdest => ?_, fun hmem => ?_⟩⟩⟩
    · obtain ⟨hmem, hrow⟩ := hwritten.mpr ⟨hdest, (hcond row hdest).1⟩
      obtain ⟨c, hc, heq, -⟩ := hsmall hmem hrow
      rw [(count_multiplicityRows hnodup row).1 ⟨hmem, hrow⟩, heq]
      exact hc
    · exact (hwritten.mp ((count_multiplicityRows hnodup row).2 hmem)).1

/-- `AllSPDestinationsAlgorithm` gives the rows that are asked for if an iteration is made, no destination
has the distance that stands for unvisited nodes, and the numbers of walks fit the counter of the loop
that appends rows. -/
theorem allSPDestinations_exact_iff (g : OnDiskGraph V E) (direction : ExtendDirection)
    (schedule : SPSchedule V E) (upperBound : UInt16) (source : V) {nodes : List V}
    (hnodes : nodes.Nodup) (outputNodeMask : Option (Finset V)) :
    (∃ rounds, ∀ fuel, rounds ≤ fuel → ∃ rows, allSPDestinations g direction schedule upperBound source
        nodes outputNodeMask fuel = some rows ∧ AllDestinationsExact (g.hops direction) source
          (IsDestination (g.hops direction) source nodes outputNodeMask upperBound) rows) ↔
      upperBound ≠ 0 ∧ (∀ mask, outputNodeMask = some mask → ¬ mask ⊆ {source}) ∧
        ∀ row, IsDestination (g.hops direction) source nodes outputNodeMask upperBound row →
          row.length ≠ frontierUnvisited ∧
            ∀ count, (g.hops direction).WalkCount source row.length row.dst count → count < 2 ^ 32 := by
  have haux : AuxInvariant aspDestinations (g.hops direction) source
      (Multiplicities (g.hops direction) source) := aspDestinations_invariant fun _ => rfl
  obtain ⟨n, hn, hended, hzero⟩ := run_spec haux schedule outputNodeMask upperBound
  obtain ⟨s, hs⟩ : ∃ s, s = run g direction aspDestinations schedule outputNodeMask upperBound
    source := ⟨_, rfl⟩
  rw [← hs] at hended
  have hiterations : (upperBound ≠ 0 ∧ ∀ mask, outputNodeMask = some mask → ¬ mask ⊆ {source}) ↔ n ≠ 0 := by
    rw [ne_eq, ne_eq, hzero]
    simp [not_and]
  rw [← and_assoc, hiterations]
  cases hcur : s.auxiliaryState.getCurrentMultiplicities with
  | none =>
    have h0 : n = 0 := by
      refine hended.aux.cur.mp ?_
      simpa [MultiplicitiesPair.getCurrentMultiplicities] using hcur
    refine iff_of_false ?_ fun h => h.1 h0
    rintro ⟨rounds, h⟩
    obtain ⟨rows, hrows, -⟩ := h rounds le_rfl
    rw [allSPDestinations, ← hs] at hrows
    simp [hcur] at hrows
  | some multiplicities =>
    have h0 : n ≠ 0 := by
      intro h0
      have := hended.aux.cur.mpr h0
      simp [MultiplicitiesPair.getCurrentMultiplicities, this] at hcur
    rw [and_iff_right h0]
    exact multiplicityRows_exact_iff hended hn hnodes hcur (fun fuel => by
      rw [allSPDestinations, ← hs, hcur]
      rfl)

end Destinations

/-! ## Rows of paths -/

section Paths

variable [DecidableEq E] {g : OnDiskGraph V E} {direction : ExtendDirection} {G : HopGraph V (Hop V E)}
  {source : V} {n : Nat} {parents : V → ParentList V E} {info : PathsOutputWriterInfo V}

omit [DecidableEq V] [DecidableEq E] in
theorem length_pos_of_ne {dst : V} {walk : List (Hop V E)} (hne : dst ≠ source)
    (hw : G.IsWalk source walk dst) : 0 < walk.length := by
  cases walk with
  | nil => exact absurd hw hne
  | cons hop walk => exact Nat.succ_pos _

/-- The output writer, for parents that are hops of shortest walks: the rows of all walks that they
make. -/
theorem spWriteInternal_eq (info : PathsOutputWriterInfo V) (h : ParentLayers G source n parents) (hn : n < 2 ^ 16)
    (horigin : ∀ hop, G.origin hop = hop.node)
    (henters : ∀ {hop node}, G.enters hop node → ((g.hops direction).shortest source).enters hop node)
    (hlower : info.lowerBound = 1) (hmask : info.pathNodeMask = none) (dst : V) :
    ∃ walks : List (List (Hop V E)), walks.Nodup ∧
      (∀ walk, walk ∈ walks ↔ dst ≠ source ∧ G.IsWalk source walk dst ∧ walk.length ≤ n) ∧
      ∃ rounds, ∀ fuel, rounds ≤ fuel →
        info.spWriteInternal parents source fuel dst = some (walks.map (info.walkRow dst)) := by
  have hone : info.lowerBound.toNat = 1 := by rw [hlower]; rfl
  have hfirst : info.findFirstParent (parents dst) = parents dst := by
    unfold findFirstParent
    split
    · rfl
    · cases hlist : parents dst with
      | nil => rfl
      | cons first next =>
        have hpos := (h.mem.mp (hlist ▸ mem_cons_self : first ∈ parents dst)).2.1
        simp [checkPathNodeMask, hmask, hone, hpos]
  by_cases hsource : dst = source
  · refine ⟨[], nodup_nil, fun walk => iff_of_false not_mem_nil fun hw => hw.1 hsource, 0, fun fuel _ => ?_⟩
    unfold spWriteInternal
    split
    · rfl
    · simp [hsource]
  cases hlist : parents dst with
  | nil =>
    refine ⟨[], nodup_nil, fun walk => iff_of_false not_mem_nil ?_, 0, fun fuel _ => ?_⟩
    · rintro ⟨-, hw, hle⟩
      exact h.ne_nil_iff.mpr ⟨walk.length, length_pos_of_ne hsource hw, hle, walk, hw, rfl⟩ hlist
    · rw [spWriteInternal, hfirst.trans hlist]
      rfl
  | cons first next =>
    have hpos : 1 ≤ first.iter := (h.mem.mp (hlist ▸ mem_cons_self : first ∈ parents dst)).2.1
    -- `dfsFast` and `dfsSlow` find the same walks, in some order.
    have hpaths : ∃ paths : List (List (ParentEntry V E)), (paths.map (map (·.toHop))).Nodup ∧
        (∀ walk, walk ∈ paths.map (map (·.toHop)) ↔ G.IsWalk source walk dst ∧ 1 ≤ walk.length ∧ walk.length ≤ n) ∧
        ∃ rounds, ∀ fuel, rounds ≤ fuel → (if info.isFast then dfsFast info parents fuel (first :: next)
          else dfsSlow info parents fuel (first :: next)) = some paths := by
      cases hfast : info.isFast with
      | true =>
        obtain ⟨rounds, hrun⟩ := dfsFast_eq h horigin hlist (hone ▸ hpos)
        refine ⟨_, h.nodup_map_parentPaths horigin info.lowerBound.toNat dst, fun walk => ?_, rounds,
          fun fuel hf => ?_⟩
        · rw [h.mem_map_parentPaths horigin, hone]
          exact and_congr_right fun _ => ⟨fun hl => hl.2, fun hl => ⟨hl.1, hl⟩⟩
        · rw [if_pos rfl, hrun fuel hf]
      | false =>
        obtain ⟨rounds, hrun⟩ := slowPaths_eq info h dst
        refine ⟨info.searchPaths parents dst, nodup_map_searchPaths info h horigin dst, fun walk => ?_, rounds,
          fun fuel hf => ?_⟩
        · rw [mem_map_searchPaths info h horigin, hone]
          refine and_congr_right fun hw => and_congr_right fun hl => and_iff_left ?_
          refine kept_of_shortest hmask (length_pos_iff.mp hl) (hw.mono (funext horigin) henters)
        · have hrun := hrun fuel hf
          rw [slowPaths, hfirst, hlist, hone] at hrun
          simpa [not_lt.mpr hpos] using hrun
    obtain ⟨paths, hnodup, hmem, rounds, hrun⟩ := hpaths
    refine ⟨paths.map (map (·.toHop)), hnodup, fun walk => ?_, rounds, fun fuel hf => ?_⟩
    · rw [hmem]
      exact ⟨fun hw => ⟨hsource, hw.1, hw.2.2⟩, fun hw => ⟨hw.2.1, length_pos_of_ne hsource hw.2.1, hw.2.2⟩⟩
    · rw [spWriteInternal, hfirst.trans hlist]
      simp only [hsource, hrun fuel hf, map_map]
      refine congrArg some (map_congr_left fun path hp => pathRow_eq_walkRow info dst ?_)
      have hle := ((hmem _).mp (mem_map_of_mem (f := map (·.toHop)) hp)).2.2
      rw [length_map] at hle
      omega

variable {nodes : List V}

/-- The rows that are written from parents that are hops of shortest walks: for each destination those of
the walks that the parents make. -/
theorem spRows_spec {bfsGraph : DensityMap V (ParentList V E)}
    (h : ParentLayers G source n (bfsGraph.get [])) (hn : n < 2 ^ 16)
    (horigin : ∀ hop, G.origin hop = hop.node)
    (henters : ∀ {hop node}, G.enters hop node → ((g.hops direction).shortest source).enters hop node)
    (hlower : info.lowerBound = 1) (hmask : info.pathNodeMask = none) (schedule : Schedule V E)
    (hnodes : nodes.Nodup) (mask : V → Bool) :
    ∃ rounds, ∀ fuel, rounds ≤ fuel → ∃ rows, writeAll mask (info.spWriteInternal (bfsGraph.get []) source fuel)
        (info.destinations schedule nodes source bfsGraph) = some rows ∧
      (∀ row ∈ rows, row.dst ∈ nodes ∧ mask row.dst = true ∧ row.dst ≠ source ∧ ∃ walk,
        G.IsWalk source walk row.dst ∧ walk.length = row.length ∧ walk.length ≤ n) ∧
      ∀ dst ∈ nodes, mask dst = true → ∃ walks : List (List (Hop V E)), walks.Nodup ∧
        (∀ walk, walk ∈ walks ↔ dst ≠ source ∧ G.IsWalk source walk dst ∧ walk.length ≤ n) ∧
        rows.filter (·.dst = dst) = walks.map (info.walkRow dst) := by
  choose walks hnodup hmem hrun using spWriteInternal_eq info h hn horigin henters hlower hmask
  obtain ⟨rounds, hall⟩ := writeAll_eq mask (info.destinations schedule nodes source bfsGraph) fun dst _ _ => hrun dst
  refine ⟨rounds, fun fuel hf => ⟨_, hall fuel hf, fun row hrow => ?_, fun dst hdst hin => ?_⟩⟩
  · obtain ⟨dst, hdst, hrow⟩ := mem_flatMap.mp hrow
    obtain ⟨walk, hw, rfl⟩ := mem_map.mp hrow
    obtain ⟨hdst, hin⟩ := mem_filter.mp hdst
    obtain ⟨hne, hw, hle⟩ := (hmem dst walk).mp hw
    exact ⟨mem_of_mem_destinations hdst, hin, hne, walk, hw, rfl, hle⟩
  · refine ⟨walks dst, hnodup dst, hmem dst, ?_⟩
    have hrows : ∀ dst, ∀ row ∈ (walks dst).map (info.walkRow dst), row.dst = dst := by
      intro dst row hrow
      obtain ⟨walk, -, rfl⟩ := mem_map.mp hrow
      rfl
    have hlow : info.lowerBound ≠ 0 := by
      rw [hlower]
      decide
    refine filter_flatMap_destinations hrows hnodes hdst hin (fun hstate hkey => ?_) fun h0 => absurd h0 hlow
    have hnil : bfsGraph.get [] dst = [] := by simp [DensityMap.get, hstate, hkey]
    refine map_eq_nil_iff.mpr (eq_nil_iff_forall_not_mem.mpr fun walk hw => ?_)
    obtain ⟨hne, hw, hle⟩ := (hmem dst walk).mp hw
    exact h.ne_nil_iff.mpr ⟨walk.length, length_pos_of_ne hne hw, hle, walk, hw, rfl⟩ hnil

/-! ## Parents of one path -/

/-- The graph of the parents that are stored. -/
def parentGraph (parents : V → ParentList V E) : HopGraph V (Hop V E) where
  enters hop node := hop ∈ (parents node).map (·.toHop)
  origin := Hop.node

namespace SingleParents

variable {state : GDSDensityState} {bfsGraph : DensityMap V (ParentList V E)} {node : V}

omit [DecidableEq V] [DecidableEq E]

variable (h : SingleParents G source state n bfsGraph)
include h

theorem of_mem {e : ParentEntry V E}
    (he : e ∈ bfsGraph.get [] node) : ∃ k, k + 1 ≤ n ∧ e.iter = k + 1 ∧ bfsGraph.get [] node = [e] ∧
      G.enters e.toHop node ∧ G.IsDist source k (G.origin e.toHop) ∧ G.IsDist source (k + 1) node := by
  by_cases hvisited : ∃ k, k + 1 ≤ n ∧ G.IsDist source (k + 1) node
  · obtain ⟨k, hk, hdist⟩ := hvisited
    obtain ⟨hop, hlist, henters, hbound⟩ := h.single node k hk hdist
    rw [hlist, mem_singleton] at he
    subst he
    exact ⟨k, hk, rfl, hlist, henters, hbound, hdist⟩
  · rw [h.far node fun k hpos hk hdist => hvisited ⟨k - 1, by omega, by
      rwa [Nat.sub_add_cancel hpos]⟩] at he
    cases he

theorem eq_nil_or_singleton (node : V) : bfsGraph.get [] node = [] ∨ ∃ e, bfsGraph.get [] node = [e] := by
  cases hlist : bfsGraph.get [] node with
  | nil => exact .inl rfl
  | cons e list =>
    obtain ⟨-, -, -, hsingle, -⟩ := h.of_mem (hlist ▸ mem_cons_self : e ∈ bfsGraph.get [] node)
    exact .inr ⟨e, hlist.symm.trans hsingle⟩

theorem hasWalk_iff (horigin : ∀ hop, G.origin hop = hop.node) {k : Nat} (hk : k ≤ n) :
    (parentGraph (bfsGraph.get [])).HasWalk source k node ↔ G.IsDist source k node := by
  induction k generalizing node with
  | zero => simp
  | succ k ih =>
    rw [hasWalk_succ]
    constructor
    · rintro ⟨hop, henters, hw⟩
      obtain ⟨e, he, rfl⟩ := mem_map.mp henters
      obtain ⟨j, -, -, -, -, hbound, hdist⟩ := h.of_mem he
      have hbound' := (ih (by omega)).mp hw
      obtain rfl := (horigin e.toHop ▸ hbound).unique hbound'
      exact hdist
    · intro hdist
      obtain ⟨hop, hlist, -, hbound⟩ := h.single node k hk hdist
      rw [horigin] at hbound
      refine ⟨hop, ?_, (ih (by omega)).mpr hbound⟩
      simp [parentGraph, hlist]

/-- The parents are the layers of their own graph. -/
theorem layers (horigin : ∀ hop, G.origin hop = hop.node) :
    ParentLayers (parentGraph (bfsGraph.get [])) source n (bfsGraph.get []) where
  sorted := fun node => by
    obtain hnil | ⟨e, he⟩ := h.eq_nil_or_singleton node
    · rw [hnil]
      exact .nil
    · rw [he]
      exact pairwise_singleton _ _
  nodup := fun node => by obtain hnil | ⟨e, he⟩ := h.eq_nil_or_singleton node <;> simp [*]
  mem := fun {node e} => by
    constructor
    · intro he
      obtain ⟨k, hk, hiter, -, -, hbound, -⟩ := h.of_mem he
      refine ⟨mem_map_of_mem he, by omega, by omega, ?_⟩
      rw [horigin] at hbound
      rw [h.hasWalk_iff horigin (by omega), hiter]
      exact hbound
    · rintro ⟨henters, hpos, hle, hw⟩
      obtain ⟨e', he', heq⟩ := mem_map.mp henters
      obtain ⟨k, hk, hiter, -, -, hbound, -⟩ := h.of_mem he'
      rw [h.hasWalk_iff horigin (by omega)] at hw
      rw [heq, horigin] at hbound
      have hsame := hbound.unique hw
      have : e' = e := by
        cases e
        cases e'
        simp only [ParentEntry.mk.injEq] at *
        exact ⟨heq, by omega⟩
      rwa [← this]

theorem isWalk_unique {walk walk' : List (Hop V E)} (hw : (parentGraph (bfsGraph.get [])).IsWalk source walk node)
    (hw' : (parentGraph (bfsGraph.get [])).IsWalk source walk' node)
    (hlen : walk.length = walk'.length) : walk = walk' := by
  induction walk generalizing walk' node with
  | nil => exact (eq_nil_of_length_eq_zero hlen.symm).symm
  | cons hop walk ih =>
    cases walk' with
    | nil => cases hlen
    | cons hop' walk' =>
      obtain ⟨e, he, rfl⟩ := mem_map.mp hw.1
      obtain ⟨e', he', rfl⟩ := mem_map.mp hw'.1
      obtain ⟨-, -, -, hsingle, -⟩ := h.of_mem he
      rw [hsingle, mem_singleton] at he'
      subst he'
      rw [ih hw.2 hw'.2 (Nat.succ.inj hlen)]

end SingleParents

/-! ## Shortest paths -/

variable (g direction source) (hlower : info.lowerBound = 1) (hmask : info.pathNodeMask = none)
  (schedule : SPSchedule V E) (upperBound : UInt16) (hnodes : nodes.Nodup)
  (outputNodeMask : Option (Finset V))
include hlower hmask hnodes

theorem allSPPaths_exact :
    ∃ rounds, ∀ fuel, rounds ≤ fuel → ∃ rows, info.allSPPaths g direction schedule upperBound source nodes
      outputNodeMask fuel = some rows ∧ AllPathsExact info (g.hops direction) source
        (IsDestination (g.hops direction) source nodes outputNodeMask upperBound) rows := by
  have haux : AuxInvariant aspPaths (g.hops direction) source
      (ShortestParents (g.hops direction) source) := aspPaths_invariant
  obtain ⟨n, hn, hended, -⟩ := run_spec haux schedule outputNodeMask upperBound
  have hupper : n < 2 ^ 16 := hn.trans_lt upperBound.toNat_lt
  obtain ⟨rounds, hrun⟩ := spRows_spec hended.aux.layers hupper (fun _ => rfl)
    (fun h => h) hlower hmask schedule.toSchedule hnodes (inOutputNodeMask outputNodeMask)
  refine ⟨rounds, fun fuel hf => ?_⟩
  obtain ⟨rows, hrows, hdst, hwalks⟩ := hrun fuel hf
  refine ⟨rows, hrows, fun row hrow => ?_, fun row hdest => ?_⟩
  · obtain ⟨hin, hpass, hne, walk, hw, hlen, hle⟩ := hdst row hrow
    have hdist := (isWalk_shortest.mp hw).2
    exact ⟨hin, hpass, hne, by simp only; omega, hlen ▸ hdist⟩
  · obtain ⟨hin, hpass, hne, hle, hdist⟩ := hdest
    obtain ⟨walks, hnodup, hmem, hfilter⟩ := hwalks row.dst hin hpass
    refine ⟨walks, hnodup, fun walk => ?_, hfilter ▸ .refl _⟩
    have hfound := hended.found_of_mask hpass hle hdist
    rw [hmem, isWalk_shortest]
    constructor
    · rintro ⟨-, ⟨hw, hlen⟩, -⟩
      exact ⟨hw, hlen.unique hdist⟩
    · rintro ⟨hw, hlen⟩
      exact ⟨hne, ⟨hw, hlen ▸ hdist⟩, hlen ▸ hfound⟩

theorem singleSPPaths_exact :
    ∃ rounds, ∀ fuel, rounds ≤ fuel → ∃ rows, info.singleSPPaths g direction schedule upperBound source
      nodes outputNodeMask fuel = some rows ∧ SinglePathsExact info (g.hops direction) source
        (IsDestination (g.hops direction) source nodes outputNodeMask upperBound) rows := by
  have haux : AuxInvariant sspPaths (g.hops direction) source
      (SingleParents (g.hops direction) source) := sspPaths_invariant
  have horigin : ∀ hop, (g.hops direction).origin hop = hop.node := fun _ => rfl
  obtain ⟨n, hn, hended, -⟩ := run_spec haux schedule outputNodeMask upperBound
  have hupper : n < 2 ^ 16 := hn.trans_lt upperBound.toNat_lt
  have hshortest : ∀ {hop node}, (parentGraph ((run g direction sspPaths schedule outputNodeMask
      upperBound source).auxiliaryState.get [])).enters hop node →
        ((g.hops direction).shortest source).enters hop node := by
    intro hop node henters
    obtain ⟨e, he, rfl⟩ := mem_map.mp henters
    obtain ⟨k, -, -, -, henters, hbound, hdist⟩ := hended.aux.of_mem he
    exact ⟨henters, k, hbound, hdist⟩
  obtain ⟨rounds, hrun⟩ := spRows_spec (hended.aux.layers horigin) hupper (fun _ => rfl)
    hshortest hlower hmask schedule.toSchedule hnodes (inOutputNodeMask outputNodeMask)
  refine ⟨rounds, fun fuel hf => ?_⟩
  obtain ⟨rows, hrows, hdst, hwalks⟩ := hrun fuel hf
  refine ⟨rows, hrows, fun row hrow => ?_, fun row hdest => ?_⟩
  · obtain ⟨hin, hpass, hne, walk, hw, hlen, hle⟩ := hdst row hrow
    have hdist := (hended.aux.hasWalk_iff horigin hle).mp ⟨walk, hw, rfl⟩
    exact ⟨hin, hpass, hne, by simp only; omega, hlen ▸ hdist⟩
  · obtain ⟨hin, hpass, hne, hle, hdist⟩ := hdest
    obtain ⟨walks, hnodup, hmem, hfilter⟩ := hwalks row.dst hin hpass
    have hfound := hended.found_of_mask hpass hle hdist
    obtain ⟨walk, hw, hlen⟩ := (hended.aux.hasWalk_iff horigin hfound).mpr hdist
    have hall : walks = [walk] := by
      refine perm_singleton.mp ((perm_ext_iff_of_nodup hnodup (nodup_singleton _)).mpr fun walk' => ?_)
      rw [hmem, mem_singleton]
      constructor
      · rintro ⟨-, hw', hle'⟩
        have hdist' := (hended.aux.hasWalk_iff horigin hle').mp ⟨walk', hw', rfl⟩
        exact hended.aux.isWalk_unique hw' hw ((hdist'.unique hdist).trans hlen.symm)
      · rintro rfl
        exact ⟨hne, hw, hlen ▸ hfound⟩
    have hwalk : ((g.hops direction).shortest source).IsWalk source walk row.dst :=
      hw.mono (G := (g.hops direction).shortest source) rfl hshortest
    exact ⟨walk, (isWalk_shortest.mp hwalk).1, hlen, by rw [hfilter, hall]; rfl⟩

end Paths

/-! ## Exactness -/

/-- For every schedule, the four algorithms write what is asked for if and only if an iteration is made
(the bound is not zero, and the mask has a node other than the source), no destination has the distance
that stands for unvisited nodes, and no destination has `2 ^ 32` shortest walks. -/
theorem shortestPaths_exact_iff [DecidableEq E] (info : PathsOutputWriterInfo V)
    (hlower : info.lowerBound = 1) (hmask : info.pathNodeMask = none) (g : OnDiskGraph V E)
    (direction : ExtendDirection) (schedule : SPSchedule V E) (upperBound : UInt16) (source : V)
    (nodes : List V) (hnodes : nodes.Nodup) (outputNodeMask : Option (Finset V)) :
    let G := g.hops direction
    let Dest := IsDestination G source nodes outputNodeMask upperBound
    (SingleDestinationsExact Dest
        (singleSPDestinations g direction schedule upperBound source nodes outputNodeMask) ∧
      (∃ rounds, ∀ fuel, rounds ≤ fuel → ∃ rows, allSPDestinations g direction schedule upperBound source
        nodes outputNodeMask fuel = some rows ∧ AllDestinationsExact G source Dest rows) ∧
      (∃ rounds, ∀ fuel, rounds ≤ fuel → ∃ rows, info.singleSPPaths g direction schedule upperBound source
        nodes outputNodeMask fuel = some rows ∧ SinglePathsExact info G source Dest rows) ∧
      ∃ rounds, ∀ fuel, rounds ≤ fuel → ∃ rows, info.allSPPaths g direction schedule upperBound source
        nodes outputNodeMask fuel = some rows ∧ AllPathsExact info G source Dest rows) ↔
    upperBound ≠ 0 ∧ (∀ mask, outputNodeMask = some mask → ¬ mask ⊆ {source}) ∧
      ∀ row, Dest row → row.length ≠ frontierUnvisited ∧
        ∀ count, G.WalkCount source row.length row.dst count → count < 2 ^ 32 := by
  intro G Dest
  have hpaths := singleSPPaths_exact g direction source hlower hmask schedule upperBound hnodes
    outputNodeMask
  have hall := allSPPaths_exact g direction source hlower hmask schedule upperBound hnodes
    outputNodeMask
  rw [and_iff_left hall, and_iff_left hpaths, singleSPDestinations_exact_iff g direction schedule
    upperBound source hnodes outputNodeMask, allSPDestinations_exact_iff g direction schedule
    upperBound source hnodes outputNodeMask]
  exact and_iff_right_of_imp fun h row hrow => (h.2.2 row hrow).1

def SPSchedule.inOrder (V E : Type) : SPSchedule V E := ⟨.inOrder V E, fun _ _ => false⟩

/-- The mask has only the source: the loop stops before its first iteration, no table is pinned, and the
output writer of all shortest paths without paths runs into `nullptr`. -/
theorem allSPDestinations_source_mask :
    ¬ ∃ fuel rows, allSPDestinations oneRel .fwd (.inOrder Nat Nat) 1 0 [0, 1] (some {0}) fuel =
      some rows := by
  have hnull : (run oneRel .fwd aspDestinations (.inOrder Nat Nat) (some {0}) 1
      0).auxiliaryState.curMultiplicities = none := by decide
  rintro ⟨fuel, rows, h⟩
  simp [allSPDestinations, MultiplicitiesPair.getCurrentMultiplicities, hnull] at h

theorem shortestPaths_exact_twoWays :
    let info : PathsOutputWriterInfo Nat := { lowerBound := 1, writePath := true }
    let Dest := IsDestination (twoWays.hops .fwd) 0 [0, 1, 2, 3] none 2
    SingleDestinationsExact Dest
        (singleSPDestinations twoWays .fwd (.inOrder Nat Nat) 2 0 [0, 1, 2, 3] none) ∧
      (∃ rounds, ∀ fuel, rounds ≤ fuel → ∃ rows,
        allSPDestinations twoWays .fwd (.inOrder Nat Nat) 2 0 [0, 1, 2, 3] none fuel = some rows ∧
          AllDestinationsExact (twoWays.hops .fwd) 0 Dest rows) ∧
      (∃ rounds, ∀ fuel, rounds ≤ fuel → ∃ rows,
        info.singleSPPaths twoWays .fwd (.inOrder Nat Nat) 2 0 [0, 1, 2, 3] none fuel = some rows ∧
          SinglePathsExact info (twoWays.hops .fwd) 0 Dest rows) ∧
      ∃ rounds, ∀ fuel, rounds ≤ fuel → ∃ rows,
        info.allSPPaths twoWays .fwd (.inOrder Nat Nat) 2 0 [0, 1, 2, 3] none fuel = some rows ∧
          AllPathsExact info (twoWays.hops .fwd) 0 Dest rows := by
  intro info Dest
  refine (shortestPaths_exact_iff info rfl rfl twoWays .fwd (.inOrder Nat Nat) 2 0 [0, 1, 2, 3] (by decide)
    none).mpr ⟨by decide, (fun mask h => nomatch h), fun row hrow => ?_⟩
  obtain ⟨-, -, -, hle, -⟩ := hrow
  have hle : row.length ≤ 2 := hle
  refine ⟨(hle.trans_lt (by decide)).ne, fun count hcount => ?_⟩
  obtain ⟨walks, hnodup, hmem, rfl⟩ := hcount
  -- There are no more walks of two hops than pairs of hops.
  let hops := (twoWays.visits .fwd).map (·.hop)
  have hsub : walks ⊆ [] :: hops.map (fun hop => [hop]) ++ hops.flatMap fun hop => hops.map ([hop, ·]) := by
    intro walk hw
    obtain ⟨hwalk, hlen⟩ := (hmem walk).mp hw
    have henters : ∀ {hop node}, (twoWays.hops .fwd).enters hop node → hop ∈ hops :=
      fun h => mem_map_of_mem (f := (·.hop)) h
    obtain _ | ⟨hop, _ | ⟨hop', _ | ⟨hop'', walk⟩⟩⟩ := walk
    · simp
    · simp [henters hwalk.1]
    · simp [henters hwalk.1, henters hwalk.2.1]
    · simp only [length_cons] at hlen
      omega
  have := (hnodup.subperm hsub).length_le
  exact this.trans_lt (by decide)

end CycleJoin
