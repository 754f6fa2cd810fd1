import CycleJoin.Function.Gds.WeightedPaths

/-!
# Weighted shortest paths at the upper bound

When the upper bound stops the search, a node may have got a lower cost after its child copied the old
one. The row of a destination then has the cost that was copied, and the path of the parents as they
are.

* `lastVisits`: the visits of the last iteration that the bound allows.
* `ParentTree.walkWeight_eq_iff`: the way back has the weight of the cost if no node on it is stale.
* `weightedSPPaths_cutOff`: the rows of a search that any bound stops have the weights of their paths as
  costs if the last iteration lowers no node that a path took a cost from.
-/

namespace CycleJoin

open List PathsOutputWriterInfo WeightedState HopGraph

variable {V E : Type}

/-- A node whose parent has got a lower cost since the node took its own cost from it. -/
def Stale (weight : E → Nat) (entries : V → Option (WeightedParent V E)) (node : V) : Prop :=
  ∃ hop c y, entries node = some ⟨some hop, c⟩ ∧ entries hop.node = some y ∧
    y.cost + weight hop.edge < c

section

variable {weight : E → Nat} {G : HopGraph V (Hop V E)} {source node : V}
  {entries : V → Option (WeightedParent V E)} {x : WeightedParent V E} {walk : List (Hop V E)}

theorem ParentTree.walk_unique (h : ParentTree weight G source entries) {walk' : List (Hop V E)}
    (hwalk : (parentHops entries).IsWalk source walk node)
    (hwalk' : (parentHops entries).IsWalk source walk' node) : walk = walk' := by
  have hsource : ∀ {hop c}, entries source ≠ some ⟨some hop, c⟩ :=
    fun he => nomatch h.atSource.symm.trans he
  induction walk generalizing node walk' with
  | nil =>
    obtain rfl : node = source := hwalk
    cases walk' with
    | nil => rfl
    | cons hop' walk' => exact absurd hwalk'.1.choose_spec hsource
  | cons hop walk ih =>
    obtain ⟨⟨c, he⟩, hrest⟩ := hwalk
    cases walk' with
    | nil =>
      obtain rfl : node = source := hwalk'
      exact absurd he hsource
    | cons hop' walk' =>
      obtain ⟨⟨c', he'⟩, hrest'⟩ := hwalk'
      obtain ⟨⟨⟩⟩ := he.symm.trans he'
      rw [ih hrest hrest']

theorem ParentTree.walkWeight_eq_iff (h : ParentTree weight G source entries)
    (hwalk : (parentHops entries).IsWalk source walk node) (hx : entries node = some x) :
    walkWeight (hopWeight weight) walk ≤ x.cost ∧ (walkWeight (hopWeight weight) walk = x.cost ↔
        ∀ v ∈ node :: walk.map (·.node), ¬ Stale weight entries v) := by
  induction walk generalizing node x with
  | nil =>
    obtain rfl : node = source := hwalk
    obtain rfl := Option.mem_unique hx h.atSource
    have hsource : ¬ Stale weight entries node := by
      rintro ⟨hop, c, y, he, -⟩
      cases h.atSource.symm.trans he
    exact ⟨le_rfl, iff_of_true rfl (by simpa using hsource)⟩
  | cons hop walk ih =>
    obtain ⟨⟨c, he⟩, hrest⟩ := hwalk
    obtain rfl := Option.mem_unique hx he
    obtain ⟨-, -, y, hy, hle⟩ := h.of_enters he
    have hrest : (parentHops entries).IsWalk source walk hop.node := hrest
    obtain ⟨hbound, hiff⟩ := ih hrest hy
    have hstale : Stale weight entries node ↔ y.cost + weight hop.edge < c := by
      refine ⟨?_, fun hlt => ⟨hop, c, y, he, hy, hlt⟩⟩
      rintro ⟨hop', c', y', he', hy', hlt⟩
      obtain ⟨⟨⟩⟩ := he.symm.trans he'
      obtain rfl := Option.mem_unique hy hy'
      exact hlt
    have hw : hopWeight weight hop = weight hop.edge := rfl
    rw [walkWeight_cons, map_cons, forall_mem_cons, ← hiff, hstale, hw]
    dsimp only
    omega

theorem exists_enters_of_mem (hwalk : (parentHops entries).IsWalk source walk node) {hop : Hop V E}
    (hhop : hop ∈ walk) : ∃ v c, entries v = some ⟨some hop, c⟩ := by
  induction walk generalizing node with
  | nil => cases hhop
  | cons hop' walk ih =>
    rcases mem_cons.mp hhop with rfl | hhop
    · exact ⟨node, hwalk.1⟩
    · exact ih hwalk.2 hhop

/-- The hop of a node on the way back is on the way back. -/
theorem ParentTree.mem_of_enters (h : ParentTree weight G source entries)
    (hwalk : (parentHops entries).IsWalk source walk node) {v : V} (hv : v ∈ node :: walk.map (·.node))
    {hop : Hop V E} {c : Nat} (he : entries v = some ⟨some hop, c⟩) : hop ∈ walk := by
  induction walk generalizing node with
  | nil =>
    obtain rfl : node = source := hwalk
    obtain rfl := mem_singleton.mp hv
    cases h.atSource.symm.trans he
  | cons hop' walk ih =>
    obtain ⟨⟨c', he'⟩, hrest⟩ := hwalk
    rcases mem_cons.mp hv with rfl | hv
    · obtain ⟨⟨⟩⟩ := he.symm.trans he'
      exact mem_cons_self
    · exact mem_cons_of_mem _ (ih hrest hv)

theorem walkWeight_eq_of_weightedRow {info : PathsOutputWriterInfo V} (hwrite : info.writePath = true)
    {dst : V} {walk' : List (Hop V E)} {c : Nat}
    (h : info.weightedRow dst walk c = info.weightedRow dst walk' c) :
    walkWeight (hopWeight weight) walk = walkWeight (hopWeight weight) walk' := by
  have hedges : walk.map Hop.edge = walk'.map Hop.edge := by
    have hids := congrArg (·.edgeIDs) h
    cases hflip : info.flipPath <;> simpa [weightedRow, walkRow, hwrite, hflip] using hids
  have hw : hopWeight (V := V) weight = weight ∘ Hop.edge := rfl
  rw [walkWeight, walkWeight, hw, ← map_map, ← map_map, hedges]

end

variable [DecidableEq V]

/-- The row is that of a walk with the cost as its weight. -/
def PathsOutputWriterInfo.CostIsWeight (info : PathsOutputWriterInfo V) (G : HopGraph V (Hop V E))
    (weight : E → Nat) (source : V) (row : WeightedPathRow V E) : Prop :=
  ∃ walk, G.IsWalk source walk row.dst ∧ row = info.weightedRow row.dst walk row.cost ∧
    walkWeight (hopWeight weight) walk = row.cost

/-! ## The last iteration -/

/-- The state after all iterations that the upper bound allows but the last one. -/
def WeightedState.beforeLast (g : OnDiskGraph V E) (direction : ExtendDirection) (weight : E → Nat)
    (schedule : WeightedSchedule V E) (upperBound : UInt16) (source : V) :
    WeightedState V E (WeightedParent V E) :=
  runLoop g direction wspPaths weight schedule (upperBound.toNat - 1) (upperBound.toNat - 1)
    (initSource wspPaths source)

/-- The visits of the last iteration that the upper bound allows. There are none if the search has
converged before it. -/
def WeightedState.lastVisits (g : OnDiskGraph V E) (direction : ExtendDirection) (weight : E → Nat)
    (schedule : WeightedSchedule V E) (upperBound : UInt16) (source : V) :
    List (WeightedStep V E (WeightedParent V E)) :=
  (run g direction wspPaths weight schedule upperBound source).trace.drop
    (beforeLast g direction weight schedule upperBound source).trace.length

/-- The visit gives the node a cost that is lower than the one it has, or its first one. -/
def WeightedStep.Lowers (step : WeightedStep V E (WeightedParent V E)) (node : V) : Prop :=
  step.visit.nbr = node ∧ (step.entries node).all (step.newCost < ·.cost) = true

section Lowers

variable {weight : E → Nat} {G : HopGraph V (Hop V E)} {source node : V}
  {start entries : V → Option (WeightedParent V E)} {steps : List (WeightedStep V E (WeightedParent V E))}
  {changed : List V}

/-- The nodes that the visits of an iteration change are those that they lower. -/
theorem Relaxes.mem_changed_iff (h : Relaxes wspPaths weight G source start steps entries changed) :
    node ∈ changed ↔ ∃ step ∈ steps, step.Lowers node := by
  induction h with
  | nil => simp
  | @keep steps entries changed visit c _ _ hnone ih =>
    have hnot : ¬ WeightedStep.Lowers ⟨entries, visit, c + weight visit.hop.edge⟩ node := by
      rintro ⟨rfl, hlow⟩
      simp only [wspPaths, singleEntry, ite_eq_right_iff, reduceCtorEq] at hnone
      exact hnone hlow
    simp [or_and_right, exists_or, ih, hnot]
  | @add steps entries changed visit c entry _ _ hadd ih =>
    have hlow : WeightedStep.Lowers ⟨entries, visit, c + weight visit.hop.edge⟩ node ↔ node = visit.nbr := by
      refine ⟨fun hl => hl.1.symm, ?_⟩
      rintro rfl
      refine ⟨rfl, ?_⟩
      by_contra hnot
      simp only [wspPaths, singleEntry] at hadd
      rw [if_neg hnot] at hadd
      cases hadd
    simp [or_and_right, exists_or, ih, hlow, or_comm]

/-- A node that had an entry and is lowered costs less afterwards. -/
theorem Relaxes.cost_lt (h : Relaxes wspPaths weight G source start steps entries changed)
    (hmem : node ∈ changed) {x y : WeightedParent V E} (hx : start node = some x) (hy : entries node = some y) :
    y.cost < x.cost := by
  induction h generalizing y with
  | nil => cases hmem
  | keep visit c _ _ _ ih => exact ih hmem hy
  | @add steps entries changed visit c entry hprev _ hadd ih =>
    by_cases hn : node = visit.nbr
    · subst hn
      rw [Function.update_self] at hy
      obtain rfl := Option.some.inj hy
      obtain ⟨z, hz, hle⟩ := (hprev.mono visit.nbr).2 x hx
      simp only [wspPaths, singleEntry, hz] at hadd hle
      split at hadd
      · next hlt =>
        obtain rfl := Option.some.inj hadd
        have : c + weight visit.hop.edge < z.cost := by simpa using hlt
        exact this.trans_le hle
      · cases hadd
    · rw [Function.update_of_ne hn] at hy
      exact ih ((mem_cons.mp hmem).resolve_left hn) hy

end Lowers

section Last

variable (g : OnDiskGraph V E) (direction : ExtendDirection) (weight : E → Nat)
  (schedule : WeightedSchedule V E) (upperBound : UInt16) (source : V)

/-- What the last iteration leaves: a node is stale only if its parent has been lowered in it, and the parent
of a node that has kept its entry has been lowered only if the node is stale. -/
theorem lastVisits_spec :
    let s := run g direction wspPaths weight schedule upperBound source
    let visits := lastVisits g direction weight schedule upperBound source
    ∀ {node hop c}, s.entries node = some ⟨some hop, c⟩ →
      (Stale weight s.entries node → ∃ step ∈ visits, step.Lowers hop.node) ∧
      ((∃ step ∈ visits, step.Lowers hop.node) → (¬ ∃ step ∈ visits, step.Lowers node) →
        Stale weight s.entries node) := by
  intro s visits node hop c hnode
  have hK : WeightedInvariant wspPaths weight (g.hops direction) source
    fun _ entries _ => ParentTree weight (g.hops direction) source entries := wspPaths_invariant
  have htree : ParentTree weight (g.hops direction) source s.entries := (run_spec hK schedule upperBound).extra
  obtain ⟨-, henters, y, hy, -⟩ := htree.of_enters hnode
  -- A stale node has its parent among the nodes that are left to be visited.
  have hpending {pending : V → Prop} (hlabels : Labels wspPaths weight (g.hops direction) source pending s.entries)
      (hstale : Stale weight s.entries node) : pending hop.node := by
    obtain ⟨hop', c', y', hnode', hy', hlt⟩ := hstale
    obtain ⟨⟨⟩⟩ := hnode.symm.trans hnode'
    obtain ⟨x, hx, hle⟩ | hp := hlabels.relaxed henters hy'
    · obtain rfl := Option.mem_unique hx hnode
      exact absurd hle (Nat.not_le.mpr hlt)
    · exact hp
  cases hu : upperBound.toNat with
  | zero =>
    have hs : s = initSource wspPaths source := by simp only [s, run, hu, runLoop]
    rw [hs, entries_initSource, Function.update_apply] at hnode
    split at hnode <;> cases hnode
  | succ rounds =>
    have hlast := (inv_initSource hK).runLoop_succ hK schedule rounds (by
      have := upperBound.toNat_lt
      have hcur : (initSource wspPaths source : WeightedState V E _).frontierPair.curIter = 0 := rfl
      rw [hcur, frontierUnvisited]
      omega)
    obtain ⟨t, ht⟩ : ∃ t, t = beforeLast g direction weight schedule upperBound source := ⟨_, rfl⟩
    have hvisits : visits = s.trace.drop t.trace.length := by rw [ht]; rfl
    simp only [beforeLast, hu, Nat.add_sub_cancel] at ht
    have hcur : (initSource wspPaths source : WeightedState V E (WeightedParent V E)).frontierPair.curIter = 0 := rfl
    have hs : s = runLoop g direction wspPaths weight schedule (rounds + 1) (rounds + 1) (initSource wspPaths source) := by
      simp only [s, run, hu]
    rw [hcur, Nat.zero_add, Nat.zero_add, ← ht, ← hs] at hlast
    obtain ⟨hinv, ⟨hconv, hsame⟩ | ⟨hiterate, hlt⟩⟩ := hlast
    · rw [hsame, drop_length] at hvisits
      rw [hvisits]
      refine ⟨fun hstale => ?_, by simp⟩
      exact absurd (hpending (hsame ▸ hinv.labels) hstale) (hconv.not_pending _)
    · obtain ⟨-, -, steps, changed, hrelaxes, hlabels, htrace⟩ := hinv.iterate hK schedule hlt
      rw [← hiterate] at hrelaxes hlabels htrace
      rw [htrace, drop_left] at hvisits
      rw [hvisits, ← hrelaxes.mem_changed_iff, ← hrelaxes.mem_changed_iff]
      refine ⟨hpending hlabels, fun hlow hkept => ?_⟩
      have hbefore := (hrelaxes.mono node).1 hkept
      obtain ⟨-, -, y₀, hy₀, hle⟩ := hinv.extra.of_enters (hbefore.symm.trans hnode)
      have hlt := hrelaxes.cost_lt hlow hy₀ hy
      exact ⟨hop, c, y, hnode, hy, by omega⟩

end Last

/-- Each row has a walk from the source to its destination. The walk has the cost as its weight if no visit
of the last iteration lowers a node that a path took a cost from. If all rows are right, no visit does so,
unless the node that took the cost is visited as well and may have taken the new one. -/
theorem weightedSPPaths_cutOff (info : PathsOutputWriterInfo V) (hwrite : info.writePath = true)
    (g : OnDiskGraph V E) (direction : ExtendDirection) {weight : E → Nat}
    (hpos : ∀ edge, 0 < weight edge) (schedule : WeightedSchedule V E) (upperBound : UInt16)
    (source : V) (nodes : List V) (mask : V → Bool) :
    let s := run g direction wspPaths weight schedule upperBound source
    let visits := lastVisits g direction weight schedule upperBound source
    let dsts := info.destinations schedule.toSchedule nodes source s.data
    ∃ rounds, ∀ fuel, rounds ≤ fuel → ∃ rows,
      info.weightedSPPaths g direction weight schedule upperBound source nodes mask fuel = some rows ∧
      (∀ row ∈ rows, ∃ walk, (g.hops direction).IsWalk source walk row.dst ∧
        row = info.weightedRow row.dst walk row.cost) ∧
      ((∀ dst ∈ dsts, mask dst = true → dst ≠ source →
          ∀ walk, (parentHops s.entries).IsWalk source walk dst →
            ∀ hop ∈ walk, ¬ ∃ step ∈ visits, step.Lowers hop.node) →
        ∀ row ∈ rows, info.CostIsWeight (g.hops direction) weight source row) ∧
      ((∀ row ∈ rows, info.CostIsWeight (g.hops direction) weight source row) →
        ∀ dst ∈ dsts, mask dst = true → dst ≠ source →
          ∀ walk, (parentHops s.entries).IsWalk source walk dst →
            ∀ node ∈ dst :: walk.map (·.node), ∀ hop, (parentHops s.entries).enters hop node →
              (∃ step ∈ visits, step.Lowers hop.node) → ∃ step ∈ visits, step.Lowers node) := by
  intro s visits dsts
  have htree : ParentTree weight (g.hops direction) source s.entries :=
    (wspPaths_run g direction weight schedule upperBound source).1
  have hcost : ∀ {node x}, node ≠ source → s.entries node = some x → x.cost ≠ 0 := by
    intro node x hne hx
    obtain ⟨hop, y, -, -, -, hle⟩ := htree.parent hne hx
    have := hpos hop.edge
    omega
  choose rows rounds hrun hrows using wspWriteInternal_eq info htree hcost
  obtain ⟨rounds, hall⟩ := writeAll_eq mask dsts fun dst _ _ => ⟨rounds dst, hrun dst⟩
  -- The rows are those of the ways back of the destinations.
  have hmem : ∀ row, row ∈ (dsts.filter mask).flatMap rows ↔ ∃ dst ∈ dsts, mask dst = true ∧
      dst ≠ source ∧ ∃ x walk, s.entries dst = some x ∧ (parentHops s.entries).IsWalk source walk dst ∧
        row = info.weightedRow dst walk x.cost := by
    intro row
    simp only [mem_flatMap, mem_filter, and_assoc]
    refine exists_congr fun dst => and_congr_right fun _ => and_congr_right fun _ => ?_
    obtain ⟨hnil, hno⟩ | ⟨x, walk, heq, hne, hx, hwalk⟩ := hrows dst
    · rw [hnil]
      refine iff_of_false not_mem_nil ?_
      rintro ⟨hne, x, walk, hx, -⟩
      obtain hsource | hnone := hno
      · exact hne hsource
      · cases hnone.symm.trans hx
    · rw [heq, mem_singleton]
      refine ⟨fun hrow => ⟨hne, x, walk, hx, hwalk, hrow⟩, ?_⟩
      rintro ⟨-, x', walk', hx', hwalk', rfl⟩
      obtain rfl := Option.mem_unique hx hx'
      rw [htree.walk_unique hwalk hwalk']
  refine ⟨rounds, fun fuel hf => ⟨_, hall fuel hf, fun row hrow => ?_, ?_, ?_⟩⟩
  · obtain ⟨dst, -, -, -, x, walk, -, hwalk, rfl⟩ := (hmem row).1 hrow
    exact ⟨walk, htree.isWalk (fun _ => rfl) hwalk, rfl⟩
  · intro hlow row hrow
    obtain ⟨dst, hdst, hmask, hne, x, walk, hx, hwalk, rfl⟩ := (hmem row).1 hrow
    refine ⟨walk, htree.isWalk (fun _ => rfl) hwalk, rfl, (htree.walkWeight_eq_iff hwalk hx).2.2 ?_⟩
    intro node hnode hstale
    obtain ⟨hop, c, y, he, -⟩ := id hstale
    exact hlow dst hdst hmask hne walk hwalk hop (htree.mem_of_enters hwalk hnode he)
      ((lastVisits_spec g direction weight schedule upperBound source he).1 hstale)
  · intro hright dst hdst hmask hne walk hwalk node hnode hop henters hlow
    obtain ⟨x, hx⟩ : ∃ x, s.entries dst = some x := by
      cases walk with
      | nil => exact absurd hwalk hne
      | cons hop walk => exact ⟨_, hwalk.1.choose_spec⟩
    obtain ⟨walk', -, heq, hweight⟩ :=
      hright _ ((hmem _).2 ⟨dst, hdst, hmask, hne, x, walk, hx, hwalk, rfl⟩)
    have hfresh := (htree.walkWeight_eq_iff hwalk hx).2.1
      ((walkWeight_eq_of_weightedRow hwrite heq).trans hweight) node hnode
    by_contra hkept
    obtain ⟨c, he⟩ := henters
    exact hfresh ((lastVisits_spec g direction weight schedule upperBound source he).2 hlow hkept)

/-- Node 1 is reached by a relationship of weight 10 at once, and over node 3 later. -/
def detour : OnDiskGraph Nat Nat := ⟨[⟨0, 1, 10⟩, ⟨0, 3, 1⟩, ⟨1, 2, 2⟩, ⟨3, 1, 3⟩], by decide⟩

/-- The identifiers are the weights. The second iteration visits `1 → 2` before `3 → 1`: the cost of node 2
is 12, and the path that is written for it has the weight 6. -/
theorem weightedSPPaths_detour :
    weightedSPPaths { lowerBound := 1, writePath := true } detour .fwd id (.inOrder Nat Nat) 2 0 [2]
      (fun _ => true) 9 = some [⟨⟨2, 3, [], [3, 1], [1, 3, 2]⟩, 12⟩] ∧ ([1, 3, 2].map id).sum = 6 := by
  decide

/-- Node 2 is reached over node 1 in two steps, and over the nodes 3 and 4 by less weight in three. -/
def longWay : OnDiskGraph Nat Nat := ⟨[⟨0, 1, 5⟩, ⟨1, 2, 6⟩, ⟨0, 3, 1⟩, ⟨3, 4, 2⟩, ⟨4, 2, 3⟩], by decide⟩

/-- The bound stops the search before node 4 is visited: node 2 has a path that is not the shortest, with its
weight as the cost. -/
theorem weightedSPPaths_cutOff_longWay : (∀ edge, 0 < edge + 1) ∧
    ¬ (run longWay .fwd wspPaths (· + 1) (.inOrder Nat Nat) 2 0).Converged ∧
    ∃ rounds, ∀ fuel, rounds ≤ fuel → ∃ rows, weightedSPPaths { lowerBound := 1, writePath := true }
      longWay .fwd (· + 1) (.inOrder Nat Nat) 2 0 [1, 2, 3, 4] (fun _ => true) fuel = some rows ∧
      ∀ row ∈ rows, CostIsWeight { lowerBound := 1, writePath := true } (longWay.hops .fwd) (· + 1) 0 row := by
  have hpos (edge : Nat) : 0 < edge + 1 := Nat.succ_pos edge
  obtain ⟨rounds, h⟩ := weightedSPPaths_cutOff { lowerBound := 1, writePath := true } rfl longWay .fwd hpos
    (.inOrder Nat Nat) 2 0 [1, 2, 3, 4] (fun _ => true)
  refine ⟨hpos, by decide, rounds, fun fuel hf => ?_⟩
  obtain ⟨rows, hrows, -, hright, -⟩ := h fuel hf
  refine ⟨rows, hrows, hright fun dst hdst hmask hne walk hwalk hop hhop => ?_⟩
  rintro ⟨step, hstep, hnbr, -⟩
  -- The last iteration visits the nodes 2 and 4 only, and no node has a parent there.
  have hnbrs : (lastVisits longWay .fwd (· + 1) (.inOrder Nat Nat) 2 0).map (·.visit.nbr) = [2, 4] := by decide
  have hlast : hop.node ∈ [2, 4] := hnbrs ▸ hnbr ▸ mem_map_of_mem hstep
  have htree : ParentTree (· + 1) (longWay.hops .fwd) 0
      (run longWay .fwd wspPaths (· + 1) (.inOrder Nat Nat) 2 0).entries :=
    (wspPaths_run longWay .fwd (· + 1) (.inOrder Nat Nat) 2 0).1
  obtain ⟨node, c, he⟩ := exists_enters_of_mem hwalk hhop
  have hvisit : (⟨hop, node⟩ : EdgeVisit Nat Nat) ∈ longWay.visits .fwd := (htree.of_enters he).2.1
  have htwo : (run longWay .fwd wspPaths (· + 1) (.inOrder Nat Nat) 2 0).entries 2 =
      some ⟨some ⟨1, 6, true⟩, 13⟩ := by decide
  have hcases : ∀ visit ∈ longWay.visits .fwd, visit.hop.node ∈ [2, 4] → visit.nbr = 2 ∧ visit.hop.node = 4 := by
    decide
  obtain ⟨rfl, hfour⟩ := hcases _ hvisit hlast
  obtain ⟨⟨⟩⟩ := htwo.symm.trans he
  exact absurd hfour (by decide)

end CycleJoin
