import CycleJoin.Function.Gds.WeightedPaths

/-!
# All weighted shortest paths

`awsp_paths.cpp`: a node keeps all parents that give it its cost. A relationship that is offered at the
same cost is added in front of the list, unless it is the one at the head. The paths of a destination are
found by a search through the lists that backtracks.

* `ParentLists`: what holds of the lists while costs change, with every hop at the cost of its node in the
  list or still to come.
* `awspSearch_eq`: the search writes the walks that the lists make.
* `allWeightedSPPaths_exact_iff`: each walk of least weight is written once if and only if no visit offers
  a relationship that the list has below its head, at the least weight of the neighbour.
-/

namespace CycleJoin

open List Function WeightedState PathsOutputWriterInfo HopGraph

variable {V E : Type}

/-! ## The algorithm -/

/-- A `ParentList*` other than `nullptr`: the element it points to, and those after it. -/
structure WeightedParents (V E : Type) where
  head : WeightedParent V E
  next : List (WeightedParent V E)
  deriving DecidableEq, Repr

namespace WeightedParents

def cost (parents : WeightedParents V E) : Nat := parents.head.cost

def list (parents : WeightedParents V E) : List (WeightedParent V E) := parents.head :: parents.next

/-- The hops of a list. -/
def hops (parents : WeightedParents V E) : List (Hop V E) := parents.list.filterMap (·.hop)

end WeightedParents

/-- `tryAddParentWithWeight` and `WSPPathsAuxiliaryState`. -/
def awspPaths [DecidableEq E] : WeightedAlgorithm V E (WeightedParents V E) where
  cost := (·.cost)
  sourceEntry := ⟨⟨none, 0⟩, []⟩
  tryAdd entry hop newCost :=
    match entry with
    | none => some ⟨⟨some hop, newCost⟩, []⟩
    | some parents =>
      if newCost < parents.cost then some ⟨⟨some hop, newCost⟩, []⟩
      else if newCost = parents.cost ∧ parents.head.hop.map (·.edge) ≠ some hop.edge then
        some ⟨⟨some hop, newCost⟩, parents.list⟩
      else none
  cost_sourceEntry := rfl
  cost_of_tryAdd := by
    intro entry hop newCost new hadd
    cases entry with
    | none =>
      obtain rfl := Option.some.inj hadd
      exact ⟨rfl, fun _ h => nomatch h⟩
    | some parents =>
      dsimp only at hadd
      split at hadd
      · next hlt =>
        obtain rfl := Option.some.inj hadd
        exact ⟨rfl, fun _ h => Option.some.inj h ▸ Nat.le_of_lt hlt⟩
      · split at hadd
        · next heq =>
          obtain rfl := Option.some.inj hadd
          exact ⟨rfl, fun _ h => Option.some.inj h ▸ Nat.le_of_eq heq.1⟩
        · cases hadd
  le_of_tryAdd := by
    intro entry hop newCost hadd
    cases entry with
    | none => cases hadd
    | some parents =>
      dsimp only at hadd
      split at hadd
      · cases hadd
      · next hle => exact ⟨parents, rfl, Nat.not_lt.mp hle⟩

/-! ## Output -/

/-- `curPath` with the top first, `backtracking`, and the paths written so far. -/
structure AwspState (V E : Type) where
  stack : List (WeightedParents V E)
  backtracking : Bool
  out : List (List (ParentEntry V E))

/-- The elements of `curPath`, from the parent of the destination on. -/
def awspPath (stack : List (WeightedParents V E)) : List (ParentEntry V E) :=
  (stack.reverse.map (·.head)).filterMap (·.toParentEntry)

/-- One round of the loop of `AWSPPathsOutputWriter::writeInternal`. After the source has been popped
there is a top again, unless the destination has the cost zero. -/
def awspStep (entries : V → Option (WeightedParents V E)) (s : AwspState V E) : Option (AwspState V E) :=
  match s.stack with
  | [] => none
  | top :: rest =>
    let found : AwspState V E :=
      if top.cost = 0 then ⟨rest, true, s.out ++ [awspPath rest]⟩ else s
    match found.stack with
    | [] => none
    | top :: rest =>
      if found.backtracking then
        match top.next with
        | [] => some ⟨rest, true, found.out⟩
        | head :: next => some ⟨⟨head, next⟩ :: rest, false, found.out⟩
      else
        match top.head.hop.bind fun hop => entries hop.node with
        | none => none
        | some parent => some ⟨parent :: top :: rest, false, found.out⟩

/-- The loop, until the stack is empty. -/
def awspLoop (entries : V → Option (WeightedParents V E)) :
    Nat → AwspState V E → Option (List (List (ParentEntry V E)))
  | fuel, s =>
    if s.stack.isEmpty then some s.out
    else
      match fuel with
      | 0 => none
      | fuel + 1 => (awspStep entries s).bind (awspLoop entries fuel)

section Output

variable [DecidableEq V] [DecidableEq E] (info : PathsOutputWriterInfo V)

/-- `AWSPPathsOutputWriter::writeInternal`. -/
def PathsOutputWriterInfo.awspWriteInternal (entries : V → Option (WeightedParents V E)) (source : V)
    (fuel : Nat) (dst : V) : Option (List (WeightedPathRow V E)) :=
  if dst = source then some []
  else
    match entries dst with
    | none => some []
    | some firstParent =>
      (awspLoop entries fuel ⟨[firstParent], false, []⟩).map fun paths =>
        paths.map fun path => ⟨info.pathRow dst path, firstParent.cost⟩

/-- `AllWeightedSPPathsFunction` from a source. -/
def PathsOutputWriterInfo.allWeightedSPPaths (g : OnDiskGraph V E) (direction : ExtendDirection)
    (weight : E → Nat) (schedule : WeightedSchedule V E) (upperBound : UInt16) (source : V)
    (nodes : List V) (mask : V → Bool) (fuel : Nat) : Option (List (WeightedPathRow V E)) :=
  let s := run g direction awspPaths weight schedule upperBound source
  writeAll mask (info.awspWriteInternal s.entries source fuel)
    (info.destinations schedule.toSchedule nodes source s.data)

end Output

/-! ## What is asked for -/

/-- The rows of all walks of least weight for each destination. -/
def AllWeightedPathsExact [DecidableEq V] (info : PathsOutputWriterInfo V) (G : HopGraph V (Hop V E))
    (weight : E → Nat) (source : V) (Dest : CostRow V → Prop) (rows : List (WeightedPathRow V E)) :
    Prop :=
  (∀ row ∈ rows, Dest ⟨row.dst, row.cost⟩) ∧
    ∀ row, Dest row → ∃ walks : List (List (Hop V E)), walks.Nodup ∧
      (∀ walk, walk ∈ walks ↔ G.IsWalk source walk row.dst ∧
        walkWeight (hopWeight weight) walk = row.cost) ∧
      (rows.filter (·.dst = row.dst)).Perm (walks.map (info.weightedRow row.dst · row.cost))

/-- A visit that offers a relationship which the list of the neighbour has below its head, at the cost of
the list. -/
def RepeatsParent (step : WeightedStep V E (WeightedParents V E)) : Prop :=
  ∃ parents, step.entries step.visit.nbr = some parents ∧ parents.cost = step.newCost ∧
    parents.head.hop.map (·.edge) ≠ some step.visit.hop.edge ∧
    step.visit.hop ∈ parents.next.filterMap (·.hop)

/-! ## The parent lists of a run -/

/-- What holds of parent lists: the parents of a list have one cost, and they cost less than their child by
the weight of the hop at least. A hop that gives its node its cost is in the list, or it is still to
come. -/
structure ParentLists (weight : E → Nat) (G : HopGraph V (Hop V E)) (source : V)
    (toCome : Hop V E → V → Prop) (entries : V → Option (WeightedParents V E)) : Prop where
  atSource : entries source = some ⟨⟨none, 0⟩, []⟩
  parent : ∀ {node parents p}, node ≠ source → entries node = some parents → p ∈ parents.list →
    p.cost = parents.cost ∧ ∃ hop y, p.hop = some hop ∧ G.enters hop node ∧
      entries hop.node = some y ∧ y.cost + weight hop.edge ≤ parents.cost
  complete : ∀ {hop node x parents}, G.enters hop node → entries hop.node = some x →
    entries node = some parents → x.cost + weight hop.edge = parents.cost →
    hop ∈ parents.hops ∨ toCome hop node

/-- What the visits so far say about repeated hops in the lists. -/
structure RepeatsTraced (entries : V → Option (WeightedParents V E))
    (trace : List (WeightedStep V E (WeightedParents V E))) : Prop where
  older : ∀ step ∈ trace, ∀ {node x}, step.entries node = some x →
    ∃ y, entries node = some y ∧ y.cost ≤ x.cost
  nodup_iff : ∀ {node parents}, entries node = some parents → (parents.hops.Nodup ↔
    ∀ step ∈ trace, step.visit.nbr = node → step.newCost = parents.cost → ¬ RepeatsParent step)

section Invariant

variable [DecidableEq E] {weight : E → Nat} {G : HopGraph V (Hop V E)} {source : V}
  {entries : V → Option (WeightedParents V E)} {toCome : Hop V E → V → Prop}
  {trace : List (WeightedStep V E (WeightedParents V E))} {visit : EdgeVisit V E} {newCost : Nat}
  {entry : WeightedParents V E}

theorem awspPaths_tryAdd_some {old : Option (WeightedParents V E)} {hop : Hop V E}
    (h : awspPaths.tryAdd old hop newCost = some entry) :
    (entry = ⟨⟨some hop, newCost⟩, []⟩ ∧ ∀ parents, old = some parents → newCost < parents.cost) ∨
      ∃ parents, old = some parents ∧ newCost = parents.cost ∧
        parents.head.hop.map (·.edge) ≠ some hop.edge ∧ entry = ⟨⟨some hop, newCost⟩, parents.list⟩ := by
  cases old with
  | none => exact .inl ⟨(Option.some.inj h).symm, fun _ h => nomatch h⟩
  | some parents =>
    simp only [awspPaths] at h
    split at h
    · next hlt => exact .inl ⟨(Option.some.inj h).symm, fun _ heq => Option.some.inj heq ▸ hlt⟩
    · split at h
      · next heq => exact .inr ⟨parents, rfl, heq.1, heq.2, (Option.some.inj h).symm⟩
      · cases h

theorem awspPaths_tryAdd_none {old : Option (WeightedParents V E)} {hop : Hop V E}
    (h : awspPaths.tryAdd old hop newCost = none) : ∃ parents, old = some parents ∧ (parents.cost < newCost ∨
        newCost = parents.cost ∧ parents.head.hop.map (·.edge) = some hop.edge) := by
  cases old with
  | none => cases h
  | some parents =>
    refine ⟨parents, rfl, ?_⟩
    simp only [awspPaths] at h
    split at h
    · cases h
    · next hle =>
      split at h
      · cases h
      · next hne =>
        obtain hlt | heq := Nat.lt_or_eq_of_le (not_lt.mp hle)
        · exact .inl hlt
        · exact .inr ⟨heq.symm, not_not.mp fun hedge => hne ⟨heq.symm, hedge⟩⟩

omit [DecidableEq E] in
/-- The lists that the visits saw, the last one included, were not cheaper. -/
theorem RepeatsTraced.older_snoc (h : RepeatsTraced entries trace)
    {step : WeightedStep V E (WeightedParents V E)} (hs : step ∈ trace ++ [⟨entries, visit, newCost⟩])
    {node : V} {x : WeightedParents V E} (hx : step.entries node = some x) :
    ∃ y, entries node = some y ∧ y.cost ≤ x.cost := by
  obtain hs | hs := mem_append.mp hs
  · exact h.older step hs hx
  · obtain rfl := mem_singleton.mp hs
    exact ⟨x, hx, le_rfl⟩

/-- A visit that adds nothing repeats nothing. -/
theorem RepeatsTraced.keep (h : RepeatsTraced entries trace)
    (hnone : awspPaths.tryAdd (entries visit.nbr) visit.hop newCost = none) :
    RepeatsTraced entries (trace ++ [⟨entries, visit, newCost⟩]) := by
  obtain ⟨parents, hparents, hcases⟩ := awspPaths_tryAdd_none hnone
  have hlast : ¬ RepeatsParent ⟨entries, visit, newCost⟩ := by
    rintro ⟨parents', hparents', hcost, hedge, -⟩
    obtain rfl := Option.mem_unique hparents hparents'
    dsimp only at hcost hedge
    obtain hlt | ⟨-, heq⟩ := hcases
    · omega
    · exact hedge heq
  refine ⟨fun step hs {node x} hx => h.older_snoc hs hx, fun {node parents} hp => ?_⟩
  rw [h.nodup_iff hp, forall_mem_append, forall_mem_singleton]
  exact (and_iff_left fun _ _ => hlast).symm

variable [DecidableEq V]

theorem RepeatsTraced.add (h : RepeatsTraced entries trace)
    (hadd : awspPaths.tryAdd (entries visit.nbr) visit.hop newCost = some entry) :
    RepeatsTraced (update entries visit.nbr (some entry)) (trace ++ [⟨entries, visit, newCost⟩]) := by
  obtain ⟨hcost, hmin⟩ := awspPaths.cost_of_tryAdd hadd
  have hcost : entry.cost = newCost := hcost
  refine ⟨fun step hs {node x} hx => ?_, fun {node parents} hp => ?_⟩
  · obtain ⟨y, hy, hle⟩ := h.older_snoc hs hx
    by_cases hn : node = visit.nbr
    · subst hn
      exact ⟨entry, update_self .., hcost ▸ (hmin y hy).trans hle⟩
    · exact ⟨y, by rwa [update_of_ne hn], hle⟩
  by_cases hn : node = visit.nbr
  · subst hn
    rw [update_self] at hp
    obtain rfl := Option.some.inj hp
    obtain ⟨rfl, hlt⟩ | ⟨old, hold, heq, hedge, rfl⟩ := awspPaths_tryAdd_some hadd
    · -- No list of the neighbour has had the new cost before.
      refine iff_of_true (by simp [WeightedParents.hops, WeightedParents.list]) fun step hs hnbr hc => ?_
      rintro ⟨parents, hparents, hpcost, -⟩
      rw [hnbr] at hparents
      obtain ⟨y, hy, hle⟩ := h.older_snoc hs hparents
      have := hlt y hy
      omega
    · have hhops : (⟨⟨some visit.hop, newCost⟩, old.list⟩ : WeightedParents V E).hops = visit.hop :: old.hops := by
        simp [WeightedParents.hops, WeightedParents.list]
      have hlast : RepeatsParent ⟨entries, visit, newCost⟩ ↔ visit.hop ∈ old.hops := by
        constructor
        · rintro ⟨parents, hparents, -, -, hmem⟩
          obtain rfl := Option.mem_unique hold hparents
          obtain ⟨p, hp, hhop⟩ := mem_filterMap.mp hmem
          exact mem_filterMap.mpr ⟨p, mem_cons_of_mem _ hp, hhop⟩
        · intro hmem
          obtain ⟨p, hp, hhop⟩ := mem_filterMap.mp hmem
          refine ⟨old, hold, heq.symm, hedge, mem_filterMap.mpr ⟨p, ?_, hhop⟩⟩
          refine (mem_cons.mp hp).resolve_left fun hhead => hedge ?_
          rw [← hhead, hhop]
          rfl
      rw [hhops, nodup_cons, h.nodup_iff hold, ← hlast]
      constructor
      · rintro ⟨hnot, hall⟩ step hs hnbr hc
        obtain hs | hs := mem_append.mp hs
        · exact hall step hs hnbr (hc.trans heq)
        · obtain rfl := mem_singleton.mp hs
          exact hnot
      · intro hall
        refine ⟨hall _ (mem_append_right _ mem_cons_self) rfl rfl, fun step hs hnbr hc => ?_⟩
        exact hall step (mem_append_left _ hs) hnbr (hc.trans heq.symm)
  · rw [update_of_ne hn] at hp
    rw [h.nodup_iff hp, forall_mem_append, forall_mem_singleton]
    exact (and_iff_left fun hnbr => absurd hnbr.symm hn).symm

/-- A hop is still to come in an iteration: its node has changed, or it is pending and the hop has not been
visited. -/
def ToCome (pending : V → Prop) (steps : List (WeightedStep V E (WeightedParents V E)))
    (changed : List V) (hop : Hop V E) (node : V) : Prop :=
  hop.node ∈ changed ∨ pending hop.node ∧ ⟨hop, node⟩ ∉ steps.map (·.visit)

omit [DecidableEq V] [DecidableEq E] in
theorem ToCome.snoc {pending : V → Prop} {steps : List (WeightedStep V E (WeightedParents V E))}
    {changed changed' : List V} {step : WeightedStep V E (WeightedParents V E)} {hop : Hop V E} {node : V}
    (h : ToCome pending steps changed hop node) (hsub : changed ⊆ changed')
    (hne : step.visit ≠ ⟨hop, node⟩) : ToCome pending (steps ++ [step]) changed' hop node := by
  refine h.imp (fun hmem => hsub hmem) fun ⟨hp, hnot⟩ => ⟨hp, ?_⟩
  rw [map_append, mem_append]
  rintro (hmem | hlast)
  · exact hnot hmem
  · exact hne (mem_singleton.mp hlast).symm

omit [DecidableEq V] [DecidableEq E] in
theorem ParentLists.mono {toCome' : Hop V E → V → Prop} (h : ParentLists weight G source toCome entries)
    (hsub : ∀ {hop node}, G.enters hop node → toCome hop node → toCome' hop node) :
    ParentLists weight G source toCome' entries :=
  ⟨h.atSource, h.parent, fun he hx hp heq => (h.complete he hx hp heq).imp_right (hsub he)⟩

section Step

variable {pending : V → Prop} {steps : List (WeightedStep V E (WeightedParents V E))} {changed : List V}
  {c : Nat}
  (hpos : ∀ edge, 0 < weight edge)
  (hedges : ∀ {hop hop' node}, G.enters hop node → G.enters hop' node → hop.edge = hop'.edge →
    hop = hop' ∨ hop.node = node)

include hpos hedges

omit [DecidableEq V] in
/-- A visit that adds nothing has its hop in the list if it gives the node its cost. -/
theorem ParentLists.keep (h : ParentLists weight G source (ToCome pending steps changed) entries)
    (hread : ReadsCost awspPaths weight G source entries changed visit.hop.node c)
    (hnone : awspPaths.tryAdd (entries visit.nbr) visit.hop (c + weight visit.hop.edge) = none) :
    ParentLists weight G source
      (ToCome pending (steps ++ [⟨entries, visit, c + weight visit.hop.edge⟩]) changed) entries := by
  refine ⟨h.atSource, h.parent, fun {hop node x parents} he hx hp heq => ?_⟩
  obtain hmem | hcome := h.complete he hx hp heq
  · exact .inl hmem
  by_cases hvisit : visit = ⟨hop, node⟩
  · subst hvisit
    by_cases hchanged : hop.node ∈ changed
    · exact .inr (.inl hchanged)
    -- The cost of the node is read as it is, so the head of the list has the relationship.
    obtain ⟨x', hx', -, hcur⟩ := hread.current
    obtain rfl := Option.mem_unique hx hx'
    obtain rfl : c = x.cost := hcur.resolve_right hchanged
    obtain ⟨parents', hp', hcases⟩ := awspPaths_tryAdd_none hnone
    obtain rfl := Option.mem_unique hp hp'
    obtain hlt | ⟨-, hedge⟩ := hcases
    · dsimp only at hlt
      omega
    have hw := hpos hop.edge
    have hne : node ≠ source := by
      rintro rfl
      obtain rfl := Option.mem_unique hp h.atSource
      have : (0 : Nat) = x.cost + weight hop.edge := heq.symm
      omega
    obtain ⟨-, hop', -, hhop, he', -⟩ := h.parent hne hp mem_cons_self
    rw [hhop] at hedge
    obtain rfl | hself := hedges he he' (Option.some.inj hedge).symm
    · exact .inl (mem_filterMap.mpr ⟨_, mem_cons_self, hhop⟩)
    · rw [hself, hp] at hx
      obtain rfl := Option.some.inj hx
      omega
  · exact .inr (hcome.snoc (Subset.refl _) hvisit)

omit hedges in
theorem ParentLists.add (h : ParentLists weight G source (ToCome pending steps changed) entries)
    (hrelaxed : ∀ {hop node x}, G.enters hop node → entries hop.node = some x → hop.node ∉ changed →
      (⟨hop, node⟩ ∈ steps.map (·.visit) ∨ ¬ pending hop.node) →
      ∃ y, entries node = some y ∧ y.cost ≤ x.cost + weight hop.edge)
    (henters : G.enters visit.hop visit.nbr)
    (hread : ReadsCost awspPaths weight G source entries changed visit.hop.node c)
    (hadd : awspPaths.tryAdd (entries visit.nbr) visit.hop (c + weight visit.hop.edge) = some entry) :
    ParentLists weight G source
      (ToCome pending (steps ++ [⟨entries, visit, c + weight visit.hop.edge⟩]) (visit.nbr :: changed))
      (update entries visit.nbr (some entry)) := by
  obtain ⟨hcost, hmin⟩ := awspPaths.cost_of_tryAdd hadd
  replace hcost : entry.cost = c + weight visit.hop.edge := hcost
  replace hmin : ∀ x, entries visit.nbr = some x → c + weight visit.hop.edge ≤ x.cost := hmin
  have hw := hpos visit.hop.edge
  obtain ⟨y, hy, hyle, -⟩ := hread.current
  replace hyle : y.cost ≤ c := hyle
  have hsource : visit.nbr ≠ source := by
    intro hn
    have := hmin _ (hn ▸ h.atSource)
    have h0 : (⟨⟨none, 0⟩, []⟩ : WeightedParents V E).cost = 0 := rfl
    omega
  have hbound : visit.hop.node ≠ visit.nbr := by
    intro hn
    have := hmin y (hn ▸ hy)
    omega
  -- An entry that was there is one of at most the same cost.
  have hlower : ∀ {node x}, entries node = some x → ∃ x',
      update entries visit.nbr (some entry) node = some x' ∧ x'.cost ≤ x.cost := by
    intro node x hx
    by_cases hn : node = visit.nbr
    · subst hn
      exact ⟨entry, update_self .., hcost ▸ hmin x hx⟩
    · exact ⟨x, by rwa [update_of_ne hn], le_rfl⟩
  constructor
  case atSource =>
    rw [update_of_ne hsource.symm]
    exact h.atSource
  case parent =>
    intro node parents p hne hp hmem
    by_cases hn : node = visit.nbr
    · subst hn
      rw [update_self] at hp
      obtain rfl := Option.some.inj hp
      have hhead : p = ⟨some visit.hop, c + weight visit.hop.edge⟩ → p.cost = entry.cost ∧
          ∃ hop y, p.hop = some hop ∧ G.enters hop visit.nbr ∧
            update entries visit.nbr (some entry) hop.node = some y ∧
            y.cost + weight hop.edge ≤ entry.cost := by
        rintro rfl
        refine ⟨hcost.symm, visit.hop, y, rfl, henters, by rwa [update_of_ne hbound], ?_⟩
        omega
      obtain ⟨hentry, -⟩ | ⟨old, hold, heq, -, hentry⟩ := awspPaths_tryAdd_some hadd
      · rw [hentry] at hmem
        exact hhead (mem_singleton.mp hmem)
      · rw [hentry] at hmem
        obtain hfirst | hmem := mem_cons.mp hmem
        · exact hhead hfirst
        · obtain ⟨hpcost, hop, z, hhop, he, hz, hle⟩ := h.parent hne hold hmem
          obtain ⟨z', hz', hzle⟩ := hlower hz
          exact ⟨by omega, hop, z', hhop, he, hz', by omega⟩
    · rw [update_of_ne hn] at hp
      obtain ⟨hpcost, hop, z, hhop, he, hz, hle⟩ := h.parent hne hp hmem
      obtain ⟨z', hz', hzle⟩ := hlower hz
      exact ⟨hpcost, hop, z', hhop, he, hz', by omega⟩
  case complete =>
    intro hop node x parents he hx hp heq
    by_cases hbn : hop.node = visit.nbr
    · exact .inr (.inl (hbn ▸ mem_cons_self))
    rw [update_of_ne hbn] at hx
    by_cases hn : node = visit.nbr
    · subst hn
      rw [update_self] at hp
      obtain rfl := Option.some.inj hp
      by_cases hvisit : visit = ⟨hop, visit.nbr⟩
      · have hhop : visit.hop = hop := congrArg (·.hop) hvisit
        have hhead : entry.head.hop = some hop := by
          obtain ⟨hentry, -⟩ | ⟨_, _, _, _, hentry⟩ := awspPaths_tryAdd_some hadd
          · rw [hentry, ← hhop]
          · rw [hentry, ← hhop]
        exact .inl (mem_filterMap.mpr ⟨entry.head, mem_cons_self, hhead⟩)
      have hcome : ToCome pending steps changed hop visit.nbr → ToCome pending
          (steps ++ [⟨entries, visit, c + weight visit.hop.edge⟩]) (visit.nbr :: changed) hop visit.nbr :=
        fun hcome => hcome.snoc (subset_cons_self _ _) hvisit
      obtain ⟨-, hlt⟩ | ⟨old, hold, hocost, -, hentry⟩ := awspPaths_tryAdd_some hadd
      · -- The hop would have lowered the old cost, so it has not been visited since its node changed.
        refine .inr (hcome (by_contra fun hnot => ?_))
        have hnot' := not_or.mp hnot
        obtain ⟨z, hz, hzle⟩ := hrelaxed he hx hnot'.1 (by
          by_cases hpend : pending hop.node
          · exact .inl (not_not.mp fun hmem => hnot'.2 ⟨hpend, hmem⟩)
          · exact .inr hpend)
        have := hlt z hz
        omega
      · obtain hmem | hc := h.complete he hx hold (by omega)
        · obtain ⟨p, hpmem, hhop⟩ := mem_filterMap.mp hmem
          refine .inl (mem_filterMap.mpr ⟨p, ?_, hhop⟩)
          rw [hentry]
          exact mem_cons_of_mem _ hpmem
        · exact .inr (hcome hc)
    · rw [update_of_ne hn] at hp
      refine (h.complete he hx hp heq).imp_right fun hc =>
        hc.snoc (subset_cons_self _ _) fun hvisit => hn ?_
      have hnbr : visit.nbr = node := congrArg (·.nbr) hvisit
      exact hnbr.symm

/-- The lists of a run, and what its visits say about them. -/
theorem awspPaths_invariant (horigin : ∀ hop, G.origin hop = hop.node) :
    WeightedInvariant awspPaths weight G source fun pending entries trace =>
      ParentLists weight G source (fun hop _ => pending hop.node) entries ∧ RepeatsTraced entries trace where
  init := by
    have hentry : ∀ {node x}, update (fun _ => none) source
        (some (⟨⟨none, 0⟩, []⟩ : WeightedParents V E)) node = some x →
        node = source ∧ x = ⟨⟨none, 0⟩, []⟩ := by
      intro node x hx
      by_cases hn : node = source
      · subst hn
        rw [update_self] at hx
        exact ⟨rfl, (Option.some.inj hx).symm⟩
      · rw [update_of_ne hn] at hx
        cases hx
    refine ⟨⟨update_self .., fun hne hp => absurd (hentry hp).1 hne,
      fun _ hx _ _ => .inr (hentry hx).1⟩, (fun step hs => nomatch hs), fun hp => ?_⟩
    rw [(hentry hp).2]
    exact iff_of_true .nil fun step hs => nomatch hs
  mono := fun hsub h => ⟨h.1.mono fun _ => hsub _, h.2⟩
  step := by
    intro pending entries trace steps entries' changed hlabels h hrelaxes hsteps hcover
    have hduring : ParentLists weight G source (ToCome pending steps changed) entries' ∧
        RepeatsTraced entries' (trace ++ steps) := by
      clear hcover
      induction hrelaxes with
      | nil =>
        rw [append_nil]
        exact ⟨h.1.mono fun _ hp => .inr ⟨hp, by simp⟩, h.2⟩
      | keep visit c _ hread hnone ih =>
        obtain ⟨hlists, htraced⟩ := ih fun step hs => hsteps step (mem_append_left _ hs)
        rw [← append_assoc]
        exact ⟨hlists.keep hpos hedges hread hnone, htraced.keep hnone⟩
      | add visit c entry hprev hread hadd ih =>
        have hsteps' := fun step hs => hsteps step (mem_append_left _ hs)
        obtain ⟨hlists, htraced⟩ := ih hsteps'
        obtain ⟨-, hrelaxed⟩ := hlabels.during horigin hprev hsteps'
        have henters := hsteps _ (mem_append_right _ mem_cons_self)
        rw [← append_assoc]
        exact ⟨hlists.add hpos hrelaxed henters hread hadd, htraced.add hadd⟩
    exact ⟨hduring.1.mono fun he hcome => hcome.resolve_right fun ⟨hp, hnot⟩ => hnot (hcover he hp), hduring.2⟩

end Step

end Invariant

/-! ## The search -/

/-- What the search needs of parent lists: the costs go down to the source. -/
structure SearchLists (source : V) (entries : V → Option (WeightedParents V E)) : Prop where
  atSource : entries source = some ⟨⟨none, 0⟩, []⟩
  parent : ∀ {node parents p}, node ≠ source → entries node = some parents → p ∈ parents.list →
    p.cost = parents.cost ∧ ∃ hop y, p.hop = some hop ∧ entries hop.node = some y ∧ y.cost < parents.cost

theorem ParentLists.searchLists {weight : E → Nat} {G : HopGraph V (Hop V E)} {source : V}
    {toCome : Hop V E → V → Prop} {entries : V → Option (WeightedParents V E)}
    (h : ParentLists weight G source toCome entries) (hpos : ∀ edge, 0 < weight edge) :
    SearchLists source entries := by
  refine ⟨h.atSource, fun hne hp hmem => ?_⟩
  obtain ⟨hcost, hop, y, hhop, -, hy, hle⟩ := h.parent hne hp hmem
  have := hpos hop.edge
  exact ⟨hcost, hop, y, hhop, hy, by omega⟩

/-- The hops in the list of a node. -/
def hopsOf (entries : V → Option (WeightedParents V E)) (node : V) : List (Hop V E) :=
  (entries node).elim [] (·.hops)

/-- The walks that lists make, of at most `k` hops. -/
def weightedWalks [DecidableEq V] (hopsOf : V → List (Hop V E)) (source : V) :
    Nat → V → List (List (Hop V E))
  | 0, _ => []
  | k + 1, node => (hopsOf node).flatMap fun hop =>
      (if hop.node = source then [[]] else weightedWalks hopsOf source k hop.node).map (hop :: ·)

section Search

variable {source : V} {entries : V → Option (WeightedParents V E)} {s s' s'' : AwspState V E}
  {top : WeightedParents V E} {rest : List (WeightedParents V E)} {out : List (List (ParentEntry V E))}

/-- The loop comes from one state to another. -/
def AwspReaches (entries : V → Option (WeightedParents V E)) (s s' : AwspState V E) : Prop :=
  ∃ rounds, ∀ fuel, awspLoop entries (rounds + fuel) s = awspLoop entries fuel s'

theorem AwspReaches.trans (h : AwspReaches entries s s') (h' : AwspReaches entries s' s'') :
    AwspReaches entries s s'' := by
  obtain ⟨m, hm⟩ := h
  obtain ⟨n, hn⟩ := h'
  exact ⟨m + n, fun fuel => by rw [add_assoc, hm, hn]⟩

theorem AwspReaches.of_step (hs : s.stack ≠ []) (h : awspStep entries s = some s') : AwspReaches entries s s' := by
  refine ⟨1, fun fuel => ?_⟩
  conv => lhs; rw [add_comm, awspLoop]
  simp [hs, h]

/-- What the stack becomes after all walks through the head of its top: the next parent takes its place, or
the top is popped. -/
def awspAfter (top : WeightedParents V E) (rest : List (WeightedParents V E))
    (out : List (List (ParentEntry V E))) : AwspState V E :=
  match top.next with
  | [] => ⟨rest, true, out⟩
  | head :: next => ⟨⟨head, next⟩ :: rest, false, out⟩

theorem awspStep_forward (hcost : top.cost ≠ 0) {hop : Hop V E} (hhop : top.head.hop = some hop)
    {y : WeightedParents V E} (hy : entries hop.node = some y) :
    awspStep entries ⟨top :: rest, false, out⟩ = some ⟨y :: top :: rest, false, out⟩ := by
  simp [awspStep, hcost, hhop, hy]

theorem awspStep_back (hcost : top.cost ≠ 0) :
    awspStep entries ⟨top :: rest, true, out⟩ = some (awspAfter top rest out) := by
  unfold awspStep awspAfter
  cases hnext : top.next <;> simp [hcost, hnext]

theorem awspStep_source {y : WeightedParents V E} (hy : y.cost = 0) (backtracking : Bool) :
    awspStep entries ⟨y :: top :: rest, backtracking, out⟩ =
      some (awspAfter top rest (out ++ [awspPath (top :: rest)])) := by
  unfold awspStep awspAfter
  cases hnext : top.next <;> simp [hy, hnext]

theorem awspPath_cons {hop : Hop V E} (hhop : top.head.hop = some hop) :
    awspPath (top :: rest) = awspPath rest ++ [⟨hop, 2 ^ 16 - 1⟩] := by
  simp [awspPath, WeightedParent.toParentEntry, hhop]

variable [DecidableEq V]

/-- The walks through a hop, written below the elements of a stack. -/
def pathsThrough (hopsOf : V → List (Hop V E)) (source : V) (k : Nat)
    (rest : List (WeightedParents V E)) (hops : List (Hop V E)) : List (List (ParentEntry V E)) :=
  (hops.flatMap fun hop =>
    (if hop.node = source then [[]] else weightedWalks hopsOf source k hop.node).map (hop :: ·)).map
      fun walk => awspPath rest ++ walk.map fun hop => ⟨hop, 2 ^ 16 - 1⟩

theorem pathsThrough_cons (hopsOf : V → List (Hop V E)) (k : Nat) (hop : Hop V E) (hops : List (Hop V E)) :
    pathsThrough hopsOf source k rest (hop :: hops) =
      pathsThrough hopsOf source k rest [hop] ++ pathsThrough hopsOf source k rest hops := by
  simp [pathsThrough]

namespace SearchLists

theorem reaches_after (h : SearchLists source entries) {k : Nat}
    (ih : ∀ {node y}, node ≠ source → entries node = some y → y.cost ≤ k → ∀ rest out,
      AwspReaches entries ⟨y :: rest, false, out⟩
        ⟨rest, true, out ++ (weightedWalks (hopsOf entries) source k node).map fun walk =>
          awspPath rest ++ walk.map fun hop => ⟨hop, 2 ^ 16 - 1⟩⟩)
    {hop : Hop V E} (hhop : top.head.hop = some hop) {y : WeightedParents V E}
    (hy : entries hop.node = some y) (hlt : y.cost < top.cost) (hk : top.cost ≤ k + 1) :
    AwspReaches entries ⟨top :: rest, false, out⟩
      (awspAfter top rest (out ++ pathsThrough (hopsOf entries) source k rest [hop])) := by
  have hcost : top.cost ≠ 0 := by omega
  refine (AwspReaches.of_step (cons_ne_nil _ _) (awspStep_forward hcost hhop hy)).trans ?_
  by_cases hs : hop.node = source
  · rw [hs, h.atSource] at hy
    obtain rfl := Option.some.inj hy
    have hpaths : pathsThrough (hopsOf entries) source k rest [hop] = [awspPath (top :: rest)] := by
      simp [pathsThrough, hs, awspPath_cons hhop]
    rw [hpaths]
    exact .of_step (cons_ne_nil _ _) (awspStep_source rfl false)
  · have hpaths : pathsThrough (hopsOf entries) source k rest [hop] =
        (weightedWalks (hopsOf entries) source k hop.node).map fun walk =>
          awspPath (top :: rest) ++ walk.map fun hop => ⟨hop, 2 ^ 16 - 1⟩ := by
      simp [pathsThrough, hs, awspPath_cons hhop]
    rw [hpaths]
    exact (ih hs hy (by omega) (top :: rest) out).trans (.of_step (cons_ne_nil _ _) (awspStep_back hcost))

/-- The search from a parent list that has been pushed writes the walks of its node, and pops it. -/
theorem reaches (h : SearchLists source entries) (k : Nat) {node : V} {parents : WeightedParents V E}
    (hne : node ≠ source) (hp : entries node = some parents) (hk : parents.cost ≤ k)
    (rest : List (WeightedParents V E)) (out : List (List (ParentEntry V E))) :
    AwspReaches entries ⟨parents :: rest, false, out⟩
      ⟨rest, true, out ++ (weightedWalks (hopsOf entries) source k node).map fun walk =>
        awspPath rest ++ walk.map fun hop => ⟨hop, 2 ^ 16 - 1⟩⟩ := by
  induction k generalizing node parents rest out with
  | zero =>
    obtain ⟨-, _, _, _, _, hlt⟩ := h.parent hne hp mem_cons_self
    omega
  | succ k ih =>
    have hwalks : ((weightedWalks (hopsOf entries) source (k + 1) node).map fun walk =>
        awspPath rest ++ walk.map fun hop => ⟨hop, 2 ^ 16 - 1⟩) =
          pathsThrough (hopsOf entries) source k rest parents.hops := by
      simp [weightedWalks, pathsThrough, hopsOf, hp]
    rw [hwalks]
    -- The elements of the list after the head take its place one after another.
    have hlist : ∀ p ∈ parents.list, p.cost ≤ k + 1 ∧ ∃ hop y, p.hop = some hop ∧
        entries hop.node = some y ∧ y.cost < p.cost := by
      intro p hmem
      obtain ⟨hcost, hop, y, hhop, hy, hlt⟩ := h.parent hne hp hmem
      exact ⟨hcost ▸ hk, hop, y, hhop, hy, hcost.symm ▸ hlt⟩
    clear hwalks hp hk hne
    obtain ⟨head, next⟩ := parents
    induction next generalizing head out with
    | nil =>
      obtain ⟨hle, hop, y, hhop, hy, hlt⟩ := hlist head mem_cons_self
      have hhops : (⟨head, []⟩ : WeightedParents V E).hops = [hop] := by
        simp [WeightedParents.hops, WeightedParents.list, hhop]
      rw [hhops]
      exact h.reaches_after ih hhop hy hlt hle
    | cons second next ihnext =>
      obtain ⟨hle, hop, y, hhop, hy, hlt⟩ := hlist head mem_cons_self
      have hhops : (⟨head, second :: next⟩ : WeightedParents V E).hops =
          hop :: (⟨second, next⟩ : WeightedParents V E).hops := by
        simp [WeightedParents.hops, WeightedParents.list, hhop]
      rw [hhops, pathsThrough_cons, ← append_assoc]
      have hafter : AwspReaches entries ⟨⟨head, second :: next⟩ :: rest, false, out⟩
          ⟨⟨second, next⟩ :: rest, false, out ++ pathsThrough (hopsOf entries) source k rest [hop]⟩ :=
        h.reaches_after ih hhop hy hlt hle
      exact hafter.trans (ihnext _ _ fun p hmem => hlist p (mem_cons_of_mem _ hmem))

end SearchLists

theorem awspSearch_eq (h : SearchLists source entries) {node : V} {parents : WeightedParents V E}
    (hne : node ≠ source) (hp : entries node = some parents) :
    ∃ rounds, ∀ fuel, rounds ≤ fuel → awspLoop entries fuel ⟨[parents], false, []⟩ =
      some ((weightedWalks (hopsOf entries) source parents.cost node).map (map fun hop => ⟨hop, 2 ^ 16 - 1⟩)) := by
  obtain ⟨rounds, hrun⟩ := h.reaches parents.cost hne hp le_rfl [] []
  refine ⟨rounds, fun fuel hf => ?_⟩
  obtain ⟨n, rfl⟩ := Nat.exists_eq_add_of_le hf
  rw [hrun n]
  unfold awspLoop
  simp [awspPath]

end Search

/-! ## The walks of least weight -/

section Walks

variable [DecidableEq V] {weight : E → Nat} {G : HopGraph V (Hop V E)} {source : V}
  {hopsOf : V → List (Hop V E)}

/-- Lists without repetitions make walks without repetitions. -/
theorem nodup_weightedWalks (hnodup : ∀ node, (hopsOf node).Nodup) (k : Nat) (node : V) :
    (weightedWalks hopsOf source k node).Nodup := by
  induction k generalizing node with
  | zero => exact nodup_nil
  | succ k ih =>
    refine nodup_flatMap.mpr ⟨fun hop _ => ?_, (hnodup node).imp fun {hop hop'} hne => ?_⟩
    · refine Nodup.map (cons_injective) ?_
      split
      · exact nodup_singleton _
      · exact ih hop.node
    · intro walk hw hw'
      obtain ⟨_, -, rfl⟩ := mem_map.mp hw
      obtain ⟨_, -, heq⟩ := mem_map.mp hw'
      exact hne (cons.inj heq).1.symm

/-- If each hop of a list is the last one of a walk, the walks have the repetitions of the list. -/
theorem nodup_of_nodup_weightedWalks {k : Nat} {node : V}
    (hsome : ∀ hop ∈ hopsOf node, hop.node ≠ source → weightedWalks hopsOf source k hop.node ≠ [])
    (h : (weightedWalks hopsOf source (k + 1) node).Nodup) : (hopsOf node).Nodup := by
  refine (nodup_flatMap.mp h).2.imp_of_mem fun {hop hop'} hmem _ hdisj => ?_
  rintro rfl
  have hne : (if hop.node = source then [[]] else weightedWalks hopsOf source k hop.node) ≠ [] := by
    split
    · exact cons_ne_nil _ _
    · next hs => exact hsome hop hmem hs
  obtain ⟨walk, hw⟩ := exists_mem_of_ne_nil _ hne
  exact hdisj (mem_map_of_mem hw) (mem_map_of_mem hw)

/-- If the lists have the hops of walks of least weight, and these are positive, the walks that lists make
are the walks of least weight. -/
theorem mem_weightedWalks (horigin : ∀ hop, G.origin hop = hop.node) (hpos : ∀ edge, 0 < weight edge)
    (htight : ∀ {hop node}, node ≠ source → (hop ∈ hopsOf node ↔ (G.tight source (hopWeight weight)).enters hop node))
    {k c : Nat} {node : V} (hne : node ≠ source)
    (hmin : G.IsMinWeight source (hopWeight weight) c node) (hk : c ≤ k) {walk : List (Hop V E)} :
    walk ∈ weightedWalks hopsOf source k node ↔ (G.tight source (hopWeight weight)).IsWalk source walk node := by
  have hzero : ∀ {walk}, (G.tight source (hopWeight weight)).IsWalk source walk source ↔ walk = [] := by
    intro walk
    refine ⟨fun hw => ?_, fun hnil => hnil ▸ rfl⟩
    have hweight := (isWalk_tight.mp hw).2.unique isMinWeight_source
    cases walk with
    | nil => rfl
    | cons hop walk =>
      rw [walkWeight_cons] at hweight
      have : 0 < hopWeight weight hop := hpos hop.edge
      omega
  induction k generalizing node c walk with
  | zero =>
    obtain ⟨walk', hw', hweight⟩ := hmin.has
    cases walk' with
    | nil => exact absurd hw' hne
    | cons hop walk' =>
      rw [walkWeight_cons] at hweight
      have : 0 < hopWeight weight hop := hpos hop.edge
      omega
  | succ k ih =>
    -- What is left of the walk is a walk to the origin of the hop.
    have hrest : ∀ {hop walk}, (G.tight source (hopWeight weight)).enters hop node →
        (walk ∈ (if hop.node = source then [[]] else weightedWalks hopsOf source k hop.node) ↔
          (G.tight source (hopWeight weight)).IsWalk source walk hop.node) := by
      rintro hop walk ⟨-, c', hc', hnode⟩
      split
      · next hs => rw [hs, hzero, mem_singleton]
      · next hs =>
        have hw : 0 < hopWeight weight hop := hpos hop.edge
        have := hnode.unique hmin
        exact ih hs (horigin hop ▸ hc') (by omega)
    cases walk with
    | nil =>
      refine iff_of_false (fun hmem => ?_) hne
      obtain ⟨_, -, hmap⟩ := mem_flatMap.mp hmem
      obtain ⟨_, -, heq⟩ := mem_map.mp hmap
      cases heq
    | cons hop walk =>
      have hstep : (G.tight source (hopWeight weight)).IsWalk source (hop :: walk) node ↔
          (G.tight source (hopWeight weight)).enters hop node ∧
            (G.tight source (hopWeight weight)).IsWalk source walk hop.node := by
        rw [← horigin hop]
        exact Iff.rfl
      rw [hstep]
      constructor
      · intro hmem
        obtain ⟨hop', hhop', hmap⟩ := mem_flatMap.mp hmem
        obtain ⟨walk', hw', heq⟩ := mem_map.mp hmap
        obtain ⟨rfl, rfl⟩ := cons.inj heq
        have henters := (htight hne).mp hhop'
        exact ⟨henters, (hrest henters).mp hw'⟩
      · rintro ⟨henters, hw⟩
        exact mem_flatMap.mpr ⟨hop, (htight hne).mpr henters, mem_map.mpr ⟨walk, (hrest henters).mpr hw, rfl⟩⟩

end Walks

/-! ## Exactness -/

section Exact

variable [DecidableEq V] {weight : E → Nat} {G : HopGraph V (Hop V E)} {source : V}
  {data : DensityMap V (Option (WeightedParents V E))}

/-- The rows of a destination. -/
def awspRows (info : PathsOutputWriterInfo V) (entries : V → Option (WeightedParents V E))
    (source dst : V) : List (WeightedPathRow V E) :=
  if dst = source then []
  else
    match entries dst with
    | none => []
    | some parents => (weightedWalks (hopsOf entries) source parents.cost dst).map
        (info.weightedRow dst · parents.cost)

theorem awspWriteInternal_eq (info : PathsOutputWriterInfo V)
    {entries : V → Option (WeightedParents V E)} (h : SearchLists source entries) (dst : V) :
    ∃ rounds, ∀ fuel, rounds ≤ fuel →
      info.awspWriteInternal entries source fuel dst = some (awspRows info entries source dst) := by
  unfold awspWriteInternal awspRows
  by_cases hs : dst = source
  · exact ⟨0, fun _ _ => by simp [hs]⟩
  cases hp : entries dst with
  | none => exact ⟨0, fun _ _ => by simp [hs]⟩
  | some parents =>
    obtain ⟨rounds, hrun⟩ := awspSearch_eq h hs hp
    refine ⟨rounds, fun fuel hf => ?_⟩
    simp only [hs, hrun fuel hf]
    simp [pathRow_eq, weightedRow, comp_def]

theorem dst_of_mem_awspRows {info : PathsOutputWriterInfo V} {entries : V → Option (WeightedParents V E)}
    {dst : V} {row : WeightedPathRow V E} (h : row ∈ awspRows info entries source dst) :
    row.dst = dst ∧ dst ≠ source ∧ ∃ parents, entries dst = some parents ∧ row.cost = parents.cost := by
  unfold awspRows at h
  split at h
  · cases h
  · next hs =>
    split at h
    · cases h
    · next parents hp =>
      obtain ⟨walk, -, rfl⟩ := mem_map.mp h
      exact ⟨rfl, hs, parents, hp, rfl⟩

theorem awspRows_run (info : PathsOutputWriterInfo V) (h : SearchLists source (data.get none))
    (schedule : Schedule V E) {nodes : List V} (hnodes : nodes.Nodup) (mask : V → Bool) :
    ∃ rounds, ∀ fuel, rounds ≤ fuel → ∃ rows, writeAll mask (info.awspWriteInternal (data.get none) source fuel)
        (info.destinations schedule nodes source data) = some rows ∧
      (∀ row ∈ rows, row.dst ∈ nodes ∧ mask row.dst = true ∧ row ∈ awspRows info (data.get none) source row.dst) ∧
      ∀ dst ∈ nodes, mask dst = true → rows.filter (·.dst = dst) = awspRows info (data.get none) source dst := by
  obtain ⟨rounds, hall⟩ := writeAll_eq mask (info.destinations schedule nodes source data)
    fun dst _ _ => awspWriteInternal_eq info h dst
  refine ⟨rounds, fun fuel hf => ⟨_, hall fuel hf, fun row hrow => ?_, fun dst hdst hin => ?_⟩⟩
  · obtain ⟨dst, hmem, hrow⟩ := mem_flatMap.mp hrow
    obtain ⟨hmem, hin⟩ := mem_filter.mp hmem
    rw [(dst_of_mem_awspRows hrow).1]
    exact ⟨mem_of_mem_destinations hmem, hin, hrow⟩
  · refine filter_flatMap_destinations (fun dst row hrow => (dst_of_mem_awspRows hrow).1) hnodes hdst hin
      (fun hstate hkey => ?_) fun _ => by simp [awspRows]
    have hnone : data.get none dst = none := by simp [DensityMap.get, hstate, hkey]
    unfold awspRows
    split
    · rfl
    · simp [hnone]

variable {trace : List (WeightedStep V E (WeightedParents V E))}
  (horigin : ∀ hop, G.origin hop = hop.node) (hpos : ∀ edge, 0 < weight edge)
  (hcost : ∀ {node c}, (data.get none node).map (·.cost) = some c ↔
    G.IsMinWeight source (hopWeight weight) c node)
  (hlists : ParentLists weight G source (fun _ _ => False) (data.get none))

include horigin hcost hlists

omit [DecidableEq V] in
/-- At the end the lists have the hops of walks of least weight. -/
theorem mem_hopsOf_iff {hop : Hop V E} {node : V} (hne : node ≠ source) :
    hop ∈ hopsOf (data.get none) node ↔ (G.tight source (hopWeight weight)).enters hop node := by
  have hmin : ∀ {node x}, data.get none node = some x →
      G.IsMinWeight source (hopWeight weight) x.cost node := fun hx => hcost.mp (by rw [hx]; rfl)
  constructor
  · intro hmem
    cases hp : data.get none node with
    | none => simp [hopsOf, hp] at hmem
    | some parents =>
      simp only [hopsOf, hp] at hmem
      obtain ⟨p, hmem, hhop⟩ := mem_filterMap.mp hmem
      obtain ⟨-, hop', y, hhop', henters, hy, hle⟩ := hlists.parent hne hp hmem
      obtain rfl := Option.mem_unique hhop hhop'
      have hyMin : G.IsMinWeight source (hopWeight weight) y.cost (G.origin hop) := horigin hop ▸ hmin hy
      have hback : parents.cost ≤ y.cost + weight hop.edge := (hmin hp).le_of_hasWeight (hyMin.has.cons henters)
      have heq : parents.cost = y.cost + hopWeight weight hop := le_antisymm hback hle
      exact ⟨henters, y.cost, hyMin, heq ▸ hmin hp⟩
  · rintro ⟨henters, c, hc, hnode⟩
    obtain ⟨x, hx, hxcost⟩ := Option.map_eq_some_iff.mp (hcost.mpr (horigin hop ▸ hc))
    obtain ⟨parents, hp, hpcost⟩ := Option.map_eq_some_iff.mp (hcost.mpr hnode)
    have heq : x.cost + weight hop.edge = parents.cost := by
      rw [hxcost, hpcost]
      rfl
    simp only [hopsOf, hp]
    exact (hlists.complete henters hx hp heq).resolve_right id

include hpos

theorem mem_weightedWalks_iff {node : V} {parents : WeightedParents V E} (hne : node ≠ source)
    (hp : data.get none node = some parents) {k : Nat} (hk : parents.cost ≤ k) {walk : List (Hop V E)} :
    walk ∈ weightedWalks (hopsOf (data.get none)) source k node ↔
      G.IsWalk source walk node ∧ walkWeight (hopWeight weight) walk = parents.cost := by
  have hmin : G.IsMinWeight source (hopWeight weight) parents.cost node := hcost.mp (by rw [hp]; rfl)
  rw [mem_weightedWalks horigin hpos (mem_hopsOf_iff horigin hcost hlists) hne hmin hk, isWalk_tight]
  exact and_congr_right fun _ => ⟨fun h => h.unique hmin, fun h => h.symm ▸ hmin⟩

/-- The walks of a node are written once if and only if no node has a repeated hop. -/
theorem awspExact_iff_nodup (info : PathsOutputWriterInfo V) (schedule : Schedule V E) :
    (∀ (nodes : List V) (mask : V → Bool), nodes.Nodup → ∃ rounds, ∀ fuel, rounds ≤ fuel → ∃ rows,
      writeAll mask (info.awspWriteInternal (data.get none) source fuel)
        (info.destinations schedule nodes source data) = some rows ∧
      AllWeightedPathsExact info G weight source (IsWeightedDestination G weight source nodes mask) rows) ↔
    ∀ node, (hopsOf (data.get none) node).Nodup := by
  have hsearch := hlists.searchLists hpos
  have hmem : ∀ {node parents walk}, node ≠ source → data.get none node = some parents →
      (walk ∈ weightedWalks (hopsOf (data.get none)) source parents.cost node ↔
        G.IsWalk source walk node ∧ walkWeight (hopWeight weight) walk = parents.cost) :=
    fun hne hp => mem_weightedWalks_iff horigin hpos hcost hlists hne hp le_rfl
  constructor
  · intro hexact node
    by_cases hne : node = source
    · simp [hopsOf, hne, hlists.atSource, WeightedParents.hops, WeightedParents.list]
    cases hp : data.get none node with
    | none => simp [hopsOf, hp]
    | some parents =>
      obtain ⟨m, hm⟩ := hexact [node] (fun _ => true) (nodup_singleton node)
      obtain ⟨n, hn⟩ := awspRows_run info hsearch schedule (nodup_singleton node) fun _ => true
      obtain ⟨rows, hrun, -, hrows⟩ := hm (m + n) (Nat.le_add_right m n)
      obtain ⟨rows', hrun', -, hrows'⟩ := hn (m + n) (Nat.le_add_left n m)
      obtain rfl := Option.mem_unique hrun hrun'
      obtain ⟨walks, hnodup, hwalks, hperm⟩ := hrows ⟨node, parents.cost⟩
        ⟨mem_cons_self, rfl, hne, hcost.mp (by rw [hp]; rfl)⟩
      rw [hrows' node mem_cons_self rfl] at hperm
      have hlength := hperm.length_eq
      simp only [awspRows, if_neg hne, hp, length_map] at hlength
      -- As many walks as there are of least weight, and all of these, so none is repeated.
      have hsub : walks.Subperm (weightedWalks (hopsOf (data.get none)) source parents.cost node) :=
        subperm_of_subset hnodup fun walk hw => (hmem hne hp).mpr ((hwalks walk).mp hw)
      have hall := (hsub.perm_of_length_le hlength.le).nodup_iff.mp hnodup
      obtain ⟨-, _, _, _, _, hlt⟩ := hsearch.parent hne hp mem_cons_self
      obtain ⟨k, hk⟩ : ∃ k, parents.cost = k + 1 := ⟨parents.cost - 1, by omega⟩
      rw [hk] at hall
      refine nodup_of_nodup_weightedWalks (fun hop hhop hs => ?_) hall
      obtain ⟨henters, c, hc, hnode⟩ := (mem_hopsOf_iff horigin hcost hlists hne).mp hhop
      obtain ⟨x, hx, hxcost⟩ := Option.map_eq_some_iff.mp (hcost.mpr (horigin hop ▸ hc))
      have hw : 0 < hopWeight weight hop := hpos hop.edge
      have hpc := hnode.unique (hcost.mp (by rw [hp]; rfl))
      obtain ⟨walk, hwalk, hweight⟩ := hc.has
      rw [horigin] at hwalk
      refine ne_nil_of_mem ((mem_weightedWalks_iff horigin hpos hcost hlists hs hx (by
        simp only at hxcost hpc
        omega)).mpr ⟨hwalk, hweight.trans hxcost.symm⟩)
  · intro hnodup nodes mask hnodes
    obtain ⟨rounds, hrun⟩ := awspRows_run info hsearch schedule hnodes mask
    refine ⟨rounds, fun fuel hf => ?_⟩
    obtain ⟨rows, hrows, hall, hfilter⟩ := hrun fuel hf
    refine ⟨rows, hrows, fun row hrow => ?_, fun row hrow => ?_⟩
    · obtain ⟨hin, hmask, hrow⟩ := hall row hrow
      obtain ⟨-, hne, parents, hp, hrowcost⟩ := dst_of_mem_awspRows hrow
      exact ⟨hin, hmask, hne, hcost.mp (by rw [hp, hrowcost]; rfl)⟩
    · obtain ⟨parents, hp, hpcost⟩ := Option.map_eq_some_iff.mp (hcost.mpr hrow.isMinWeight)
      refine ⟨weightedWalks (hopsOf (data.get none)) source parents.cost row.dst,
        nodup_weightedWalks hnodup _ _, fun walk => ?_, ?_⟩
      · rw [hmem hrow.ne_source hp, ← hpcost]
      · rw [hfilter row.dst hrow.mem hrow.mask, awspRows, if_neg hrow.ne_source, hp, ← hpcost]

end Exact

/-- In runs that converge, with positive weights, each walk of least weight is written once and no other,
for all output tables and masks, if and only if no visit offers a relationship that the list of the
neighbour has below its head, at the least weight of the neighbour. -/
theorem allWeightedSPPaths_exact_iff [DecidableEq V] [DecidableEq E] (info : PathsOutputWriterInfo V)
    (g : OnDiskGraph V E) (direction : ExtendDirection) (weight : E → Nat)
    (hpos : ∀ edge, 0 < weight edge) (schedule : WeightedSchedule V E) (upperBound : UInt16) (source : V)
    (hconv : (run g direction awspPaths weight schedule upperBound source).Converged) :
    (∀ (nodes : List V) (mask : V → Bool), nodes.Nodup → ∃ rounds, ∀ fuel, rounds ≤ fuel → ∃ rows,
      info.allWeightedSPPaths g direction weight schedule upperBound source nodes mask fuel = some rows ∧
        AllWeightedPathsExact info (g.hops direction) weight source
          (IsWeightedDestination (g.hops direction) weight source nodes mask) rows) ↔
    ∀ step ∈ (run g direction awspPaths weight schedule upperBound source).trace,
      (g.hops direction).IsMinWeight source (hopWeight weight) step.newCost step.visit.nbr →
        ¬ RepeatsParent step := by
  have hedges : ∀ {hop hop' : Hop V E} {node : V}, (g.hops direction).enters hop node →
      (g.hops direction).enters hop' node → hop.edge = hop'.edge → hop = hop' ∨ hop.node = node := by
    intro hop hop' node he he' hedge
    obtain hvisit | ⟨hself, -⟩ := OnDiskGraph.visits_of_edge_eq he he' hedge
    · exact .inl (congrArg (·.hop) hvisit)
    · exact .inr hself
  have hK : WeightedInvariant awspPaths weight (g.hops direction) source fun pending entries trace =>
      ParentLists weight (g.hops direction) source (fun hop _ => pending hop.node) entries ∧
        RepeatsTraced entries trace := awspPaths_invariant hpos hedges fun _ => rfl
  have hinv := run_spec hK schedule upperBound
  obtain ⟨s, hs⟩ : ∃ s, s = run g direction awspPaths weight schedule upperBound source := ⟨_, rfl⟩
  unfold allWeightedSPPaths
  rw [← hs] at hconv hinv ⊢
  have hlists := hinv.extra.1.mono fun _ hp => hconv.not_pending _ hp
  have hcost : ∀ {node c}, (s.data.get none node).map (·.cost) = some c ↔
      (g.hops direction).IsMinWeight source (hopWeight weight) c node :=
    hinv.isMinWeight_iff (fun _ => rfl) hconv
  refine (awspExact_iff_nodup (fun _ => rfl) hpos hcost hlists info schedule.toSchedule).trans ?_
  constructor
  · intro hnodup step hstep hmin
    obtain ⟨parents, hp, hpcost⟩ := Option.map_eq_some_iff.mp (hcost.mpr hmin)
    have hlist := hnodup step.visit.nbr
    simp only [hopsOf, hp] at hlist
    exact (hinv.extra.2.nodup_iff hp).mp hlist step hstep rfl hpcost.symm
  · intro hsteps node
    cases hp : s.data.get none node with
    | none => simp [hopsOf, hp]
    | some parents =>
      simp only [hopsOf, hp]
      refine (hinv.extra.2.nodup_iff hp).mpr fun step hstep hnbr hnew => hsteps step hstep ?_
      rw [hnbr, hnew]
      exact hcost.mp (by rw [hp]; rfl)

/-- Two walks of equal weight and unequal length lead to node `1`, and a third one past it leads to node
`2`, which is reached from node `1` too. -/
def unevenDiamond : OnDiskGraph Nat Nat :=
  ⟨[⟨0, 1, 0⟩, ⟨1, 2, 1⟩, ⟨0, 3, 2⟩, ⟨3, 4, 3⟩, ⟨4, 2, 4⟩, ⟨0, 5, 5⟩, ⟨5, 6, 6⟩, ⟨6, 1, 7⟩], by decide⟩

def unevenDiamondWeight : Nat → Nat := fun edge => if edge ≤ 1 then 3 else if edge ≤ 4 then 2 else 1

/-- The relationship from node `1` to node `2` is in the list of node `2` twice. -/
theorem allWeightedSPPaths_unevenDiamond :
    (run unevenDiamond .fwd awspPaths unevenDiamondWeight (.inOrder Nat Nat) 30 0).Converged ∧
      (allWeightedSPPaths { lowerBound := 1, writePath := true } unevenDiamond .fwd
        unevenDiamondWeight (.inOrder Nat Nat) 30 0 [2] (fun _ => true) 40).map
          (map fun row => (row.edgeIDs, row.cost)) =
        some [([5, 6, 7, 1], 6), ([0, 1], 6), ([2, 3, 4], 6), ([5, 6, 7, 1], 6), ([0, 1], 6)] := by
  decide +kernel

theorem allWeightedSPPaths_exact_twoWays :
    (run twoWays .fwd awspPaths (fun _ => 3) (.inOrder Nat Nat) 30 0).Converged ∧
      ∀ (nodes : List Nat) (mask : Nat → Bool), nodes.Nodup → ∃ rounds, ∀ fuel, rounds ≤ fuel → ∃ rows,
        allWeightedSPPaths { lowerBound := 1, writePath := true } twoWays .fwd
          (fun _ => 3) (.inOrder Nat Nat) 30 0 nodes mask fuel = some rows ∧
        AllWeightedPathsExact { lowerBound := 1, writePath := true } (twoWays.hops .fwd) (fun _ => 3) 0
          (IsWeightedDestination (twoWays.hops .fwd) (fun _ => 3) 0 nodes mask) rows := by
  refine ⟨by decide, (allWeightedSPPaths_exact_iff { lowerBound := 1, writePath := true } twoWays .fwd
    (fun _ => 3) (fun _ => by decide) (.inOrder Nat Nat) 30 0 (by decide)).mpr fun step hstep _ => ?_⟩
  -- No list is longer than one when a visit comes to it.
  have hnext : ∀ step ∈ (run twoWays .fwd awspPaths (fun _ => 3) (.inOrder Nat Nat) 30 0).trace,
      ∀ parents ∈ step.entries step.visit.nbr, parents.next = [] := by decide +kernel
  rintro ⟨parents, hparents, -, -, hrepeat⟩
  rw [hnext step hstep parents hparents] at hrepeat
  cases hrepeat

end CycleJoin
