import CycleJoin.Function.Gds.Frontier
import CycleJoin.Lib.WeightedWalks

/-!
# The loop of weighted shortest paths

The part that the algorithms of `wsp_destinations.cpp`, `wsp_paths.cpp` and `awsp_paths.cpp` of
`function/gds` share. A node has an entry with a cost: only the cost, a parent, or a list of parents. A
visit offers the neighbour the cost of the bound node plus the weight of the relationship, and takes the
neighbour into the next frontier if the entry changes. Costs change in place while an iteration runs.

Weights are natural numbers: the sums of doubles are taken to be exact.

In the dense state threads run at the same time. A visit reads the cost of its bound node once and then
retries until no other thread has changed the entry of the neighbour, so the schedule decides how old the
cost is that a visit reads, within the iteration.

* `Relaxes`: what the visits of an iteration do to the entries.
* `WeightedState.run_spec`: when the loop ends because no node is active, the costs are the least weights
  of walks; an invariant holds that each iteration keeps.
-/

namespace CycleJoin

open List Function DensityMap Option

variable {V E X : Type}

/-! ## The algorithms -/

/-- The entries of an algorithm. `tryAdd` gives the new entry of a neighbour that a relationship offers a
cost to, if there is one. -/
structure WeightedAlgorithm (V E X : Type) where
  cost : X → Nat
  sourceEntry : X
  tryAdd : Option X → Hop V E → Nat → Option X
  cost_sourceEntry : cost sourceEntry = 0
  cost_of_tryAdd : ∀ {x hop c y}, tryAdd x hop c = some y → cost y = c ∧ ∀ x', x = some x' → c ≤ cost x'
  le_of_tryAdd : ∀ {x hop c}, tryAdd x hop c = none → ∃ x', x = some x' ∧ cost x' ≤ c

/-- A schedule that also says for each visit how many visits before it are not seen yet when it reads the
cost of its bound node. -/
structure WeightedSchedule (V E : Type) extends Schedule V E where
  age : Nat → EdgeVisit V E → Nat

/-- A visit, with the entries before it and the cost that it offers. -/
structure WeightedStep (V E X : Type) where
  entries : V → Option X
  visit : EdgeVisit V E
  newCost : Nat

/-- The compute state. `pinned` is the density state that the last frontier task pinned its tables in.
`trace` has the visits so far; nothing reads it. -/
structure WeightedState (V E X : Type) where
  frontierPair : FrontierPair V
  data : DensityMap V (Option X)
  pinned : GDSDensityState
  trace : List (WeightedStep V E X)

/-- An iteration that runs, with the entries before each of its visits so far, the last one first. -/
structure WeightedIteration (V E X : Type) where
  state : WeightedState V E X
  past : List (V → Option X)

namespace WeightedState

variable [DecidableEq V]

def entries (s : WeightedState V E X) : V → Option X := s.data.get none

/-- The entries that a reference of the density state `pinned` points to. -/
def pinnedEntries (s : WeightedState V E X) : V → Option X :=
  match s.pinned with
  | .sparse => fun node => (s.data.sparse node).getD none
  | .dense => s.data.dense

def initSource (alg : WeightedAlgorithm V E X) (source : V) : WeightedState V E X where
  frontierPair := .initSource source
  data := (empty none).set source (some alg.sourceEntry)
  pinned := .sparse
  trace := []

/-- An edge compute for one neighbour. An active node has an entry, so there is always one to read. -/
def edgeCompute (alg : WeightedAlgorithm V E X) (weight : E → Nat) (schedule : WeightedSchedule V E)
    (it : WeightedIteration V E X) (visit : EdgeVisit V E) : WeightedIteration V E X :=
  let s := it.state
  let seen := ((s.entries :: it.past)[schedule.age s.frontierPair.curIter visit]?).getD s.entries
  match seen visit.hop.node with
  | none => it
  | some bound =>
    let newCost := alg.cost bound + weight visit.hop.edge
    let trace := s.trace ++ [⟨s.entries, visit, newCost⟩]
    let past := s.entries :: it.past
    match alg.tryAdd (s.entries visit.nbr) visit.hop newCost with
    | none => ⟨{ s with trace }, past⟩
    | some entry =>
      ⟨{ s with
          frontierPair := s.frontierPair.addNodeToNextFrontier visit.nbr
          data := s.data.set visit.nbr (some entry)
          trace }, past⟩

/-- `runOneIteration`. -/
def runOneIteration (g : OnDiskGraph V E) (direction : ExtendDirection) (alg : WeightedAlgorithm V E X)
    (weight : E → Nat) (schedule : WeightedSchedule V E) (s : WeightedState V E X) :
    WeightedState V E X :=
  let active := (g.visits direction).filter fun visit =>
    s.frontierPair.isActiveOnCurrentFrontier visit.hop.node
  ((schedule.order s.frontierPair.curIter active).foldl (edgeCompute alg weight schedule)
    ⟨{ s with pinned := s.data.state }, []⟩).state

/-- `GDSComputeState::switchToDense`. -/
def switchToDense (s : WeightedState V E X) : WeightedState V E X :=
  { s with
    frontierPair := s.frontierPair.switchToDense
    data := s.data.switchToDense none }

/-- The body of the loop of `runRecursiveJoinEdgeCompute`; no edge compute of these terminates early. -/
def iterate (g : OnDiskGraph V E) (direction : ExtendDirection) (alg : WeightedAlgorithm V E X)
    (weight : E → Nat) (schedule : WeightedSchedule V E) (s : WeightedState V E X) :
    WeightedState V E X :=
  let s := runOneIteration g direction alg weight schedule
    { s with frontierPair := s.frontierPair.beginNewIteration }
  if s.frontierPair.nextFrontier.state = .sparse ∧ schedule.needSwitchToDense s.frontierPair.curIter
  then s.switchToDense else s

/-- The loop. It makes at most `maxIter` iterations, so `maxIter` rounds are enough. -/
def runLoop (g : OnDiskGraph V E) (direction : ExtendDirection) (alg : WeightedAlgorithm V E X)
    (weight : E → Nat) (schedule : WeightedSchedule V E) (maxIter : Nat) :
    Nat → WeightedState V E X → WeightedState V E X
  | 0, s => s
  | rounds + 1, s =>
    if s.frontierPair.continueNextIter maxIter then
      runLoop g direction alg weight schedule maxIter rounds
        (s.iterate g direction alg weight schedule)
    else s

/-- `runRecursiveJoinEdgeCompute` from a source. -/
def run (g : OnDiskGraph V E) (direction : ExtendDirection) (alg : WeightedAlgorithm V E X)
    (weight : E → Nat) (schedule : WeightedSchedule V E) (upperBound : UInt16) (source : V) :
    WeightedState V E X :=
  runLoop g direction alg weight schedule upperBound.toNat upperBound.toNat (initSource alg source)

/-- The loop has ended because there is nothing more to visit, not at the upper bound. -/
def Converged (s : WeightedState V E X) : Prop := s.frontierPair.hasActiveNodesForNextIter = false

instance (s : WeightedState V E X) : Decidable s.Converged :=
  inferInstanceAs (Decidable (s.frontierPair.hasActiveNodesForNextIter = false))

end WeightedState

/-! ## The visits of an iteration -/

def hopWeight (weight : E → Nat) (hop : Hop V E) : Nat := weight hop.edge

/-- A cost that a visit may read for its bound node: that of the entry, or an older one if the entry has
changed in the iteration. -/
structure ReadsCost (alg : WeightedAlgorithm V E X) (weight : E → Nat) (G : HopGraph V (Hop V E))
    (source : V) (entries : V → Option X) (changed : List V) (node : V) (c : Nat) : Prop where
  current : ∃ x, entries node = some x ∧ alg.cost x ≤ c ∧ (c = alg.cost x ∨ node ∈ changed)
  hasWeight : G.HasWeight source (hopWeight weight) c node

/-- The entries after visits of an iteration, and the nodes that have changed. -/
inductive Relaxes [DecidableEq V] (alg : WeightedAlgorithm V E X) (weight : E → Nat)
    (G : HopGraph V (Hop V E)) (source : V) (start : V → Option X) :
    List (WeightedStep V E X) → (V → Option X) → List V → Prop
  | nil : Relaxes alg weight G source start [] start []
  | keep {steps : List (WeightedStep V E X)} {entries : V → Option X} {changed : List V}
      (visit : EdgeVisit V E) (c : Nat) :
      Relaxes alg weight G source start steps entries changed →
      ReadsCost alg weight G source entries changed visit.hop.node c →
      alg.tryAdd (entries visit.nbr) visit.hop (c + weight visit.hop.edge) = none →
      Relaxes alg weight G source start (steps ++ [⟨entries, visit, c + weight visit.hop.edge⟩]) entries
        changed
  | add {steps : List (WeightedStep V E X)} {entries : V → Option X} {changed : List V}
      (visit : EdgeVisit V E) (c : Nat) (entry : X) :
      Relaxes alg weight G source start steps entries changed →
      ReadsCost alg weight G source entries changed visit.hop.node c →
      alg.tryAdd (entries visit.nbr) visit.hop (c + weight visit.hop.edge) = some entry →
      Relaxes alg weight G source start (steps ++ [⟨entries, visit, c + weight visit.hop.edge⟩])
        (update entries visit.nbr (some entry)) (visit.nbr :: changed)

/-- What holds of entries between iterations: a hop that can lower a cost starts at a node that is still
to be visited. -/
structure Labels (alg : WeightedAlgorithm V E X) (weight : E → Nat) (G : HopGraph V (Hop V E))
    (source : V) (pending : V → Prop) (entries : V → Option X) : Prop where
  atSource : ∃ x, entries source = some x ∧ alg.cost x = 0
  sound : ∀ {node x}, entries node = some x → G.HasWeight source (hopWeight weight) (alg.cost x) node
  relaxed : ∀ {hop node x}, G.enters hop node → entries hop.node = some x →
    (∃ y, entries node = some y ∧ alg.cost y ≤ alg.cost x + weight hop.edge) ∨ pending hop.node

section Relaxes

variable [DecidableEq V] {alg : WeightedAlgorithm V E X} {weight : E → Nat} {G : HopGraph V (Hop V E)}
  {source : V} {start entries : V → Option X} {steps : List (WeightedStep V E X)} {changed : List V}

/-- An entry is kept, or it changes to one that does not cost more. -/
theorem Relaxes.mono (h : Relaxes alg weight G source start steps entries changed) (node : V) :
    (node ∉ changed → entries node = start node) ∧
      ∀ x, start node = some x → ∃ y, entries node = some y ∧ alg.cost y ≤ alg.cost x := by
  induction h with
  | nil => exact ⟨fun _ => rfl, fun x hx => ⟨x, hx, le_rfl⟩⟩
  | keep visit c _ _ _ ih => exact ih
  | add visit c entry _ _ hadd ih =>
    by_cases hn : node = visit.nbr
    · subst hn
      refine ⟨fun hnot => absurd mem_cons_self hnot, fun x hx => ?_⟩
      obtain ⟨y, hy, hle⟩ := ih.2 x hx
      obtain ⟨hcost, hmin⟩ := alg.cost_of_tryAdd hadd
      exact ⟨entry, update_self .., hcost ▸ (hmin y hy).trans hle⟩
    · rw [update_of_ne hn]
      exact ⟨fun hnot => ih.1 fun hmem => hnot (mem_cons_of_mem _ hmem), ih.2⟩

theorem Relaxes.ne_none_of_changed (h : Relaxes alg weight G source start steps entries changed) {node : V}
    (hmem : node ∈ changed) : entries node ≠ none := by
  induction h with
  | nil => cases hmem
  | keep visit c _ _ _ ih => exact ih hmem
  | add visit c entry _ _ _ ih =>
    by_cases hn : node = visit.nbr
    · subst hn
      simp
    · rw [update_of_ne hn]
      exact ih ((mem_cons.mp hmem).resolve_left hn)

variable {pending : V → Prop} (h : Labels alg weight G source pending start)
  (horigin : ∀ hop, G.origin hop = hop.node)
  (hrun : Relaxes alg weight G source start steps entries changed)
  (henters : ∀ step ∈ steps, G.enters step.visit.hop step.visit.nbr)
include h horigin hrun henters

/-- The labels during an iteration that began with the nodes in `pending` still to be visited. -/
theorem Labels.during : Labels alg weight G source (fun node => node ∈ changed ∨ pending node) entries ∧
      ∀ {hop node x}, G.enters hop node → entries hop.node = some x → hop.node ∉ changed →
        (⟨hop, node⟩ ∈ steps.map (·.visit) ∨ ¬ pending hop.node) →
        ∃ y, entries node = some y ∧ alg.cost y ≤ alg.cost x + weight hop.edge := by
  induction hrun with
  | nil =>
    refine ⟨⟨h.atSource, h.sound, fun he hx => (h.relaxed he hx).imp_right .inr⟩, fun he hx _ hnot => ?_⟩
    exact (h.relaxed he hx).resolve_right (hnot.resolve_left (by simp))
  | keep visit c hprev hread hnone ih =>
    obtain ⟨hlabels, hrelaxed⟩ := ih fun step hs => henters step (mem_append_left _ hs)
    refine ⟨hlabels, fun {hop node x} he hx hnot hdone => ?_⟩
    by_cases hvisit : visit = ⟨hop, node⟩
    · subst hvisit
      obtain ⟨y, hy, hle⟩ := alg.le_of_tryAdd hnone
      obtain ⟨x', hx', -, hcur⟩ := hread.current
      obtain rfl := Option.mem_unique hx hx'
      exact ⟨y, hy, hcur.resolve_right hnot ▸ hle⟩
    · refine hrelaxed he hx hnot (hdone.imp_left fun hmem => ?_)
      rw [map_append, mem_append] at hmem
      exact hmem.resolve_right fun hlast => hvisit (mem_singleton.mp hlast).symm
  | @add steps entries changed visit c entry hprev hread hadd ih =>
    obtain ⟨hlabels, hrelaxed⟩ := ih fun step hs => henters step (mem_append_left _ hs)
    obtain ⟨hcost, hmin⟩ := alg.cost_of_tryAdd hadd
    have hvisit := henters ⟨entries, visit, c + weight visit.hop.edge⟩ (by simp)
    -- The new entry costs at most what the old one did.
    have hlower : ∀ {node y b}, entries node = some y → alg.cost y ≤ b →
        ∃ y', update entries visit.nbr (some entry) node = some y' ∧ alg.cost y' ≤ b := by
      intro node y b hy hle
      by_cases hn : node = visit.nbr
      · subst hn
        exact ⟨entry, update_self .., by rw [hcost]; exact (hmin y hy).trans hle⟩
      · exact ⟨y, by rwa [update_of_ne hn], hle⟩
    refine ⟨⟨?_, ?_, ?_⟩, ?_⟩
    · obtain ⟨x, hx, h0⟩ := hlabels.atSource
      obtain ⟨y, hy, hle⟩ := hlower hx h0.le
      exact ⟨y, hy, Nat.le_zero.mp hle⟩
    · intro node x hx
      by_cases hn : node = visit.nbr
      · subst hn
        rw [update_self] at hx
        obtain rfl := some.inj hx
        rw [hcost]
        exact HopGraph.HasWeight.cons ((horigin visit.hop).symm ▸ hread.hasWeight) hvisit
      · rw [update_of_ne hn] at hx
        exact hlabels.sound hx
    · intro hop node x he hx
      by_cases hn : hop.node = visit.nbr
      · exact .inr (.inl (hn ▸ mem_cons_self))
      · rw [update_of_ne hn] at hx
        obtain ⟨y, hy, hle⟩ | hp := hlabels.relaxed he hx
        · exact .inl (hlower hy hle)
        · exact .inr (hp.imp_left (mem_cons_of_mem _))
    · intro hop node x he hx hnot hdone
      have hn : hop.node ≠ visit.nbr := fun hn => hnot (hn ▸ mem_cons_self)
      have hnot' : hop.node ∉ changed := fun hmem => hnot (mem_cons_of_mem _ hmem)
      rw [update_of_ne hn] at hx
      by_cases hsame : visit = ⟨hop, node⟩
      · subst hsame
        obtain ⟨x', hx', -, hcur⟩ := hread.current
        obtain rfl := Option.mem_unique hx hx'
        exact ⟨entry, update_self .., Nat.le_of_eq (by rw [hcost, hcur.resolve_right hnot'])⟩
      · obtain ⟨y, hy, hle⟩ := hrelaxed he hx hnot' (hdone.imp_left fun hmem => by
          rw [map_append, mem_append] at hmem
          exact hmem.resolve_right fun hlast => hsame (mem_singleton.mp hlast).symm)
        exact hlower hy hle

/-- The labels after an iteration that has visited all pending nodes. -/
theorem Labels.after (hcover : ∀ {hop node}, G.enters hop node → pending hop.node →
      ⟨hop, node⟩ ∈ steps.map (·.visit)) : Labels alg weight G source (· ∈ changed) entries := by
  obtain ⟨hlabels, hrelaxed⟩ := h.during horigin hrun henters
  refine ⟨hlabels.atSource, hlabels.sound, fun {hop node x} he hx => ?_⟩
  by_cases hmem : hop.node ∈ changed
  · exact .inr hmem
  · refine .inl (hrelaxed he hx hmem ?_)
    by_cases hp : pending hop.node
    · exact .inl (hcover he hp)
    · exact .inr hp

end Relaxes

namespace WeightedState

variable [DecidableEq V] {alg : WeightedAlgorithm V E X} {weight : E → Nat} {G : HopGraph V (Hop V E)}
  {source : V} {schedule : WeightedSchedule V E}

/-- Entries that the iteration has had before. -/
structure Older (alg : WeightedAlgorithm V E X) (weight : E → Nat) (G : HopGraph V (Hop V E))
    (source : V) (start entries : V → Option X) (changed : List V) (old : V → Option X) : Prop where
  reached : ∀ {node}, start node ≠ none → old node ≠ none
  reads : ∀ {node x}, old node = some x →
    ReadsCost alg weight G source entries changed node (alg.cost x)

/-- A sequence of edge computes from the beginning `b` of an iteration. -/
structure AfterVisits (alg : WeightedAlgorithm V E X) (weight : E → Nat) (G : HopGraph V (Hop V E))
    (source : V) (b : WeightedState V E X) (visits : List (EdgeVisit V E))
    (steps : List (WeightedStep V E X)) (changed : List V) (it : WeightedIteration V E X) : Prop where
  relaxes : Relaxes alg weight G source b.entries steps it.state.entries changed
  visits : steps.map (·.visit) = visits
  trace : it.state.trace = b.trace ++ steps
  pinned : it.state.pinned = b.pinned
  curIter : it.state.frontierPair.curIter = b.frontierPair.curIter
  current : it.state.frontierPair.currentFrontier = b.frontierPair.currentFrontier
  state : it.state.frontierPair.nextFrontier.state = b.frontierPair.nextFrontier.state
  dataState : it.state.data.state = b.data.state
  active : it.state.frontierPair.hasActiveNodesForNextIter =
    (b.frontierPair.hasActiveNodesForNextIter || !changed.isEmpty)
  next : ∀ node, it.state.frontierPair.nextFrontier.get frontierUnvisited node =
    if node ∈ changed then b.frontierPair.curIter
    else b.frontierPair.nextFrontier.get frontierUnvisited node
  older : ∀ old ∈ it.past, Older alg weight G source b.entries it.state.entries changed old

variable {pending : V → Prop} {changed : List V}

omit [DecidableEq V] in
theorem Older.refl {start entries : V → Option X} (hlabels : Labels alg weight G source pending entries)
    (hreached : ∀ {node}, start node ≠ none → entries node ≠ none) :
    Older alg weight G source start entries changed entries :=
  ⟨hreached, fun {_ x} hx => ⟨⟨x, hx, le_rfl, .inl rfl⟩, hlabels.sound hx⟩⟩

theorem Older.update {start entries old : V → Option X}
    (h : Older alg weight G source start entries changed old) (nbr : V) (entry : X)
    (hmin : ∀ x, entries nbr = some x → alg.cost entry ≤ alg.cost x) :
    Older alg weight G source start (update entries nbr (some entry)) (nbr :: changed) old := by
  refine ⟨h.reached, fun {node x} hx => ?_⟩
  obtain ⟨⟨y, hy, hle, hcur⟩, hw⟩ := h.reads hx
  refine ⟨?_, hw⟩
  by_cases hn : node = nbr
  · subst hn
    exact ⟨entry, update_self .., (hmin y hy).trans hle, .inr mem_cons_self⟩
  · exact ⟨y, by rwa [update_of_ne hn], hle, hcur.imp_right (mem_cons_of_mem _)⟩

theorem entries_set (s : WeightedState V E X) (node : V) (entry : X) :
    (s.data.set node (some entry)).get none = update s.entries node (some entry) := by
  funext node'
  rw [get_set, update_apply]
  rfl

theorem afterVisits_snoc {b : WeightedState V E X} {visits : List (EdgeVisit V E)}
    {steps : List (WeightedStep V E X)} {it : WeightedIteration V E X}
    (hlabels : Labels alg weight G source pending b.entries) (horigin : ∀ hop, G.origin hop = hop.node)
    (h : AfterVisits alg weight G source b visits steps changed it)
    (henters : ∀ visit ∈ visits, G.enters visit.hop visit.nbr) (visit : EdgeVisit V E)
    (hbound : b.entries visit.hop.node ≠ none) :
    ∃ steps changed, AfterVisits alg weight G source b (visits ++ [visit]) steps changed
      (edgeCompute alg weight schedule it visit) := by
  have hsteps : ∀ step ∈ steps, G.enters step.visit.hop step.visit.nbr := fun step hs =>
    henters _ (h.visits ▸ mem_map_of_mem hs)
  have hnow := (hlabels.during horigin h.relaxes hsteps).1
  have hreached : ∀ {node}, b.entries node ≠ none → it.state.entries node ≠ none := by
    intro node hne
    obtain ⟨x, hx⟩ := ne_none_iff_exists'.mp hne
    obtain ⟨y, hy, -⟩ := (h.relaxes.mono node).2 x hx
    simp [hy]
  -- The entries that are read are the present ones, or older ones.
  obtain ⟨seen, hseen⟩ : ∃ seen, seen = ((it.state.entries :: it.past)[schedule.age
      it.state.frontierPair.curIter visit]?).getD it.state.entries := ⟨_, rfl⟩
  have hself : Older alg weight G source b.entries it.state.entries changed it.state.entries := .refl hnow hreached
  have holder : ∀ old ∈ it.state.entries :: it.past,
      Older alg weight G source b.entries it.state.entries changed old := fun old hold => by
    obtain rfl | hold := mem_cons.mp hold
    · exact hself
    · exact h.older old hold
  have hold : Older alg weight G source b.entries it.state.entries changed seen := by
    rw [hseen]
    cases hget : (it.state.entries :: it.past)[schedule.age it.state.frontierPair.curIter visit]? with
    | none => exact hself
    | some old => exact holder old (mem_of_getElem? hget)
  obtain ⟨bound, hb⟩ := ne_none_iff_exists'.mp (hold.reached hbound)
  have hread := hold.reads hb
  obtain ⟨newCost, hcost⟩ : ∃ newCost, newCost = alg.cost bound + weight visit.hop.edge := ⟨_, rfl⟩
  cases hadd : alg.tryAdd (it.state.entries visit.nbr) visit.hop newCost with
  | none =>
    have hstep : edgeCompute alg weight schedule it visit =
        ⟨{ it.state with trace := it.state.trace ++ [⟨it.state.entries, visit, newCost⟩] },
          it.state.entries :: it.past⟩ := by
      simp [edgeCompute, ← hseen, hb, ← hcost, hadd]
    rw [hcost] at hadd
    refine ⟨steps ++ [⟨it.state.entries, visit, newCost⟩], changed, ?_⟩
    rw [hstep]
    constructor
    case relaxes =>
      rw [hcost]
      exact .keep visit (alg.cost bound) h.relaxes hread hadd
    case visits => simp [h.visits]
    case trace => simp [h.trace]
    case older => exact holder
    case pinned => exact h.pinned
    case curIter => exact h.curIter
    case current => exact h.current
    case state => exact h.state
    case dataState => exact h.dataState
    case active => exact h.active
    case next => exact h.next
  | some entry =>
    have hstep : edgeCompute alg weight schedule it visit = ⟨{ it.state with
            frontierPair := it.state.frontierPair.addNodeToNextFrontier visit.nbr
            data := it.state.data.set visit.nbr (some entry)
            trace := it.state.trace ++ [⟨it.state.entries, visit, newCost⟩] },
          it.state.entries :: it.past⟩ := by
      simp [edgeCompute, ← hseen, hb, ← hcost, hadd]
    obtain ⟨hentry, hmin⟩ := alg.cost_of_tryAdd hadd
    rw [hcost] at hadd
    refine ⟨steps ++ [⟨it.state.entries, visit, newCost⟩], visit.nbr :: changed, ?_⟩
    rw [hstep]
    constructor
    case relaxes =>
      have hrelaxes := Relaxes.add visit (alg.cost bound) entry h.relaxes hread hadd
      rw [← entries_set, ← hcost] at hrelaxes
      exact hrelaxes
    case visits => simp [h.visits]
    case trace => simp [h.trace]
    case older =>
      intro old hmem
      have := (holder old hmem).update visit.nbr entry fun x hx => hentry ▸ hmin x hx
      rw [← entries_set] at this
      exact this
    case pinned => exact h.pinned
    case curIter => exact h.curIter
    case current => exact h.current
    case state => exact (state_set ..).trans h.state
    case dataState => exact (state_set ..).trans h.dataState
    case active => simp [FrontierPair.addNodeToNextFrontier]
    case next =>
      intro node
      simp only [FrontierPair.addNodeToNextFrontier, get_set, h.curIter, h.next]
      by_cases hn : node = visit.nbr <;> simp [hn]

theorem afterVisits_foldl (schedule : WeightedSchedule V E) {b : WeightedState V E X}
    (hlabels : Labels alg weight G source pending b.entries)
    (horigin : ∀ hop, G.origin hop = hop.node) (visits : List (EdgeVisit V E))
    (hvisits : ∀ visit ∈ visits, G.enters visit.hop visit.nbr ∧ b.entries visit.hop.node ≠ none) :
    ∃ steps changed, AfterVisits alg weight G source b visits steps changed
      (visits.foldl (edgeCompute alg weight schedule) ⟨b, []⟩) := by
  induction visits using reverseRecOn with
  | nil =>
    refine ⟨[], [], .nil, rfl, by simp, rfl, rfl, rfl, rfl, rfl, by simp, by simp, ?_⟩
    intro old hold
    cases hold
  | append_singleton visits visit ih =>
    obtain ⟨steps, changed, h⟩ := ih fun visit hv => hvisits visit (mem_append_left _ hv)
    rw [foldl_append]
    exact afterVisits_snoc hlabels horigin h
      (fun visit hv => (hvisits visit (mem_append_left _ hv)).1) visit (hvisits visit (by simp)).2

end WeightedState

/-! ## Iterations -/

theorem Labels.mono {alg : WeightedAlgorithm V E X} {weight : E → Nat} {G : HopGraph V (Hop V E)}
    {source : V} {entries : V → Option X} {P Q : V → Prop} (h : Labels alg weight G source P entries)
    (hsub : ∀ node, P node → Q node) : Labels alg weight G source Q entries :=
  ⟨h.atSource, h.sound, fun he hx => (h.relaxed he hx).imp_right (hsub _)⟩

/-- An invariant of the entries, the nodes that are still to be visited, and the visits so far. -/
structure WeightedInvariant [DecidableEq V] (alg : WeightedAlgorithm V E X) (weight : E → Nat)
    (G : HopGraph V (Hop V E)) (source : V)
    (K : (V → Prop) → (V → Option X) → List (WeightedStep V E X) → Prop) : Prop where
  init : K (· = source) (update (fun _ => none) source (some alg.sourceEntry)) []
  mono : ∀ {P Q : V → Prop} {entries trace}, (∀ node, P node → Q node) → K P entries trace →
    K Q entries trace
  step : ∀ {P entries trace steps entries' changed}, Labels alg weight G source P entries →
    K P entries trace → Relaxes alg weight G source entries steps entries' changed →
    (∀ step ∈ steps, G.enters step.visit.hop step.visit.nbr) →
    (∀ {hop node}, G.enters hop node → P hop.node → ⟨hop, node⟩ ∈ steps.map (·.visit)) →
    K (· ∈ changed) entries' (trace ++ steps)

namespace WeightedState

variable [DecidableEq V] {g : OnDiskGraph V E} {direction : ExtendDirection} {alg : WeightedAlgorithm V E X}
  {weight : E → Nat} {source : V} {s : WeightedState V E X}
  {K : (V → Prop) → (V → Option X) → List (WeightedStep V E X) → Prop}

/-- The nodes that the next iteration has to visit. -/
def Pending (s : WeightedState V E X) (node : V) : Prop :=
  s.frontierPair.hasActiveNodesForNextIter = true ∧
    s.frontierPair.nextFrontier.get frontierUnvisited node = s.frontierPair.curIter

/-- What holds between iterations. -/
structure Inv (alg : WeightedAlgorithm V E X) (weight : E → Nat) (G : HopGraph V (Hop V E)) (source : V)
    (K : (V → Prop) → (V → Option X) → List (WeightedStep V E X) → Prop) (s : WeightedState V E X) :
    Prop where
  currentState : s.frontierPair.currentFrontier.state = s.frontierPair.nextFrontier.state
  dataState : s.data.state = s.frontierPair.nextFrontier.state
  current : ∀ {node}, s.frontierPair.currentFrontier.get frontierUnvisited node ≠ frontierUnvisited →
    s.entries node ≠ none
  next : ∀ {node}, s.frontierPair.nextFrontier.get frontierUnvisited node ≠ frontierUnvisited →
    s.entries node ≠ none
  pinned : s.pinnedEntries = s.entries
  labels : Labels alg weight G source s.Pending s.entries
  extra : K s.Pending s.entries s.trace

theorem entries_initSource (alg : WeightedAlgorithm V E X) (source : V) :
    (initSource alg source : WeightedState V E X).entries = update (fun _ => none) source (some alg.sourceEntry) := by
  funext node
  simp [entries, initSource, get_set, update_apply]

variable {G : HopGraph V (Hop V E)}

theorem inv_initSource (hK : WeightedInvariant alg weight G source K) :
    Inv alg weight G source K (initSource alg source) := by
  have hentries := entries_initSource (E := E) alg source
  have hnext : ∀ node, (initSource alg source : WeightedState V E X).frontierPair.nextFrontier.get
      frontierUnvisited node = if node = source then 0 else frontierUnvisited := by
    intro node
    simp [initSource, FrontierPair.initSource, get_set]
  have hpending : ∀ node, node = source → (initSource alg source : WeightedState V E X).Pending node :=
    fun node hn => ⟨rfl, by rw [hnext, if_pos hn]; rfl⟩
  constructor
  case currentState => rfl
  case dataState => rfl
  case current => exact fun hne => absurd rfl hne
  case next =>
    intro node hne
    rw [hnext] at hne
    split at hne
    · next hn =>
      rw [hentries, hn]
      simp
    · exact absurd rfl hne
  case pinned => rfl
  case labels =>
    rw [hentries]
    refine ⟨⟨alg.sourceEntry, update_self .., alg.cost_sourceEntry⟩, fun {node x} hx => ?_,
      fun {hop node x} _ hx => .inr ?_⟩
    · by_cases hn : node = source
      · subst hn
        rw [update_self] at hx
        obtain rfl := some.inj hx
        rw [alg.cost_sourceEntry]
        exact HopGraph.hasWeight_source
      · rw [update_of_ne hn] at hx
        cases hx
    · refine hpending _ (by_contra fun hn => ?_)
      rw [update_of_ne hn] at hx
      cases hx
  case extra =>
    rw [hentries]
    exact hK.mono hpending hK.init

omit [DecidableEq V] in
theorem Inv.switchToDense (h : Inv alg weight G source K s) (hsparse : s.frontierPair.nextFrontier.state = .sparse) :
    Inv alg weight G source K s.switchToDense := by
  have hnext : ∀ node, s.switchToDense.frontierPair.nextFrontier.get frontierUnvisited node =
      s.frontierPair.nextFrontier.get frontierUnvisited node := get_switchToDense hsparse
  have hentries : s.switchToDense.entries = s.entries := funext (get_switchToDense (h.dataState.trans hsparse))
  have hpending : s.switchToDense.Pending = s.Pending := by
    funext node
    simp only [Pending, hnext]
    rfl
  constructor
  case currentState => rfl
  case dataState => rfl
  case current => exact fun hne => absurd rfl hne
  case next =>
    intro node hne
    rw [hentries]
    exact h.next (hnext node ▸ hne)
  case pinned =>
    simp only [WeightedState.switchToDense]
    cases s.pinned <;> rfl
  case labels =>
    rw [hentries, hpending]
    exact h.labels
  case extra =>
    rw [hentries, hpending]
    exact h.extra

theorem runLoop_of_converged {schedule : WeightedSchedule V E} {maxIter : Nat} (h : s.Converged) (rounds : Nat) :
    s.runLoop g direction alg weight schedule maxIter rounds = s := by
  have hactive : s.frontierPair.hasActiveNodesForNextIter = false := h
  cases rounds with
  | zero => rfl
  | succ rounds => simp [runLoop, FrontierPair.continueNextIter, hactive]

theorem runLoop_of_active (g : OnDiskGraph V E) (direction : ExtendDirection) (alg : WeightedAlgorithm V E X)
    (weight : E → Nat) (schedule : WeightedSchedule V E) {maxIter : Nat} (h : ¬ s.Converged)
    (hlt : s.frontierPair.curIter < maxIter) (rounds : Nat) :
    s.runLoop g direction alg weight schedule maxIter (rounds + 1) =
      (s.iterate g direction alg weight schedule).runLoop g direction alg weight schedule maxIter rounds := by
  have hactive : s.frontierPair.hasActiveNodesForNextIter = true := Bool.not_eq_false _ ▸ h
  simp [runLoop, FrontierPair.continueNextIter, hactive, hlt]

section
variable (hK : WeightedInvariant alg weight (g.hops direction) source K)
include hK

/-- An iteration keeps the invariant. What it has left to do starts at the nodes that it has changed. -/
theorem Inv.iterate (h : Inv alg weight (g.hops direction) source K s) (schedule : WeightedSchedule V E)
    (hlt : s.frontierPair.curIter < frontierUnvisited) :
    let s' := s.iterate g direction alg weight schedule
    Inv alg weight (g.hops direction) source K s' ∧ s'.frontierPair.curIter = s.frontierPair.curIter + 1 ∧
      ∃ steps changed, Relaxes alg weight (g.hops direction) source s.entries steps s'.entries changed ∧
        Labels alg weight (g.hops direction) source (· ∈ changed) s'.entries ∧ s'.trace = s.trace ++ steps := by
  intro s'
  obtain ⟨b, hb⟩ : ∃ b : WeightedState V E X, b =
      { s with frontierPair := s.frontierPair.beginNewIteration, pinned := s.data.state } := ⟨_, rfl⟩
  obtain ⟨visits, hvisits⟩ : ∃ visits, visits = schedule.order b.frontierPair.curIter
      ((g.visits direction).filter fun visit =>
        b.frontierPair.isActiveOnCurrentFrontier visit.hop.node) := ⟨_, rfl⟩
  have hentries : b.entries = s.entries := by rw [hb]; rfl
  have hcur : b.frontierPair.curIter = s.frontierPair.curIter + 1 := by rw [hb]; rfl
  have hmem : ∀ {visit}, visit ∈ visits ↔ (g.hops direction).enters visit.hop visit.nbr ∧
      s.frontierPair.nextFrontier.get frontierUnvisited visit.hop.node = s.frontierPair.curIter := by
    rw [hvisits, hb]
    exact schedule.mem_order
  obtain ⟨steps, changed, hafter⟩ := afterVisits_foldl schedule (hentries ▸ h.labels)
    (fun _ => rfl) visits fun visit hv => by
      obtain ⟨henters, hvalue⟩ := hmem.mp hv
      exact ⟨henters, hentries ▸ h.next (by omega)⟩
  obtain ⟨⟨c, past⟩, hc⟩ : ∃ it, it = visits.foldl (edgeCompute alg weight schedule) ⟨b, []⟩ := ⟨_, rfl⟩
  rw [← hc] at hafter
  have hsteps : ∀ step ∈ steps, (g.hops direction).enters step.visit.hop step.visit.nbr :=
    fun step hs => (hmem.mp (hafter.visits ▸ mem_map_of_mem hs)).1
  have hcover : ∀ {hop node}, (g.hops direction).enters hop node → s.Pending hop.node →
      (⟨hop, node⟩ : EdgeVisit V E) ∈ steps.map (·.visit) := fun he hp => by
    rw [hafter.visits]
    exact hmem.mpr ⟨he, hp.2⟩
  have hrelaxes := hafter.relaxes
  rw [hentries] at hrelaxes
  have hccur : c.frontierPair.curIter = s.frontierPair.curIter + 1 := hafter.curIter.trans hcur
  have hcnext := hafter.next
  -- The nodes that have changed are those for the next iteration.
  have hpending : ∀ node, node ∈ changed → c.Pending node := by
    intro node hn
    refine ⟨?_, (hcnext node).trans (by rw [if_pos hn, hccur, hcur])⟩
    rw [hafter.active]
    cases changed with
    | nil => cases hn
    | cons _ _ => simp
  have hreached : ∀ {node}, s.entries node ≠ none → c.entries node ≠ none := by
    intro node hne
    obtain ⟨x, hx⟩ := ne_none_iff_exists'.mp hne
    obtain ⟨y, hy, -⟩ := (hrelaxes.mono node).2 x hx
    simp [hy]
  have hlabels := h.labels.after (fun _ => rfl) hrelaxes hsteps hcover
  have htrace : c.trace = s.trace ++ steps := by rw [hafter.trace, hb]
  have hinv : Inv alg weight (g.hops direction) source K c := by
    constructor
    case currentState =>
      rw [hafter.current, hafter.state, hb]
      exact h.currentState.symm
    case dataState =>
      rw [hafter.dataState, hafter.state, hb]
      exact h.dataState.trans h.currentState.symm
    case current =>
      intro node hne
      rw [hafter.current, hb] at hne
      exact hreached (h.next hne)
    case next =>
      intro node hne
      rw [hcnext] at hne
      by_cases hn : node ∈ changed
      · exact hrelaxes.ne_none_of_changed hn
      · rw [if_neg hn, hb] at hne
        exact hreached (h.current hne)
    case pinned =>
      have hsame : c.pinned = c.data.state := by rw [hafter.pinned, hafter.dataState, hb]
      unfold pinnedEntries
      funext node
      rw [hsame]
      cases hstate : c.data.state <;> simp [entries, DensityMap.get, hstate]
    case labels => exact hlabels.mono hpending
    case extra =>
      rw [htrace]
      exact hK.mono hpending (hK.step h.labels h.extra hrelaxes hsteps hcover)
  have hiterate : s' =
      if c.frontierPair.nextFrontier.state = .sparse ∧ schedule.needSwitchToDense c.frontierPair.curIter
      then c.switchToDense else c := by
    obtain rfl := congrArg WeightedIteration.state hc
    rw [hvisits, hb]
    rfl
  rw [hiterate]
  split
  · next hswitch =>
    have hsame : c.switchToDense.entries = c.entries :=
      funext (get_switchToDense (hinv.dataState.trans hswitch.1))
    exact ⟨hinv.switchToDense hswitch.1, hccur, steps, changed, hsame ▸ hrelaxes, hsame ▸ hlabels, htrace⟩
  · exact ⟨hinv, hccur, steps, changed, hrelaxes, hlabels, htrace⟩

/-! ## Runs -/

theorem Inv.runLoop
    (schedule : WeightedSchedule V E) {maxIter : Nat} (hmax : maxIter ≤ frontierUnvisited) (rounds : Nat)
    (h : Inv alg weight (g.hops direction) source K s) :
    Inv alg weight (g.hops direction) source K (s.runLoop g direction alg weight schedule maxIter rounds) := by
  induction rounds generalizing s with
  | zero => exact h
  | succ rounds ih =>
    unfold runLoop
    split
    · next hcontinue =>
      have hlt : s.frontierPair.curIter < maxIter := by
        simp only [FrontierPair.continueNextIter, Bool.and_eq_true, decide_eq_true_eq] at hcontinue
        omega
      exact ih (h.iterate hK schedule (hlt.trans_le hmax)).1
    · exact h

/-- The last iteration that a bound allows: it is made unless the search has converged before it. -/
theorem Inv.runLoop_succ (schedule : WeightedSchedule V E) (rounds : Nat)
    (h : Inv alg weight (g.hops direction) source K s)
    (hmax : s.frontierPair.curIter + rounds < frontierUnvisited) :
    let t := s.runLoop g direction alg weight schedule (s.frontierPair.curIter + rounds) rounds
    let s' := s.runLoop g direction alg weight schedule (s.frontierPair.curIter + (rounds + 1)) (rounds + 1)
    Inv alg weight (g.hops direction) source K t ∧
      (t.Converged ∧ s' = t ∨ s' = t.iterate g direction alg weight schedule ∧
        t.frontierPair.curIter < frontierUnvisited) := by
  induction rounds generalizing s with
  | zero =>
    intro t s'
    refine ⟨h, ?_⟩
    by_cases hconv : s.Converged
    · exact .inl ⟨hconv, runLoop_of_converged hconv _⟩
    · exact .inr ⟨runLoop_of_active g direction alg weight schedule hconv (Nat.lt_add_of_pos_right Nat.one_pos) 0, hmax⟩
  | succ rounds ih =>
    intro t s'
    by_cases hconv : s.Converged
    · have ht : t = s := runLoop_of_converged hconv _
      rw [ht]
      exact ⟨h, .inl ⟨hconv, runLoop_of_converged hconv _⟩⟩
    · obtain ⟨hinv, hcur, -⟩ := h.iterate hK schedule (by omega)
      have hrest := ih hinv (by omega)
      rw [hcur, Nat.add_assoc, Nat.add_assoc, Nat.add_comm 1, Nat.add_comm 1] at hrest
      have ht := runLoop_of_active g direction alg weight schedule hconv
        (show _ < s.frontierPair.curIter + (rounds + 1) by omega) rounds
      have hs' := runLoop_of_active g direction alg weight schedule hconv
        (show _ < s.frontierPair.curIter + (rounds + 1 + 1) by omega) (rounds + 1)
      rw [← ht, ← hs'] at hrest
      exact hrest

theorem run_spec (schedule : WeightedSchedule V E) (upperBound : UInt16) : Inv alg weight (g.hops direction) source K
      (run g direction alg weight schedule upperBound source) :=
  (inv_initSource hK).runLoop hK schedule (Nat.le_of_lt_succ upperBound.toNat_lt) _

end

omit [DecidableEq V] in
theorem Converged.not_pending (h : s.Converged) (node : V) : ¬s.Pending node := fun hp => by
  have hactive := hp.1
  rw [h] at hactive
  cases hactive

omit [DecidableEq V] in
/-- The costs of a search that has converged are the least weights. -/
theorem Inv.isMinWeight_iff (h : Inv alg weight G source K s)
    (horigin : ∀ hop, G.origin hop = hop.node) (hconv : s.Converged) {node : V} {c : Nat} :
    (s.entries node).map alg.cost = some c ↔ G.IsMinWeight source (hopWeight weight) c node := by
  obtain ⟨label, hlabel⟩ : ∃ label : V → Option Nat,
      ∀ node, label node = (s.entries node).map alg.cost := ⟨_, fun _ => rfl⟩
  have hsource : label source = some 0 := by
    obtain ⟨x, hx, hcost⟩ := h.labels.atSource
    simp [hlabel, hx, hcost]
  have hrelaxed : ∀ {hop node c}, G.enters hop node → label (G.origin hop) = some c →
      ∃ c', label node = some c' ∧ c' ≤ c + hopWeight weight hop := by
    intro hop node c he hc
    rw [hlabel, horigin] at hc
    obtain ⟨x, hx, rfl⟩ := map_eq_some_iff.mp hc
    obtain ⟨y, hy, hle⟩ | hp := h.labels.relaxed he hx
    · exact ⟨alg.cost y, by simp [hlabel, hy], hle⟩
    · exact absurd hp (hconv.not_pending _)
  rw [← hlabel]
  refine HopGraph.isMinWeight_iff_of_relaxed hsource hrelaxed fun {node c} hc => ?_
  rw [hlabel] at hc
  obtain ⟨x, hx, rfl⟩ := map_eq_some_iff.mp hc
  exact h.labels.sound hx

end WeightedState

end CycleJoin
