import CycleJoin.Function.Gds.VariableLengthPath

/-!
# The rows of a variable-length join

* `walkRow`: the row of a walk, with its nodes and edges in order.
* `ParentLayers.mem_map_parentPaths`, `ParentLayers.nodup_map_parentPaths`: the paths that parents make are the
  walks of the lengths `1` to the upper bound, once each.
* `varLenJoin_rows_iff`: with walks and no path node mask, a variable-length join writes one row for each
  walk within the bounds, except when the empty walk is asked for and the source lies on a cycle.
-/

namespace CycleJoin

open List PathsOutputWriterInfo

variable {V E : Type}

/-! ## Rows of walks -/

/-- The row of a walk that is given from its last hop on. The inner nodes are those before each hop but
the first. -/
def PathsOutputWriterInfo.walkRow (info : PathsOutputWriterInfo V) (dst : V) (walk : List (Hop V E)) :
    PathRow V E :=
  let ordered := fun {α : Type} (list : List α) => if info.flipPath then list else list.reverse
  { dst
    length := walk.length
    nodeIDs := if info.writePath then ordered (walk.dropLast.map (·.node)) else []
    edgeIDs := if info.writePath then ordered (walk.map (·.edge)) else []
    directions :=
      if info.writePath && info.writeEdgeDirection then ordered (walk.map (·.isFwd)) else [] }

theorem filterMap_getElem?_range' {α : Type} (list : List α) (start : Nat) :
    (range' start (list.length - start)).filterMap (list[·]?) = list.drop start := by
  induction hn : list.length - start generalizing start with
  | zero => simp [drop_of_length_le (Nat.le_of_sub_eq_zero hn)]
  | succ n ih =>
    have hlt : start < list.length := by omega
    rw [range'_succ, filterMap_cons, getElem?_eq_getElem hlt, ih (start + 1) (by omega), drop_eq_getElem_cons hlt]

theorem filterMap_getElem?_reverse {α : Type} (list : List α) (start : Nat) :
    (range' start (list.length - start)).filterMap (fun i => list[list.length - 1 - i]?) =
      list.reverse.drop start := by
  rw [← filterMap_getElem?_range', length_reverse]
  refine filterMap_congr fun i hi => ?_
  have hlt : i < list.length := by
    have := mem_range'_1.mp hi
    omega
  rw [getElem?_reverse hlt]

section
variable (info : PathsOutputWriterInfo V)
include info

section
variable (dst : V) (path : List (ParentEntry V E))

theorem writePathBwd_eq : info.writePathBwd dst path =
      { dst
        length := path.length % 2 ^ 16
        nodeIDs := (path.dropLast.map (·.node)).reverse
        edgeIDs := (path.map (·.edge)).reverse
        directions := if info.writeEdgeDirection then (path.map (·.isFwd)).reverse else [] } := by
  have hedges : (range path.length).filterMap (fun i => path[path.length - 1 - i]?) = path.reverse := by
    simpa only [range_eq_range', Nat.sub_zero, drop_zero] using filterMap_getElem?_reverse path 0
  have hnodes : (range' 1 (path.length - 1)).filterMap
      (fun i => path[path.length - 1 - i]?.map (·.node)) = (path.dropLast.map (·.node)).reverse := by
    have h := congrArg (map (·.node)) (filterMap_getElem?_reverse path 1)
    rw [map_filterMap] at h
    rw [h, drop_one, tail_reverse, map_reverse]
  simp [writePathBwd, hedges, hnodes]

theorem writePathFwd_eq : info.writePathFwd dst path =
      { dst
        length := path.length % 2 ^ 16
        nodeIDs := path.dropLast.map (·.node)
        edgeIDs := path.map (·.edge)
        directions := if info.writeEdgeDirection then path.map (·.isFwd) else [] } := by
  have hedges : (range path.length).filterMap (fun i => path[i]?) = path := by
    simpa only [range_eq_range', Nat.sub_zero, drop_zero] using filterMap_getElem?_range' path 0
  have hnodes : (range (path.length - 1)).filterMap (fun i => path[i]?.map (·.node)) =
      path.dropLast.map (·.node) := by
    have h := congrArg (map (·.node)) (filterMap_getElem?_range' path.dropLast 0)
    rw [map_filterMap, drop_zero, length_dropLast, ← range_eq_range'] at h
    rw [← h]
    refine filterMap_congr fun i hi => ?_
    have hlt := mem_range.mp hi
    rw [getElem?_dropLast, if_pos hlt]
  simp [writePathFwd, hedges, hnodes]

/-- A written path is the row of its walk. The length has 16 bits. -/
theorem pathRow_eq : info.pathRow dst path =
      { info.walkRow dst (path.map (·.toHop)) with length := path.length % 2 ^ 16 } := by
  have hdrop : (path.map (·.toHop)).dropLast.map (·.node) = path.dropLast.map (·.node) := by
    rw [← map_dropLast, map_map]
    rfl
  rw [pathRow, writePathBwd_eq, writePathFwd_eq]
  cases hp : info.writePath <;> cases hf : info.flipPath <;> simp [walkRow, hp, hf, Function.comp_def]

end

theorem pathRow_eq_walkRow (dst : V) {path : List (ParentEntry V E)}
    (hlen : path.length < 2 ^ 16) : info.pathRow dst path = info.walkRow dst (path.map (·.toHop)) := by
  rw [pathRow_eq, Nat.mod_eq_of_lt hlen]
  simp [walkRow]

end

/-! ## Paths of parents -/

/-- The paths to a node that parents make, with the parents of the node that a check lets pass. -/
def parentPaths (parents : V → ParentList V E) (check : ParentEntry V E → Bool) (node : V) :
    List (List (ParentEntry V E)) :=
  ((parents node).filter check).flatMap fun e =>
    (parentWalks parents (e.iter - 1) e.node).map (e :: ·)

namespace ParentLayers

variable {G : HopGraph V (Hop V E)} {source : V} {n : Nat} {parents : V → ParentList V E}

theorem map_parentWalks (horigin : ∀ hop, G.origin hop = hop.node) (k : Nat) (node : V) :
    (parentWalks parents k node).map (map (·.toHop)) =
      HopGraph.walksBy G.origin (fun k node => ((parents node).filter (·.iter = k)).map (·.toHop)) k
        node :=
  HopGraph.map_walksBy (fun e : ParentEntry V E => horigin e.toHop) _ k node

variable (h : ParentLayers G source n parents)
include h

theorem lastHops : HopGraph.LastHops G source n fun k node =>
      ((parents node).filter (·.iter = k)).map (·.toHop) where
  mem := fun {k node hop} hk => by
    simp only [mem_map, mem_filter, decide_eq_true_eq]
    constructor
    · rintro ⟨e, ⟨he, hiter⟩, rfl⟩
      obtain ⟨henters, -, -, hw⟩ := h.mem.mp he
      rw [hiter] at hw
      exact ⟨henters, hw⟩
    · rintro ⟨henters, hw⟩
      exact ⟨⟨hop, k + 1⟩, ⟨h.mem.mpr ⟨henters, Nat.succ_pos k, hk, hw⟩, rfl⟩, rfl⟩
  nodup := fun {k node} _ => by
    refine ((h.nodup node).filter _).map_on fun e he e' he' heq => ?_
    cases e
    cases e'
    simp_all

/-- A node has parents if and only if there is a walk to it that is not empty. -/
theorem ne_nil_iff {node : V} : parents node ≠ [] ↔ ∃ k, 1 ≤ k ∧ k ≤ n ∧ G.HasWalk source k node := by
  constructor
  · intro hne
    obtain ⟨e, he⟩ := exists_mem_of_ne_nil _ hne
    obtain ⟨henters, hpos, hle, hw⟩ := h.mem.mp he
    refine ⟨e.iter, hpos, hle, ?_⟩
    rw [← Nat.sub_add_cancel hpos]
    exact HopGraph.hasWalk_succ.mpr ⟨e.toHop, henters, hw⟩
  · rintro ⟨k, hpos, hle, hw⟩
    rw [← Nat.sub_add_cancel hpos] at hw
    obtain ⟨hop, henters, hw⟩ := HopGraph.hasWalk_succ.mp hw
    exact ne_nil_of_mem (h.mem (e := ⟨hop, k⟩) |>.mpr ⟨henters, hpos, hle, hw⟩)

variable (horigin : ∀ hop, G.origin hop = hop.node)
include horigin

theorem mem_map_parentWalks {k : Nat} (hk : k ≤ n) {node : V}
    (hnode : k = 0 → node = source) {walk : List (Hop V E)} :
    walk ∈ (parentWalks parents k node).map (map (·.toHop)) ↔ G.IsWalk source walk node ∧ walk.length = k := by
  rw [map_parentWalks horigin, h.lastHops.mem_walksBy hk hnode]

theorem nodup_map_parentWalks {k : Nat} (hk : k ≤ n) (node : V) :
    ((parentWalks parents k node).map (map (·.toHop))).Nodup := by
  rw [map_parentWalks horigin]
  exact h.lastHops.nodup_walksBy hk

theorem mem_map_parentPaths {lower : Nat} {node : V} {walk : List (Hop V E)} :
    walk ∈ (parentPaths parents (lower ≤ ·.iter) node).map (map (·.toHop)) ↔
      G.IsWalk source walk node ∧ 1 ≤ walk.length ∧ lower ≤ walk.length ∧ walk.length ≤ n := by
  have hmem : walk ∈ (parentPaths parents (lower ≤ ·.iter) node).map (map (·.toHop)) ↔
      ∃ e ∈ parents node, lower ≤ e.iter ∧ ∃ tail,
        tail ∈ (parentWalks parents (e.iter - 1) e.node).map (map (·.toHop)) ∧ walk = e.toHop :: tail := by
    simp only [parentPaths, mem_map, mem_flatMap, mem_filter, decide_eq_true_eq]
    constructor
    · rintro ⟨_, ⟨e, ⟨he, hl⟩, path, hp, rfl⟩, rfl⟩
      exact ⟨e, he, hl, path.map (·.toHop), ⟨path, hp, rfl⟩, rfl⟩
    · rintro ⟨e, he, hl, _, ⟨path, hp, rfl⟩, rfl⟩
      exact ⟨e :: path, ⟨e, ⟨he, hl⟩, path, hp, rfl⟩, rfl⟩
  rw [hmem]
  constructor
  · rintro ⟨e, he, hl, tail, htail, rfl⟩
    obtain ⟨henters, hpos, hle, hw⟩ := h.mem.mp he
    rw [horigin] at hw
    obtain ⟨hwalk, hlen⟩ := (h.mem_map_parentWalks horigin (by omega) (fun h0 => by simpa [h0] using hw)).mp htail
    refine ⟨⟨henters, by rwa [horigin]⟩, ?_, ?_, ?_⟩ <;> simp only [length_cons] <;> omega
  · rintro ⟨hw, hpos, hl, hle⟩
    cases walk with
    | nil => cases hpos
    | cons hop tail =>
      simp only [length_cons] at hl hle
      have htail : G.IsWalk source tail hop.node := horigin hop ▸ hw.2
      have hwalk : G.HasWalk source tail.length hop.node := ⟨tail, htail, rfl⟩
      refine ⟨⟨hop, tail.length + 1⟩, h.mem.mpr ⟨hw.1, Nat.succ_pos _, hle, ?_⟩, hl, tail, ?_, rfl⟩
      · rw [horigin]
        exact hwalk
      · refine (h.mem_map_parentWalks horigin (by simp only; omega) fun h0 => ?_).mpr ⟨htail, rfl⟩
        have hzero : tail.length = 0 := h0
        exact HopGraph.hasWalk_zero.mp (hzero ▸ hwalk)

theorem nodup_map_parentPaths (lower : Nat) (node : V) :
    ((parentPaths parents (lower ≤ ·.iter) node).map (map (·.toHop))).Nodup := by
  have hlen : ∀ e ∈ parents node, ∀ tail, tail ∈ (parentWalks parents (e.iter - 1) e.node).map (map (·.toHop)) →
        tail.length = e.iter - 1 := by
    intro e he tail htail
    obtain ⟨-, hpos, hle, hw⟩ := h.mem.mp he
    rw [horigin] at hw
    exact ((h.mem_map_parentWalks horigin (by omega) (fun h0 => by simpa [h0] using hw)).mp htail).2
  have hmap : (parentPaths parents (lower ≤ ·.iter) node).map (map (·.toHop)) =
      ((parents node).filter (lower ≤ ·.iter)).flatMap fun e =>
        ((parentWalks parents (e.iter - 1) e.node).map (map (·.toHop))).map (e.toHop :: ·) := by
    simp only [parentPaths, map_flatMap, map_map]
    rfl
  rw [hmap]
  refine nodup_flatMap.mpr ⟨fun e he => ?_, ?_⟩
  · have hle := (h.mem.mp (mem_filter.mp he).1).2.2.1
    exact (h.nodup_map_parentWalks horigin (by omega) e.node).map fun _ _ heq => (cons.inj heq).2
  · refine ((h.nodup node).filter _).imp_of_mem fun {e e'} he he' hne => ?_
    -- Two parents with the same hop belong to different iterations, so to walks of different lengths.
    intro walk hw hw'
    obtain ⟨tail, htail, rfl⟩ := mem_map.mp hw
    obtain ⟨tail', htail', heq⟩ := mem_map.mp hw'
    obtain ⟨hhop, rfl⟩ := cons.inj heq
    have hm := (mem_filter.mp he).1
    have hm' := (mem_filter.mp he').1
    have hl := hlen e hm _ htail
    have hl' := hlen e' hm' _ htail'
    have hpos := (h.mem.mp hm).2.1
    have hpos' := (h.mem.mp hm').2.1
    refine hne ?_
    cases e
    cases e'
    simp only [ParentEntry.mk.injEq] at *
    exact ⟨hhop.symm, by omega⟩

end ParentLayers

/-! ## The rows of a destination -/

section Rows

variable {G : HopGraph V (Hop V E)} {source : V} {n : Nat} {parents : V → ParentList V E}
  {info : PathsOutputWriterInfo V}

theorem dfsFast_eq (h : ParentLayers G source n parents) (horigin : ∀ hop, G.origin hop = hop.node)
    {node : V} {first : ParentEntry V E} {next : ParentList V E} (hnode : parents node = first :: next)
    (hfirst : info.lowerBound.toNat ≤ first.iter) :
    ∃ rounds, ∀ fuel, rounds ≤ fuel → dfsFast info parents fuel (first :: next) =
      some (parentPaths parents (info.lowerBound.toNat ≤ ·.iter) node) := by
  have happend : CanAppend false (fun _ _ => true) parents := by
    refine .inr fun node e he hlt _ => ?_
    obtain ⟨-, -, hle, hw⟩ := h.mem.mp he
    obtain ⟨k, hk⟩ : ∃ k, e.iter = k + 2 := ⟨e.iter - 2, by omega⟩
    rw [horigin, show e.iter - 1 = k + 1 by omega] at hw
    obtain ⟨hop, henters, hw⟩ := HopGraph.hasWalk_succ.mp hw
    exact ⟨⟨hop, k + 1⟩, h.mem.mpr ⟨henters, Nat.succ_pos k, by simp only; omega, hw⟩, by simp only; omega, rfl⟩
  have hpos : ∀ node, ∀ e ∈ parents node, e.iter ≠ 0 := fun node e he => by
    have := (h.mem.mp he).2.1
    omega
  have hcheck : IgnoresTop (fun (_ : List (ParentEntry V E)) (_ : ParentEntry V E) => true)
      fun _ _ => true := fun _ _ => rfl
  obtain ⟨rounds, hrun⟩ := dfsLoop_eq happend hcheck hpos (fun e he => hnode ▸ he) hfirst
  refine ⟨rounds, fun fuel hf => (hrun fuel hf).trans (congrArg some ?_)⟩
  have hfilter : (parents node).filter (info.lowerBound.toNat ≤ ·.iter) =
      first :: (next.takeWhile (info.lowerBound.toNat ≤ ·.iter)).filter fun _ => true := by
    rw [(h.sorted node).filter_le_eq_takeWhile, hnode]
    simp [hfirst]
  rw [parentPaths, hfilter]
  refine flatMap_congr fun e _ => ?_
  rw [explore_eq_parentWalks h.sorted]
  rfl

@[simp]
theorem dst_pathRow (dst : V) (path : List (ParentEntry V E)) : (info.pathRow dst path).dst = dst := by
  unfold pathRow
  split
  · rfl
  · split <;> rfl

variable [DecidableEq V]

/-- The rows of a destination. -/
def fastRows (info : PathsOutputWriterInfo V) (parents : V → ParentList V E) (source dst : V) :
    List (PathRow V E) :=
  if parents dst = [] then
    if source = dst ∧ info.lowerBound = 0 then [info.pathRow dst []] else []
  else (parentPaths parents (info.lowerBound.toNat ≤ ·.iter) dst).map (info.pathRow dst)

theorem writeInternal_fast [DecidableEq E] (h : ParentLayers G source n parents)
    (horigin : ∀ hop, G.origin hop = hop.node) (hfast : info.isFast = true) (dst : V) :
    ∃ rounds, ∀ fuel, rounds ≤ fuel →
      info.writeInternal parents source fuel dst = some (fastRows info parents source dst) := by
  simp only [writeInternal, findFirstParent, hfast, fastRows]
  cases hlist : parents dst with
  | nil =>
    refine ⟨0, fun fuel _ => ?_⟩
    simp only [if_true]
    split <;> rfl
  | cons first next =>
    by_cases hlt : first.iter < info.lowerBound.toNat
    · have hnone : (parents dst).filter (info.lowerBound.toNat ≤ ·.iter) = [] := by
        rw [(h.sorted dst).filter_le_eq_takeWhile, hlist]
        simp [hlt]
      simp [hlt, parentPaths, hnone]
    · obtain ⟨rounds, hrun⟩ := dfsFast_eq h horigin hlist (not_lt.mp hlt)
      refine ⟨rounds, fun fuel hf => ?_⟩
      simp [hlt, hrun fuel hf]

/-- The rows of a destination are those of the walks with a property, one for each. -/
def RowsOfWalks (info : PathsOutputWriterInfo V) (rows : List (PathRow V E)) (dst : V)
    (P : List (Hop V E) → Prop) : Prop :=
  ∃ walks : List (List (Hop V E)), walks.Nodup ∧ (∀ walk, walk ∈ walks ↔ P walk) ∧
    (rows.filter (·.dst = dst)).Perm (walks.map (info.walkRow dst))

theorem dst_of_mem_fastRows {dst : V} {row : PathRow V E}
    (h : row ∈ fastRows info parents source dst) : row.dst = dst := by
  unfold fastRows at h
  split at h
  · split at h
    · simp_all
    · cases h
  · obtain ⟨path, -, rfl⟩ := mem_map.mp h
    exact dst_pathRow dst path

omit [DecidableEq V] in
theorem map_pathRow_parentPaths (h : ParentLayers G source n parents)
    (horigin : ∀ hop, G.origin hop = hop.node) (hn : n < 2 ^ 16) (lower : Nat) (dst : V) :
    (parentPaths parents (lower ≤ ·.iter) dst).map (info.pathRow dst) =
      ((parentPaths parents (lower ≤ ·.iter) dst).map (map (·.toHop))).map (info.walkRow dst) := by
  rw [map_map]
  refine map_congr_left fun path hp => pathRow_eq_walkRow info dst ?_
  have hw := (h.mem_map_parentPaths horigin).mp (mem_map_of_mem (f := map (·.toHop)) hp)
  have hlen := hw.2.2.2
  rw [length_map] at hlen
  omega

section
variable (h : ParentLayers G source n parents) (horigin : ∀ hop, G.origin hop = hop.node)
  (hn : n < 2 ^ 16) {dst : V}
include h horigin hn

/-- The parents of a destination that is not the source, or of one whose empty walk is not asked for,
give its rows. -/
theorem fastRows_eq (hdst : ¬ (source = dst ∧ info.lowerBound = 0)) : fastRows info parents source dst =
      ((parentPaths parents (info.lowerBound.toNat ≤ ·.iter) dst).map (map (·.toHop))).map (info.walkRow dst) := by
  rw [fastRows]
  split
  · next hnil => simp [parentPaths, hnil]
  · exact map_pathRow_parentPaths h horigin hn _ _

/-- A source with parents has no row of the empty walk. -/
theorem length_ne_zero_of_mem_fastRows (hne : parents dst ≠ [])
    {row : PathRow V E} (hrow : row ∈ fastRows info parents source dst) : row.length ≠ 0 := by
  rw [fastRows, if_neg hne, map_pathRow_parentPaths h horigin hn] at hrow
  obtain ⟨walk, hw, rfl⟩ := mem_map.mp hrow
  have hpos := ((h.mem_map_parentPaths horigin).mp hw).2.1
  exact Nat.one_le_iff_ne_zero.mp hpos

end

omit [DecidableEq V] in
/-- All destinations are written, given enough rounds for each. -/
theorem writeAll_eq {R : Type} {write : Nat → V → Option (List R)} {rows : V → List R}
    (mask : V → Bool) (dsts : List V) (h : ∀ dst ∈ dsts, mask dst = true →
      ∃ rounds, ∀ fuel, rounds ≤ fuel → write fuel dst = some (rows dst)) :
    ∃ rounds, ∀ fuel, rounds ≤ fuel → writeAll mask (write fuel) dsts = some ((dsts.filter mask).flatMap rows) := by
  induction dsts with
  | nil => exact ⟨0, fun _ _ => rfl⟩
  | cons dst dsts ih =>
    obtain ⟨m, hm⟩ := ih fun dst hdst => h dst (mem_cons_of_mem _ hdst)
    have hone : ∃ n, ∀ fuel, n ≤ fuel → (if mask dst then write fuel dst else some []) =
        some (if mask dst then rows dst else []) := by
      cases hmask : mask dst with
      | true => exact h dst mem_cons_self hmask
      | false => exact ⟨0, fun _ _ => rfl⟩
    obtain ⟨n, hn⟩ := hone
    refine ⟨n + m, fun fuel hf => ?_⟩
    have hrest := hm fuel (by omega)
    rw [writeAll, Option.map_eq_some_iff] at hrest ⊢
    obtain ⟨lists, hlists, hflat⟩ := hrest
    refine ⟨(if mask dst then rows dst else []) :: lists, ?_, ?_⟩
    · simp [hn fuel (by omega), hlists]
    · cases hmask : mask dst <;> simp [hmask, hflat]

theorem filter_dst_flatMap {R : Type} {key : R → V} {rows : V → List R}
    (h : ∀ dst, ∀ row ∈ rows dst, key row = dst) (dsts : List V) (dst : V) :
    (dsts.flatMap rows).filter (key · = dst) = (dsts.filter (· = dst)).flatMap rows := by
  rw [filter_flatMap]
  induction dsts with
  | nil => rfl
  | cons d dsts ih =>
    rw [flatMap_cons, ih]
    by_cases hd : d = dst
    · rw [filter_cons_of_pos (by simpa using hd), flatMap_cons,
        filter_eq_self.mpr fun row hr => by simpa [hd] using h d row hr]
    · rw [filter_cons_of_neg (by simpa using hd),
        filter_eq_nil_iff.mpr fun row hr => by simpa [h d row hr] using hd, nil_append]

end Rows

/-! ## The destinations that are written -/

section Destinations

variable [DecidableEq V] {source : V} {info : PathsOutputWriterInfo V} {schedule : Schedule V E}
  {nodes : List V} {α : Type} {data : DensityMap V α} {bfsGraph : DensityMap V (ParentList V E)}

theorem filter_mapOrder (schedule : Schedule V E) {list : List V} (h : list.Nodup) (dst : V) :
    (schedule.mapOrder list).filter (· = dst) = if dst ∈ list then [dst] else [] := by
  have hperm := schedule.mapOrder_perm list
  have hnodup := hperm.nodup_iff.mpr h
  rw [filter_eq]
  split
  · next hmem => rw [count_eq_one_of_mem hnodup (hperm.mem_iff.mpr hmem), replicate_one]
  · next hmem => rw [count_eq_zero_of_not_mem (mt hperm.mem_iff.mp hmem), replicate_zero]

/-- A destination is written once, in the sparse state if the hash map has it; there the source is written
once more if the lower bound is zero. -/
theorem filter_destinations (hnodes : nodes.Nodup) {dst : V} (hdst : dst ∈ nodes) :
    (info.destinations schedule nodes source data).filter (· = dst) = match data.state with
      | .sparse => (if (data.sparse dst).isSome then [dst] else []) ++
          if info.lowerBound = 0 ∧ source = dst then [dst] else []
      | .dense => [dst] := by
  unfold destinations
  cases hstate : data.state with
  | dense => simp [filter_mapOrder schedule hnodes, hdst]
  | sparse =>
    have hkey : dst ∈ nodes.filter (fun node => (data.sparse node).isSome) ↔ (data.sparse dst).isSome = true := by
      rw [mem_filter]
      exact and_iff_right hdst
    simp only [filter_append, filter_mapOrder schedule (hnodes.filter _), hkey]
    by_cases hsrc : source = dst
    · subst hsrc
      by_cases hlow : info.lowerBound = 0 <;> simp [hdst]
    · by_cases hlow : info.lowerBound = 0 ∧ source ∈ nodes
      · simp [hlow, hsrc]
      · simp [hlow, hsrc]

/-- The rows of a destination among all rows, if the source has none by the lower bound of zero and there
are none for nodes that the hash map does not have. -/
theorem filter_flatMap_destinations {R : Type} {key : R → V} {rows : V → List R}
    (hrows : ∀ dst, ∀ row ∈ rows dst, key row = dst) (hnodes : nodes.Nodup) {mask : V → Bool} {dst : V}
    (hdst : dst ∈ nodes) (hin : mask dst = true)
    (hnone : data.state = .sparse → data.sparse dst = none → rows dst = [])
    (hsource : info.lowerBound = 0 → rows source = []) :
    (((info.destinations schedule nodes source data).filter mask).flatMap rows).filter (key · = dst) = rows dst := by
  have hfilter : ((info.destinations schedule nodes source data).filter mask).filter (· = dst) =
      (info.destinations schedule nodes source data).filter (· = dst) := by
    rw [filter_filter]
    refine filter_congr fun d _ => ?_
    by_cases hd : d = dst
    · simp [hd, hin]
    · simp [hd]
  rw [filter_dst_flatMap hrows, hfilter, filter_destinations hnodes hdst]
  cases hstate : data.state with
  | dense => simp
  | sparse =>
    have honce : (if info.lowerBound = 0 ∧ source = dst then [dst] else []).flatMap rows = [] := by
      split
      · next hsrc => simp [← hsrc.2, hsource hsrc.1]
      · rfl
    simp only [flatMap_append, honce]
    cases hkey : data.sparse dst with
    | none => simp [hnone hstate hkey]
    | some value => simp

omit [DecidableEq V] in
/-- The hash map has the nodes that have parents. -/
theorem sparse_isSome (hkeys : ∀ node, bfsGraph.sparse node ≠ some [])
    (hsparse : bfsGraph.state = .sparse) (node : V) :
    (bfsGraph.sparse node).isSome = true ↔ bfsGraph.get [] node ≠ [] := by
  have hkey := hkeys node
  simp only [DensityMap.get, hsparse]
  cases hlist : bfsGraph.sparse node with
  | none => simp
  | some list =>
    rw [hlist] at hkey
    simpa using hkey

theorem mem_of_mem_destinations {dst : V} (h : dst ∈ info.destinations schedule nodes source data) : dst ∈ nodes := by
  unfold destinations at h
  split at h
  · obtain h | h := mem_append.mp h
    · exact (mem_filter.mp ((schedule.mapOrder_perm _).mem_iff.mp h)).1
    · split at h
      · next hsrc =>
        obtain rfl := mem_singleton.mp h
        exact hsrc.2
      · cases h
  · exact (schedule.mapOrder_perm _).mem_iff.mp h

/-- If the source has no parents when its empty walk is asked for, each destination is written once, or
not at all if it has no rows. -/
theorem flatMap_destinations (hkeys : ∀ node, bfsGraph.sparse node ≠ some []) (hnodes : nodes.Nodup)
    {dst : V} (hdst : dst ∈ nodes)
    (hempty : source = dst → info.lowerBound = 0 → bfsGraph.get [] dst = []) :
    ((info.destinations schedule nodes source bfsGraph).filter (· = dst)).flatMap
      (fastRows info (bfsGraph.get []) source) = fastRows info (bfsGraph.get []) source dst := by
  rw [filter_destinations hnodes hdst]
  cases hstate : bfsGraph.state with
  | dense => simp
  | sparse =>
    simp only [sparse_isSome hkeys hstate]
    by_cases hsrc : info.lowerBound = 0 ∧ source = dst
    · have hnil := hempty hsrc.2 hsrc.1
      simp [hsrc, hnil]
    · by_cases hnil : bfsGraph.get [] dst = []
      · have hnone : fastRows info (bfsGraph.get []) source dst = [] := by
          rw [fastRows, if_pos hnil, if_neg fun hs => hsrc hs.symm]
        simp [hsrc, hnone]
      · simp [hsrc, hnil]

end Destinations

/-! ## Exactness -/

variable [DecidableEq V] [DecidableEq E]

/-- With walks and no path node mask, every schedule gives one row for each walk from the source whose
length is within the bounds, for all destinations, if and only if the empty walk is not asked for or the
source is not on a cycle that is short enough. -/
theorem varLenJoin_rows_iff (info : PathsOutputWriterInfo V) (hfast : info.isFast = true)
    (g : OnDiskGraph V E) (direction : ExtendDirection) (schedule : Schedule V E) (upperBound : UInt16)
    (source : V) (nodes : List V) (hnodes : nodes.Nodup) (outputNodeMask : V → Bool) :
    ∃ rounds, ∀ fuel, rounds ≤ fuel → ∃ rows,
      info.varLenJoin g direction schedule upperBound source nodes outputNodeMask fuel = some rows ∧
      (∀ row ∈ rows, row.dst ∈ nodes ∧ outputNodeMask row.dst = true) ∧
      ((∀ dst ∈ nodes, outputNodeMask dst = true → RowsOfWalks info rows dst fun walk =>
          (g.hops direction).IsWalk source walk dst ∧ info.lowerBound.toNat ≤ walk.length ∧
            walk.length ≤ upperBound.toNat) ↔
        ¬ (info.lowerBound = 0 ∧ source ∈ nodes ∧ outputNodeMask source = true ∧
          ∃ k, 1 ≤ k ∧ k ≤ upperBound.toNat ∧ (g.hops direction).HasWalk source k source)) := by
  obtain ⟨hinv, hlayers⟩ := VarLenState.run_inv g direction schedule upperBound source
  obtain ⟨s, hs⟩ : ∃ s, s = VarLenState.run g direction schedule upperBound source := ⟨_, rfl⟩
  rw [← hs] at hinv hlayers
  have horigin : ∀ hop, (g.hops direction).origin hop = hop.node := fun _ => rfl
  have hupper : upperBound.toNat < 2 ^ 16 := upperBound.toNat_lt
  obtain ⟨rounds, hrun⟩ := writeAll_eq outputNodeMask
    (info.destinations schedule nodes source s.bfsGraph)
    fun dst _ _ => writeInternal_fast hlayers horigin hfast dst
  obtain ⟨rows, hrows⟩ : ∃ rows, rows = ((info.destinations schedule nodes source s.bfsGraph).filter
    outputNodeMask).flatMap (fastRows info s.parents source) := ⟨_, rfl⟩
  rw [← hrows] at hrun
  refine ⟨rounds, fun fuel hf => ⟨rows, by rw [varLenJoin, ← hs]; exact hrun fuel hf, ?_, ?_⟩⟩
  · intro row hrow
    rw [hrows] at hrow
    obtain ⟨dst, hdst, hrow⟩ := mem_flatMap.mp hrow
    obtain ⟨hdst, hmask⟩ := mem_filter.mp hdst
    rw [dst_of_mem_fastRows hrow]
    exact ⟨mem_of_mem_destinations hdst, hmask⟩
  · -- The rows of a destination that passes the mask.
    have hfilter : ∀ dst ∈ nodes, outputNodeMask dst = true → rows.filter (·.dst = dst) =
        ((info.destinations schedule nodes source s.bfsGraph).filter (· = dst)).flatMap
          (fastRows info s.parents source) := by
      intro dst _ hmask
      rw [hrows, filter_dst_flatMap (fun _ _ => dst_of_mem_fastRows), filter_filter]
      congr 1
      refine filter_congr fun d _ => ?_
      by_cases hd : d = dst
      · simp [hd, hmask]
      · simp [hd]
    constructor
    · rintro hexact ⟨hlow, hsrc, hmask, hcycle⟩
      -- The row of the empty walk is missing.
      obtain ⟨walks, -, hwalks, hperm⟩ := hexact source hsrc hmask
      have hempty : [] ∈ walks := (hwalks []).mpr ⟨rfl, by simp [hlow], Nat.zero_le _⟩
      have hrow := hperm.mem_iff.mpr (mem_map_of_mem (f := info.walkRow source) hempty)
      rw [hfilter source hsrc hmask] at hrow
      obtain ⟨dst, hdst, hrow⟩ := mem_flatMap.mp hrow
      obtain rfl : dst = source := by simpa using (mem_filter.mp hdst).2
      exact length_ne_zero_of_mem_fastRows hlayers horigin hupper (hlayers.ne_nil_iff.mpr hcycle) hrow
        rfl
    · intro hcond dst hdst hmask
      have hnil : source = dst → info.lowerBound = 0 → s.parents dst = [] := by
        rintro rfl hlow
        by_contra hne
        exact hcond ⟨hlow, hdst, hmask, hlayers.ne_nil_iff.mp hne⟩
      have hrow : ((info.destinations schedule nodes source s.bfsGraph).filter (· = dst)).flatMap
          (fastRows info s.parents source) = fastRows info s.parents source dst :=
        flatMap_destinations hinv.keys hnodes hdst hnil
      rw [RowsOfWalks, hfilter dst hdst hmask, hrow]
      by_cases hsrc : source = dst ∧ info.lowerBound = 0
      · -- Only the empty walk comes back to the source.
        obtain ⟨rfl, hlow⟩ := hsrc
        have hnone := hnil rfl hlow
        refine ⟨[[]], nodup_singleton _, fun walk => ?_, ?_⟩
        · rw [mem_singleton, hlow]
          constructor
          · rintro rfl
            exact ⟨rfl, Nat.le_refl 0, Nat.zero_le _⟩
          · rintro ⟨hw, -, hle⟩
            by_contra hne
            have hpos := length_pos_iff.mpr hne
            exact (hlayers.ne_nil_iff.mpr ⟨walk.length, hpos, hle, walk, hw, rfl⟩) hnone
        · rw [fastRows, if_pos hnone, if_pos ⟨rfl, hlow⟩, pathRow_eq_walkRow info source (by simp)]
          rfl
      · refine ⟨(parentPaths s.parents (info.lowerBound.toNat ≤ ·.iter) dst).map (map (·.toHop)),
          hlayers.nodup_map_parentPaths horigin _ _, fun walk => ?_, ?_⟩
        · rw [hlayers.mem_map_parentPaths horigin]
          refine and_congr_right fun hw => and_iff_right_of_imp fun hlen => ?_
          cases walk with
          | nil =>
            have hlow : info.lowerBound.toNat = 0 := Nat.le_zero.mp hlen.1
            exact absurd ⟨hw.symm, UInt16.toNat_inj.mp hlow⟩ hsrc
          | cons hop walk => exact Nat.succ_pos _
        · rw [fastRows_eq hlayers horigin hupper hsrc]

/-- One node with a relationship to itself. -/
def selfLoop : OnDiskGraph Nat Nat := ⟨[⟨0, 0, 7⟩], by decide⟩

/-- `*0..1` from the node: the empty walk is missing, and the walk along the relationship is written
twice. -/
theorem varLenJoin_selfLoop :
    ({ lowerBound := 0, writePath := true } : PathsOutputWriterInfo Nat).varLenJoin selfLoop .fwd
        (.inOrder Nat Nat) 1 0 [0] (fun _ => true) 10 =
      some [⟨0, 1, [], [], [7]⟩, ⟨0, 1, [], [], [7]⟩] := by
  decide

theorem varLenJoin_twoWays : ∃ rounds, ∀ fuel, rounds ≤ fuel → ∃ rows,
      ({ lowerBound := 1, writePath := true } : PathsOutputWriterInfo Nat).varLenJoin twoWays .fwd
        (.inOrder Nat Nat) 2 0 [0, 3] (fun _ => true) fuel = some rows ∧
      ∀ dst ∈ [0, 3], RowsOfWalks { lowerBound := 1, writePath := true } rows dst fun walk =>
        (twoWays.hops .fwd).IsWalk 0 walk dst ∧ 1 ≤ walk.length ∧ walk.length ≤ 2 := by
  obtain ⟨rounds, h⟩ := varLenJoin_rows_iff { lowerBound := 1, writePath := true } rfl twoWays .fwd
    (.inOrder Nat Nat) 2 0 [0, 3] (by decide) fun _ => true
  refine ⟨rounds, fun fuel hf => ?_⟩
  obtain ⟨rows, hrows, -, hiff⟩ := h fuel hf
  exact ⟨rows, hrows, fun dst hdst => hiff.mpr (fun hbad => absurd hbad.1 (by decide)) dst hdst rfl⟩

end CycleJoin
