import CycleJoin.Planner.QueryGraph

/-!
# Basic paths

`findBasicCycleIntersection` prunes the graph to its 2-core and collects the basic paths: the
chains of nodes with two neighbours between other nodes.

* `core_spec`: the pruned graph is an induced part of the graph in which every node has two
  neighbours or more.
* `mem_core_iff`: it is the largest one.
* `extendPath_spec`: a path that is kept is a chain path that ends elsewhere, at a node that has
  not been a start. `extendPath` ends because a walk repeats no step.
* `basic_kept`, `basic_pairwise`: the basic paths are chain paths of the core, and no two
  of them share an edge.
-/

namespace CycleJoin

open List

namespace Simple

open ChainPath

variable {ν : Type} [LinearOrder ν] {g q : Graph ν}

/-! ## The 2-core -/

theorem mem_foldl_filter_ne {e : ν × ν} (nbrs : List ν) (node : ν) (edges : List (ν × ν)) :
    e ∈ nbrs.foldl (fun edges nbr => edges.filter (· ≠ (nbr, node))) edges ↔
      e ∈ edges ∧ ∀ nbr ∈ nbrs, e ≠ (nbr, node) := by
  induction nbrs generalizing edges with
  | nil => simp
  | cons nbr nbrs ih =>
    rw [foldl_cons, ih, mem_filter, forall_mem_cons, decide_eq_true_eq, and_assoc]

theorem nodup_foldl_filter_ne (nbrs : List ν) (node : ν) {edges : List (ν × ν)} (h : edges.Nodup) :
    (nbrs.foldl (fun edges nbr => edges.filter (· ≠ (nbr, node))) edges).Nodup := by
  induction nbrs generalizing edges with
  | nil => exact h
  | cons nbr nbrs ih => exact ih (h.filter _)

theorem removeNode_spec (h : g.Induced q) (node : ν) : (g.removeNode node).Induced q ∧
      ∀ x, x ∈ (g.removeNode node).nodes ↔ x ∈ g.nodes ∧ x ≠ node := by
  have hnodes (x : ν) : x ∈ (g.removeNode node).nodes ↔ x ∈ g.nodes ∧ x ≠ node := by
    simp [Graph.removeNode]
  have hedges (a b : ν) : (a, b) ∈ (g.removeNode node).edges ↔ (a, b) ∈ g.edges ∧ a ≠ node ∧ b ≠ node := by
    simp only [Graph.removeNode, mem_filter, mem_foldl_filter_ne, decide_eq_true_eq, and_assoc]
    refine and_congr_right fun hab => ⟨?_, ?_⟩
    · rintro ⟨hnbr, ha⟩
      refine ⟨ha, ?_⟩
      rintro rfl
      exact hnbr a (Graph.mem_getNeighbors.mpr (h.wf.symm hab)) rfl
    · rintro ⟨ha, hb⟩
      exact ⟨fun nbr _ heq => hb (Prod.ext_iff.mp heq).2, ha⟩
  refine ⟨⟨⟨h.wf.nodup_nodes.filter _, (nodup_foldl_filter_ne _ _ h.wf.nodup_edges).filter _, ?_, ?_⟩,
    fun hu => h.nodes ((hnodes _).mp hu).1, fun {a b} => ?_⟩, hnodes⟩
  · intro a b hab
    rw [hedges] at hab ⊢
    exact ⟨h.wf.symm hab.1, hab.2.2, hab.2.1⟩
  · intro a b hab
    rw [hedges] at hab
    exact (hnodes a).mpr ⟨h.wf.mem_nodes hab.1, hab.2.1⟩
  · rw [hedges, h.edges]
    grind

theorem foldl_removeNode_spec (rm : List ν) (h : g.Induced q) : (rm.foldl Graph.removeNode g).Induced q ∧
      ∀ x, x ∈ (rm.foldl Graph.removeNode g).nodes ↔ x ∈ g.nodes ∧ x ∉ rm := by
  induction rm generalizing g with
  | nil => exact ⟨h, by simp⟩
  | cons u rm ih =>
    obtain ⟨hind, hnodes⟩ := removeNode_spec h u
    obtain ⟨hind', hnodes'⟩ := ih hind
    refine ⟨hind', fun x => ?_⟩
    rw [foldl_cons, hnodes', hnodes, mem_cons, not_or, and_assoc]

omit [LinearOrder ν] in
theorem length_lt_of_removed {rm : List ν} {g' : Graph ν} (h' : g'.WF)
    (hmem : ∀ x, x ∈ g'.nodes ↔ x ∈ g.nodes ∧ x ∉ rm) {u : ν} (hu : u ∈ rm) (hug : u ∈ g.nodes) :
    g'.nodes.length < g.nodes.length := by
  have hsub : (u :: g'.nodes).Subperm g.nodes := by
    refine List.Nodup.subperm (nodup_cons.mpr ⟨fun h => ((hmem u).mp h).2 hu, h'.nodup_nodes⟩) ?_
    intro x hx
    rcases mem_cons.mp hx with rfl | hx
    exacts [hug, ((hmem x).mp hx).1]
  exact hsub.length_le

theorem pruneLoop_spec (fuel : Nat) (h : g.Induced q) (hfuel : g.nodes.length < fuel) : (pruneLoop fuel g).Induced q ∧
      ∀ u ∈ (pruneLoop fuel g).nodes, 2 ≤ ((pruneLoop fuel g).getNeighbors u).length := by
  induction fuel generalizing g with
  | zero => omega
  | succ fuel ih =>
    rw [pruneLoop]
    split
    · rename_i hnil
      refine ⟨h, fun u hu => ?_⟩
      by_contra hlt
      have : u ∈ g.nodes.filter fun u => (g.getNeighbors u).length < 2 := mem_filter.mpr ⟨hu, by simpa using hlt⟩
      rw [length_eq_zero_iff.mp hnil] at this
      cases this
    · rename_i hne
      obtain ⟨hind, hnodes⟩ := foldl_removeNode_spec (g.nodes.filter fun u => (g.getNeighbors u).length < 2) h
      obtain ⟨u, hu⟩ := exists_mem_of_length_pos (Nat.pos_of_ne_zero hne)
      have hlt := length_lt_of_removed hind.wf hnodes hu (mem_of_mem_filter hu)
      exact ih hind (by omega)

theorem core_spec (hq : q.WF) : (core q).Induced q ∧ ∀ u ∈ (core q).nodes, 2 ≤ ((core q).getNeighbors u).length :=
  pruneLoop_spec _ (Graph.induced_refl hq) (Nat.lt_succ_self _)

/-- A set in which every node has two neighbours loses no node. -/
theorem subset_pruneLoop {s : Set ν} (fuel : Nat) (h : g.Induced q) (hsub : ∀ u ∈ s, u ∈ g.nodes)
    (hs : ∀ u ∈ s, ∃ v ∈ s, ∃ w ∈ s, v ≠ w ∧ (u, v) ∈ q.edges ∧ (u, w) ∈ q.edges) :
    ∀ u ∈ s, u ∈ (pruneLoop fuel g).nodes := by
  induction fuel generalizing g with
  | zero => exact hsub
  | succ fuel ih =>
    rw [pruneLoop]
    split
    · exact hsub
    · obtain ⟨hind, hnodes⟩ := foldl_removeNode_spec
        (g.nodes.filter fun u => (g.getNeighbors u).length < 2) h
      refine ih hind fun u hu => (hnodes u).mpr ⟨hsub u hu, fun hremove => ?_⟩
      obtain ⟨v, hv, w, hw, hne, huv, huw⟩ := hs u hu
      have hpair : [v, w] ⊆ g.getNeighbors u := by simp [Graph.mem_getNeighbors, h.edges, *]
      have hle := (Nodup.subperm (by simp [hne]) hpair).length_le
      have hlt : (g.getNeighbors u).length < 2 := by simpa using (mem_filter.mp hremove).2
      exact absurd hle (not_le.mpr hlt)

/-- A node is left exactly if it lies in a set of nodes with two neighbours each in the set. -/
theorem mem_core_iff (qg : BoundQueryGraph ν) (x : ν) :
    let q := fromQueryGraph qg.toQueryGraph
    x ∈ (core q).nodes ↔ ∃ s : Set ν, x ∈ s ∧ ∀ u ∈ s, u ∈ q.nodes ∧
      ∃ v ∈ s, ∃ w ∈ s, v ≠ w ∧ (u, v) ∈ q.edges ∧ (u, w) ∈ q.edges := by
  intro q
  have hq : q.WF := (fromQueryGraph_spec qg).1
  constructor
  · intro hx
    obtain ⟨hind, hdeg⟩ := core_spec hq
    refine ⟨{u | u ∈ (core q).nodes}, hx, fun u hu => ⟨hind.nodes hu, ?_⟩⟩
    have hnodup := hind.wf.isGraph.nodup u
    have hmem {v : ν} (hv : v ∈ (core q).getNeighbors u) := hind.edges.mp (Graph.mem_getNeighbors.mp hv)
    rcases hl : (core q).getNeighbors u with _ | ⟨v, _ | ⟨w, l⟩⟩
    · simpa [hl] using hdeg u hu
    · simpa [hl] using hdeg u hu
    · rw [hl] at hnodup hmem
      have hv := hmem mem_cons_self
      have hw := hmem (mem_cons_of_mem _ mem_cons_self)
      exact ⟨v, hv.2.2, w, hw.2.2, by grind, hv.1, hw.1⟩
  · rintro ⟨s, hx, hs⟩
    exact subset_pruneLoop _ (Graph.induced_refl hq) (fun u hu => (hs u hu).1) (fun u hu => (hs u hu).2) x hx

/-! ## Extending a path -/

/-- A kept path: a chain path that ends neither at its start nor at an earlier start. -/
structure Kept (g : Graph ν) (visited path : List ν) : Prop where
  chain : IsChainPath g.getNeighbors path
  ends : path.head? ≠ path.getLast?
  fresh : ∀ x, path.getLast? = some x → x ∉ visited

/-- A walk is no longer than the edges allow. -/
theorem length_walk_le (h : g.WF) {path : List ν} (hw : IsWalk g.getNeighbors path) :
    path.length ≤ g.edges.length + 1 := by
  have hsub : (steps path).Subperm g.edges :=
    (hw.steps_nodup h.isGraph).subperm fun ⟨a, b⟩ he =>
      Graph.mem_getNeighbors.mp (hw.adj h.isGraph he)
  have hlen := hsub.length_le
  rw [length_steps] at hlen
  omega

/-- The way on from a node with two neighbours. -/
theorem exists_next (h : g.WF) {b c : ν} (h2 : (g.getNeighbors c).length = 2) :
    ∃ next, ((g.getNeighbors c).filter (· ≠ b)).getLast? = some next ∧
      next ∈ g.getNeighbors c ∧ next ≠ b := by
  have hne : (g.getNeighbors c).filter (· ≠ b) ≠ [] := by
    intro hnil
    obtain ⟨x, y, hxy⟩ := length_eq_two.mp h2
    have hnd := h.isGraph.nodup c
    rw [hxy] at hnil hnd
    simp only [nodup_cons, mem_singleton] at hnd
    simp only [decide_not, filter_eq_nil_iff, mem_cons, not_mem_nil, or_false,
      Bool.not_eq_eq_eq_not, Bool.not_true, decide_eq_false_iff_not, Decidable.not_not,
      forall_eq_or_imp, forall_eq] at hnil
    exact hnd.1 (hnil.1.trans hnil.2.symm)
  obtain ⟨next, hnext⟩ := Option.ne_none_iff_exists'.mp (mt getLast?_eq_none_iff.mp hne)
  have hmem := mem_filter.mp (mem_of_getLast? hnext)
  exact ⟨next, hnext, hmem.1, by simpa using hmem.2⟩

/-- `extendPath` drops the path or extends it to a kept path. -/
theorem extendPath_spec (h : g.WF) (visited : List ν) (fuel : Nat) {pre : List ν} {b c : ν}
    (hw : IsWalk g.getNeighbors (pre ++ [b, c]))
    (hfuel : g.edges.length + 1 < (pre ++ [b, c]).length + fuel) :
    extendPath g visited fuel (pre ++ [b, c]) = [] ∨
      ∃ ext, extendPath g visited fuel (pre ++ [b, c]) = pre ++ [b, c] ++ ext ∧
        Kept g visited (pre ++ [b, c] ++ ext) := by
  induction fuel generalizing pre b c with
  | zero =>
    have := length_walk_le h hw
    omega
  | succ fuel ih =>
    have hrev : (pre ++ [b, c]).reverse = c :: b :: pre.reverse := by simp
    have hlast : (pre ++ [b, c]).getLast? = some c := by simp
    rw [extendPath]
    simp only [hrev]
    split
    · rename_i hc
      split
      · exact .inl rfl
      · rename_i hkeep
        rw [not_or] at hkeep
        refine .inr ⟨[], by simp, ?_⟩
        rw [append_nil]
        refine ⟨hw.isChainPath h.isGraph hc, hlast ▸ hkeep.2, fun x hx => ?_⟩
        obtain rfl := Option.some_inj.mp (hlast.symm.trans hx)
        exact hkeep.1
    · rename_i hc
      rw [not_not] at hc
      obtain ⟨next, hnext, hmem, hne⟩ := exists_next (b := b) h hc
      have hext : pre ++ [b, c] ++ [next] = (pre ++ [b]) ++ [c, next] := by simp
      have hw' : IsWalk g.getNeighbors ((pre ++ [b]) ++ [c, next]) := by
        simpa using hw.extend h.isGraph hc hmem hne
      simp only [hnext, hext]
      rcases ih hw' (by simp at hfuel ⊢; omega) with hnil | ⟨ext, heq, hkept⟩
      · exact .inl hnil
      · exact .inr ⟨next :: ext, by rw [heq]; simp, by simpa using hkept⟩

/-! ## All basic paths -/

/-- The walk from a start to one of its neighbours is dropped or extended to a kept path. -/
theorem extendPath_start (h : g.WF) (visited : List ν) {start nbr : ν}
    (hs : 2 < (g.getNeighbors start).length) (hnbr : nbr ∈ g.getNeighbors start) :
    extendPath g visited (g.edges.length + 1) [start, nbr] = [] ∨
      ∃ ext, extendPath g visited (g.edges.length + 1) [start, nbr] = start :: nbr :: ext ∧
        Kept g visited (start :: nbr :: ext) := by
  have hw : IsWalk g.getNeighbors ([] ++ [start, nbr]) := isWalk_start (by omega) hnbr
  exact extendPath_spec h visited (g.edges.length + 1) hw (by simp)

theorem mem_pathsFrom (h : g.WF) {visited : List ν} {start : ν}
    (hs : 2 < (g.getNeighbors start).length) {path : List ν} (hp : path ∈ pathsFrom g visited start) :
    Kept g visited path ∧ ∃ nbr ext, path = start :: nbr :: ext := by
  obtain ⟨hp, hpos⟩ := mem_filter.mp hp
  obtain ⟨nbr, hnbr, rfl⟩ := mem_map.mp hp
  rcases extendPath_start h visited hs hnbr with hnil | ⟨ext, heq, hkept⟩
  · rw [hnil] at hpos
    simp at hpos
  · rw [heq]
    exact ⟨hkept, nbr, ext, rfl⟩

/-- The paths share no edge, in either direction. -/
def EdgeDisjoint (p p' : List ν) : Prop :=
  ∀ a b, (a, b) ∈ steps p → (a, b) ∉ steps p' ∧ (b, a) ∉ steps p'

omit [LinearOrder ν] in
theorem EdgeDisjoint.symm {p p' : List ν} (h : EdgeDisjoint p p') : EdgeDisjoint p' p :=
  fun a b hab => ⟨fun hab' => (h a b hab').1 hab, fun hba => (h b a hba).2 hab⟩

instance : Std.Symm (@EdgeDisjoint ν) := ⟨fun _ _ h => h.symm⟩

/-- Chain paths that are neither equal nor each other's reverse share no edge. -/
theorem edgeDisjoint_of_ne (h : g.WF) {p p' : List ν} (hp : IsChainPath g.getNeighbors p)
    (hp' : IsChainPath g.getNeighbors p') (hne : p ≠ p') (hrev : p' ≠ p.reverse) : EdgeDisjoint p p' :=
  fun _ _ hab => ⟨fun hab' => hne (hp.eq_of_step h.isGraph hp' hab hab'),
    fun hba => hrev (hp.eq_reverse_of_step h.isGraph hp' hab hba)⟩

theorem pathsFrom_pairwise (h : g.WF) {visited : List ν} {start : ν}
    (hs : 2 < (g.getNeighbors start).length) : (pathsFrom g visited start).Pairwise EdgeDisjoint := by
  have hsecond (nbr : ν) (hnbr : nbr ∈ g.getNeighbors start)
      (hpos : 0 < (extendPath g visited (g.edges.length + 1) [start, nbr]).length) :
      (extendPath g visited (g.edges.length + 1) [start, nbr])[1]? = some nbr := by
    rcases extendPath_start h visited hs hnbr with hnil | ⟨ext, heq, -⟩
    · rw [hnil] at hpos
      simp at hpos
    · rw [heq]
      rfl
  have hmap : (pathsFrom g visited start).Pairwise fun p p' => p[1]? ≠ p'[1]? := by
    rw [pathsFrom, pairwise_filter, pairwise_map]
    refine (h.isGraph.nodup start).imp_of_mem fun {nbr nbr'} hn hn' hne hpos hpos' => ?_
    rw [hsecond nbr hn (by simpa using hpos), hsecond nbr' hn' (by simpa using hpos')]
    exact fun heq => hne (Option.some.inj heq)
  refine hmap.imp_of_mem fun {p p'} hp hp' hne => ?_
  obtain ⟨hk, nbr, ext, rfl⟩ := mem_pathsFrom h hs hp
  obtain ⟨hk', nbr', ext', rfl⟩ := mem_pathsFrom h hs hp'
  refine edgeDisjoint_of_ne h hk.chain hk'.chain (fun heq => hne (by rw [heq])) fun heq => ?_
  -- the reverse would end at the common start
  refine hk'.ends ?_
  rw [heq, getLast?_reverse, ← heq]
  rfl

/-- Every basic path is a kept path that leaves one of the starts. -/
theorem mem_basicPaths (h : g.WF) {starts visited : List ν} {path : List ν}
    (hp : path ∈ basicPaths g starts visited) :
    Kept g visited path ∧ ∃ start ∈ starts, path.head? = some start := by
  induction starts generalizing visited with
  | nil => cases hp
  | cons start starts ih =>
    rw [basicPaths] at hp
    split at hp
    · obtain ⟨hk, s, hs, hhd⟩ := ih hp
      exact ⟨hk, s, mem_cons_of_mem _ hs, hhd⟩
    · rename_i hdeg
      rcases mem_append.mp hp with hp | hp
      · obtain ⟨hk, nbr, ext, rfl⟩ := mem_pathsFrom h (not_le.mp hdeg) hp
        exact ⟨hk, start, mem_cons_self, rfl⟩
      · obtain ⟨hk, s, hs, hhd⟩ := ih hp
        refine ⟨⟨hk.chain, hk.ends, fun x hx hv => hk.fresh x hx ?_⟩, s, mem_cons_of_mem _ hs, hhd⟩
        exact mem_insertNode.mpr (.inr hv)

theorem basicPaths_pairwise (h : g.WF) {starts : List ν} (hnd : starts.Nodup) (visited : List ν) :
    (basicPaths g starts visited).Pairwise EdgeDisjoint := by
  induction starts generalizing visited with
  | nil => exact List.Pairwise.nil
  | cons start starts ih =>
    obtain ⟨hstart, hnd⟩ := nodup_cons.mp hnd
    rw [basicPaths]
    split
    · exact ih hnd _
    · rename_i hdeg
      refine pairwise_append.mpr ⟨pathsFrom_pairwise h (not_le.mp hdeg), ih hnd _, ?_⟩
      intro p hp p' hp'
      obtain ⟨hk, nbr, ext, rfl⟩ := mem_pathsFrom h (not_le.mp hdeg) hp
      obtain ⟨hk', s, hs, hhd⟩ := mem_basicPaths h hp'
      refine edgeDisjoint_of_ne h hk.chain hk'.chain (fun heq => ?_) fun heq => ?_
      · rw [← heq] at hhd
        cases hhd
        exact hstart hs
      · -- the reverse would end at a start that is done
        refine hk'.fresh start ?_ (mem_insertNode.mpr (.inl rfl))
        rw [heq, getLast?_reverse]
        rfl

section Basic

variable {path : List ν}

theorem basic_kept (hq : q.WF) (hp : path ∈ findBasicCycleIntersection q) : Kept (core q) [] path :=
  (mem_basicPaths (core_spec hq).1.wf hp).1

theorem basic_pairwise (hq : q.WF) : (findBasicCycleIntersection q).Pairwise EdgeDisjoint :=
  basicPaths_pairwise (core_spec hq).1.wf (core_spec hq).1.wf.nodup_nodes _

/-- A basic path is a path of the query graph. -/
theorem basic_steps (hq : q.WF) (hp : path ∈ findBasicCycleIntersection q) {a b : ν}
    (hab : (a, b) ∈ steps path) : (a, b) ∈ (core q).edges :=
  Graph.mem_getNeighbors.mp ((basic_kept hq hp).chain.adj (core_spec hq).1.wf.isGraph hab)

end Basic

end Simple
end CycleJoin
