import CycleJoin.Planner.QueryGraph

/-!
# Connected subgraphs

`getConnectedSubgraphs` cuts a graph into closed parts: a part holds every edge of the graph at
each of its nodes, no two parts share a node, and every node lies in one of them.

* `expandLoop_spec`: the loop ends with the least set of nodes that contains the start and is
  closed under the edges.
* `connectedSubgraphs_spec`: the parts are closed, disjoint and cover the graph.
-/

namespace CycleJoin

open List Relation

namespace Simple

variable {ν : Type} [LinearOrder ν] {g c : Graph ν}

/-! ## One component -/

theorem foldl_expandEdge_spec (dsts : List ν) (s : Expansion ν) (hnd : s.nodes.Nodup) :
    (dsts.foldl expandEdge s).nodes.Nodup ∧
    (∀ x, x ∈ (dsts.foldl expandEdge s).nodes ↔ x ∈ s.nodes ∨ x ∈ dsts) ∧
    (∀ x, x ∈ (dsts.foldl expandEdge s).visited ↔ x ∈ s.visited ∨ x ∈ dsts ∧ x ∉ s.nodes) ∧
    ((dsts.foldl expandEdge s).updated = true ↔ s.updated = true ∨ ∃ x ∈ dsts, x ∉ s.nodes) := by
  induction dsts generalizing s with
  | nil => simp [hnd]
  | cons dst dsts ih =>
    rw [foldl_cons]
    by_cases hdst : dst ∈ s.nodes
    · rw [expandEdge, if_pos hdst]
      obtain ⟨hnd', hnodes, hvisited, hupdated⟩ := ih s hnd
      refine ⟨hnd', fun x => ?_, fun x => ?_, ?_⟩
      · grind
      · grind
      · rw [hupdated]
        simp [hdst]
    · rw [expandEdge, if_neg hdst]
      obtain ⟨hnd', hnodes, hvisited, hupdated⟩ :=
        ih ⟨insertNode dst s.nodes, insertNode dst s.visited, true⟩ (nodup_insertNode hnd)
      refine ⟨hnd', fun x => ?_, fun x => ?_, ?_⟩
      · rw [hnodes, mem_insertNode]
        grind
      · rw [hvisited, mem_insertNode, mem_insertNode]
        grind
      · rw [hupdated]
        simp [hdst]

/-- A round adds the neighbours of the nodes it starts with. -/
theorem expandRound_spec {nodes : List ν} (visited : List ν) (hnd : nodes.Nodup) :
    (expandRound g nodes visited).nodes.Nodup ∧
    (∀ x, x ∈ (expandRound g nodes visited).nodes ↔ x ∈ nodes ∨ ∃ u ∈ nodes, (u, x) ∈ g.edges) ∧
    (∀ x, x ∈ (expandRound g nodes visited).visited ↔ x ∈ visited ∨ (∃ u ∈ nodes, (u, x) ∈ g.edges) ∧ x ∉ nodes) ∧
    ((expandRound g nodes visited).updated = true ↔ ∃ u ∈ nodes, ∃ x, (u, x) ∈ g.edges ∧ x ∉ nodes) := by
  have hround : expandRound g nodes visited =
      (nodes.flatMap g.getNeighbors).foldl expandEdge ⟨nodes, visited, false⟩ := by
    rw [expandRound, foldl_flatMap]
  obtain ⟨hnd', hnodes, hvisited, hupdated⟩ :=
    foldl_expandEdge_spec (nodes.flatMap g.getNeighbors) ⟨nodes, visited, false⟩ hnd
  rw [hround]
  refine ⟨hnd', fun x => ?_, fun x => ?_, ?_⟩
  · rw [hnodes]
    simp
  · rw [hvisited]
    simp
  · rw [hupdated]
    simp only [mem_flatMap, Graph.mem_getNeighbors]
    grind

/-- The set is closed under the edges of the graph. -/
def Closed (g : Graph ν) (s : ν → Prop) : Prop := ∀ a b, (a, b) ∈ g.edges → s a → s b

theorem expandLoop_spec (h : g.WF) (fuel : Nat) {nodes : List ν} (visited : List ν)
    (hnd : nodes.Nodup) (hmem : ∀ x ∈ nodes, x ∈ g.nodes)
    (hfuel : g.nodes.length < nodes.length + fuel) :
    (expandLoop g fuel nodes visited).1.Nodup ∧
    (∀ x ∈ nodes, x ∈ (expandLoop g fuel nodes visited).1) ∧
    Closed g (· ∈ (expandLoop g fuel nodes visited).1) ∧
    (∀ s : ν → Prop, Closed g s → (∀ x ∈ nodes, s x) → ∀ x ∈ (expandLoop g fuel nodes visited).1, s x) ∧
    ∀ x, x ∈ (expandLoop g fuel nodes visited).2 ↔
      x ∈ visited ∨ x ∈ (expandLoop g fuel nodes visited).1 ∧ x ∉ nodes := by
  induction fuel generalizing nodes visited with
  | zero => exact absurd (hnd.subperm hmem).length_le (by omega)
  | succ fuel ih =>
    obtain ⟨hnd', hnodes, hvisited, hupdated⟩ := expandRound_spec (g := g) visited hnd
    simp only [expandLoop]
    split
    · rename_i hup
      obtain ⟨u, hu, x, hux, hx⟩ := hupdated.mp hup
      have hmem' : ∀ x ∈ (expandRound g nodes visited).nodes, x ∈ g.nodes := by
        intro x hx
        rcases (hnodes x).mp hx with hx | ⟨u, -, hux⟩
        exacts [hmem x hx, h.mem_nodes_right hux]
      -- the round added a node
      have hlt : nodes.length < (expandRound g nodes visited).nodes.length := by
        have hsub : x :: nodes ⊆ (expandRound g nodes visited).nodes := by
          intro y hy
          rcases mem_cons.mp hy with rfl | hy
          · exact (hnodes _).mpr (.inr ⟨u, hu, hux⟩)
          · exact (hnodes _).mpr (.inl hy)
        exact ((nodup_cons.mpr ⟨hx, hnd⟩).subperm hsub).length_le
      obtain ⟨hnd'', hsub, hclosed, hleast, hvis⟩ := ih (expandRound g nodes visited).visited hnd' hmem' (by omega)
      refine ⟨hnd'', fun y hy => hsub y ((hnodes y).mpr (.inl hy)), hclosed, ?_, fun y => ?_⟩
      · intro s hs hstart
        refine hleast s hs fun y hy => ?_
        rcases (hnodes y).mp hy with hy | ⟨u, hu, huy⟩
        exacts [hstart y hy, hs u y huy (hstart u hu)]
      · grind
    · rename_i hup
      have hclosed : Closed g (· ∈ nodes) := fun a b hab ha => by
        by_contra hb
        exact hup (hupdated.mpr ⟨a, ha, b, hab, hb⟩)
      have hsame (x : ν) : x ∈ (expandRound g nodes visited).nodes ↔ x ∈ nodes := by
        rw [hnodes]
        exact ⟨fun hx => hx.elim id fun ⟨u, hu, hux⟩ => hclosed u x hux hu, .inl⟩
      refine ⟨hnd', fun x hx => (hsame x).mpr hx, ?_, ?_, fun x => ?_⟩
      · intro a b hab ha
        exact (hsame b).mpr (hclosed a b hab ((hsame a).mp ha))
      · exact fun s _ hstart x hx => hstart x ((hsame x).mp hx)
      · grind [Closed]

/-! ## All components -/

/-- A connected part of the graph with all edges at its nodes. -/
structure IsPart (c g : Graph ν) : Prop where
  wf : c.WF
  nodes : ∀ {x}, x ∈ c.nodes → x ∈ g.nodes
  edges : ∀ {a b}, (a, b) ∈ c.edges ↔ (a, b) ∈ g.edges ∧ a ∈ c.nodes
  connected : ∀ {a b}, a ∈ c.nodes → b ∈ c.nodes → ReflTransGen (fun a b => (a, b) ∈ g.edges) a b

omit [LinearOrder ν] in
theorem IsPart.closed (h : IsPart c g) {a b : ν} (ha : a ∈ c.nodes)
    (hab : ReflTransGen (fun a b => (a, b) ∈ g.edges) a b) : b ∈ c.nodes := by
  induction hab with
  | refl => exact ha
  | tail _ hbc ih => exact h.wf.mem_nodes_right (h.edges.mpr ⟨hbc, ih⟩)

theorem componentOf_spec (h : g.WF) {nodes : List ν} (hnd : nodes.Nodup)
    (hmem : ∀ x ∈ nodes, x ∈ g.nodes) (hclosed : Closed g (· ∈ nodes)) {start : ν}
    (hstart : ∀ x ∈ nodes, ReflTransGen (fun a b => (a, b) ∈ g.edges) start x) :
    IsPart (componentOf g nodes) g ∧ (componentOf g nodes).nodes = nodes := by
  have hnone : (⟨nodes, []⟩ : Graph ν).Sub g := ⟨⟨hnd, nodup_nil, by simp, by simp⟩, fun hu => hmem _ hu, by simp⟩
  obtain ⟨hsub, hnodes, hedges⟩ := Graph.addEdgesWithin_spec h nodes hnone fun _ => id
  refine ⟨⟨hsub.wf, hsub.nodes, fun {a b} => ?_, fun {a b} ha hb => ?_⟩, hnodes⟩
  · rw [componentOf, hedges, hnodes]
    constructor
    · rintro (hab | ⟨hab, -, ha, -⟩)
      · cases hab
      · exact ⟨hab, ha⟩
    · exact fun ⟨hab, ha⟩ => .inr ⟨hab, .inl ha, ha, hclosed a b hab ha⟩
  · rw [componentOf, hnodes] at ha hb
    have hback : ReflTransGen (fun a b => (a, b) ∈ g.edges) a start :=
      ReflTransGen.mono (fun _ _ hab => h.symm hab) _ _ (hstart a ha).swap
    exact hback.trans (hstart b hb)

theorem component_spec (h : g.WF) {start : ν} (hstart : start ∈ g.nodes) (visited : List ν) :
    IsPart (componentOf g (expandLoop g (g.nodes.length + 1) [start] visited).1) g ∧
    (componentOf g (expandLoop g (g.nodes.length + 1) [start] visited).1).nodes =
      (expandLoop g (g.nodes.length + 1) [start] visited).1 ∧
    start ∈ (expandLoop g (g.nodes.length + 1) [start] visited).1 := by
  obtain ⟨hnd, hsub, hclosed, hleast, -⟩ :=
    expandLoop_spec h (g.nodes.length + 1) visited (nodup_singleton start) (by simpa using hstart) (by omega)
  have hnodes := hleast (· ∈ g.nodes) (fun _ _ hab _ => h.mem_nodes_right hab) (by simpa using hstart)
  have hreach := hleast (ReflTransGen (fun a b => (a, b) ∈ g.edges) start)
    (fun _ _ hab ha => ha.tail hab) (by simpa using ReflTransGen.refl)
  obtain ⟨hpart, hcn⟩ := componentOf_spec h hnd hnodes hclosed hreach
  exact ⟨hpart, hcn, hsub start mem_cons_self⟩

def NodeDisjoint (c c' : Graph ν) : Prop := ∀ x ∈ c.nodes, x ∉ c'.nodes

/-- The components found from `starts` when `done` is the set of the nodes of earlier ones. It is
closed, and a start in it has been visited; a start that opened a component has not. -/
theorem subgraphsFrom_spec (h : g.WF) {starts visited : List ν} {done : ν → Prop}
    (hnd : starts.Nodup) (hmem : ∀ x ∈ starts, x ∈ g.nodes) (hdone : Closed g done)
    (hvisited : ∀ x ∈ visited, done x) (hstarts : ∀ x ∈ starts, done x → x ∈ visited) :
    (∀ c ∈ subgraphsFrom g starts visited, IsPart c g ∧ ∀ x ∈ c.nodes, ¬ done x) ∧
    (subgraphsFrom g starts visited).Pairwise NodeDisjoint ∧
    ∀ x ∈ starts, done x ∨ ∃ c ∈ subgraphsFrom g starts visited, x ∈ c.nodes := by
  induction starts generalizing visited done with
  | nil => simp [subgraphsFrom]
  | cons start starts ih =>
    obtain ⟨hstart, hnd⟩ := nodup_cons.mp hnd
    obtain ⟨hsg, hmem⟩ := forall_mem_cons.mp hmem
    obtain ⟨hsd, hstarts⟩ := forall_mem_cons.mp hstarts
    rw [subgraphsFrom]
    by_cases hv : start ∈ visited
    · rw [if_pos hv]
      obtain ⟨hparts, hdisj, hcover⟩ := ih hnd hmem hdone hvisited hstarts
      exact ⟨hparts, hdisj, forall_mem_cons.mpr ⟨.inl (hvisited _ hv), hcover⟩⟩
    · rw [if_neg hv]
      obtain ⟨hnd', hsub, hclosed, hleast, hvis⟩ :=
        expandLoop_spec h (g.nodes.length + 1) visited (nodup_singleton start) (by simpa using hsg) (by omega)
      obtain ⟨hpart, hcn, -⟩ := component_spec h hsg visited
      generalize expandLoop g (g.nodes.length + 1) [start] visited = r at *
      obtain ⟨nodes, visited'⟩ := r
      have hnew : ∀ x ∈ nodes, ¬ done x := by
        refine hleast (fun x => ¬ done x) (fun a b hab ha hb => ha ?_) (by simpa using mt hsd hv)
        exact hdone b a (h.symm hab) hb
      have hdone' : Closed g fun x => done x ∨ x ∈ nodes := by
        rintro a b hab (ha | ha)
        exacts [.inl (hdone a b hab ha), .inr (hclosed a b hab ha)]
      have hvisited' : ∀ x ∈ visited', done x ∨ x ∈ nodes := by
        intro x hx
        rcases (hvis x).mp hx with hx | ⟨hx, -⟩
        exacts [.inl (hvisited x hx), .inr hx]
      -- the start itself is not visited, but it does not come again
      have hstarts' : ∀ x ∈ starts, done x ∨ x ∈ nodes → x ∈ visited' := by
        rintro x hx (hd | hxn)
        · exact (hvis x).mpr (.inl (hstarts x hx hd))
        · refine (hvis x).mpr (.inr ⟨hxn, fun hxs => ?_⟩)
          rw [mem_singleton] at hxs
          exact hstart (hxs ▸ hx)
      obtain ⟨hparts, hdisj, hcover⟩ := ih hnd hmem hdone' hvisited' hstarts'
      refine ⟨forall_mem_cons.mpr ⟨⟨hpart, by rwa [hcn]⟩, fun c hc => ?_⟩,
        pairwise_cons.mpr ⟨fun c hc x hx hxc => ?_, hdisj⟩,
        forall_mem_cons.mpr ⟨.inr ?_, fun x hx => ?_⟩⟩
      · exact ⟨(hparts c hc).1, fun x hx hd => (hparts c hc).2 x hx (.inl hd)⟩
      · rw [hcn] at hx
        exact (hparts c hc).2 x hxc (.inr hx)
      · exact ⟨_, mem_cons_self, by rw [hcn]; exact hsub start (by simp)⟩
      · rcases hcover x hx with (hd | hx) | ⟨c, hc, hxc⟩
        · exact .inl hd
        · exact .inr ⟨_, mem_cons_self, by rwa [hcn]⟩
        · exact .inr ⟨c, mem_cons_of_mem _ hc, hxc⟩

theorem connectedSubgraphs_spec (h : g.WF) : (∀ c ∈ getConnectedSubgraphs g, IsPart c g) ∧
    (getConnectedSubgraphs g).Pairwise NodeDisjoint ∧
    ∀ x ∈ g.nodes, ∃ c ∈ getConnectedSubgraphs g, x ∈ c.nodes := by
  obtain ⟨hparts, hdisj, hcover⟩ := subgraphsFrom_spec h h.nodup_nodes (fun _ => id)
    (fun _ _ _ => id : Closed g fun _ => False) (forall_mem_nil _) fun _ _ => False.elim
  exact ⟨fun c hc => (hparts c hc).1, hdisj, fun x hx => (hcover x hx).resolve_left id⟩

/-- Two nodes lie in one connected subgraph exactly if a path joins them. -/
theorem sameSubgraph_iff (qg : BoundQueryGraph ν) (a b : ν) :
    let g := fromQueryGraph qg.toQueryGraph
    (∃ c ∈ getConnectedSubgraphs g, a ∈ c.nodes ∧ b ∈ c.nodes) ↔
      a ∈ g.nodes ∧ ReflTransGen (fun a b => (a, b) ∈ g.edges) a b := by
  intro g
  obtain ⟨hparts, -, hcover⟩ := connectedSubgraphs_spec (fromQueryGraph_spec qg).1
  constructor
  · rintro ⟨c, hc, ha, hb⟩
    exact ⟨(hparts c hc).nodes ha, (hparts c hc).connected ha hb⟩
  · rintro ⟨ha, hab⟩
    obtain ⟨c, hc, hac⟩ := hcover a ha
    exact ⟨c, hc, hac, (hparts c hc).closed hac hab⟩

/-- In a part with two nodes or more every node has an edge to another node. -/
theorem IsPart.exists_ne (h : IsPart c g) (hlen : 1 < c.nodes.length) {x : ν} (hx : x ∈ c.nodes) :
    ∃ y, (x, y) ∈ g.edges ∧ y ≠ x := by
  obtain ⟨z, hz, hne⟩ : ∃ z ∈ c.nodes, z ≠ x := by
    by_contra hall
    push Not at hall
    have hsub : c.nodes ⊆ [x] := fun z hz => by simpa using hall z hz
    have hle := (h.wf.nodup_nodes.subperm hsub).length_le
    rw [length_singleton] at hle
    omega
  -- the first step of a walk to another node that is not a self-loop
  have hwalk := h.connected hx hz
  induction hwalk using ReflTransGen.head_induction_on with
  | refl => exact absurd rfl hne
  | @head a b hab _ ih =>
    by_cases hba : b = a
    · subst hba
      exact ih hx hne
    · exact ⟨b, hab, hba⟩

end Simple
end CycleJoin
