import CycleJoin.Lib.ChainPath
import CycleJoin.Planner.SimpleGraph

/-!
# Operations on simple graphs

Each operation of `Graph` keeps a graph well formed (`Graph.WF`: undirected, edges between its
nodes), and one lemma per operation says which nodes and edges it leaves.
-/

namespace CycleJoin

open List ChainPath Graph

namespace Simple

variable {ν : Type} [LinearOrder ν]

/-! ## Sets -/

@[simp] theorem mem_insertNode {x y : ν} {s : List ν} : y ∈ insertNode x s ↔ y = x ∨ y ∈ s := by
  unfold insertNode
  split
  · rename_i h
    exact ⟨.inr, by rintro (rfl | hy); exacts [h, hy]⟩
  · rw [mem_orderedInsert]

theorem nodup_insertNode {x : ν} {s : List ν} (h : s.Nodup) : (insertNode x s).Nodup := by
  unfold insertNode
  split
  · exact h
  · rename_i hx
    exact (perm_orderedInsert _ x s).nodup_iff.mpr (nodup_cons.mpr ⟨hx, h⟩)

@[simp] theorem mem_insertPair {e f : ν × ν} {s : List (ν × ν)} : f ∈ insertPair e s ↔ f = e ∨ f ∈ s := by
  unfold insertPair
  split
  · rename_i h
    exact ⟨.inr, by rintro (rfl | hf); exacts [h, hf]⟩
  · rw [mem_orderedInsert]

theorem nodup_insertPair {e : ν × ν} {s : List (ν × ν)} (h : s.Nodup) : (insertPair e s).Nodup := by
  unfold insertPair
  split
  · exact h
  · rename_i he
    exact (perm_orderedInsert _ e s).nodup_iff.mpr (nodup_cons.mpr ⟨he, h⟩)

namespace Graph

/-- A well-formed graph: no repetitions, undirected, edges between its nodes. -/
structure WF (g : Graph ν) : Prop where
  nodup_nodes : g.nodes.Nodup
  nodup_edges : g.edges.Nodup
  symm : ∀ {u v}, (u, v) ∈ g.edges → (v, u) ∈ g.edges
  mem_nodes : ∀ {u v}, (u, v) ∈ g.edges → u ∈ g.nodes

variable {g other : Graph ν} {u v : ν}

@[simp] theorem mem_getNeighbors : v ∈ g.getNeighbors u ↔ (u, v) ∈ g.edges := by
  simp only [getNeighbors, mem_map, mem_filter, decide_eq_true_eq]
  constructor
  · rintro ⟨e, ⟨he, rfl⟩, rfl⟩
    exact he
  · exact fun h => ⟨(u, v), ⟨h, rfl⟩, rfl⟩

theorem WF.isGraph (h : g.WF) : IsGraph g.getNeighbors where
  symm huv := mem_getNeighbors.mpr (h.symm (mem_getNeighbors.mp huv))
  nodup u := by
    refine (h.nodup_edges.filter _).map_on fun e he f hf heq => ?_
    simp only [mem_filter, decide_eq_true_eq] at he hf
    exact Prod.ext (he.2.trans hf.2.symm) heq

omit [LinearOrder ν] in
theorem WF.mem_nodes_right (h : g.WF) (huv : (u, v) ∈ g.edges) : v ∈ g.nodes := h.mem_nodes (h.symm huv)

omit [LinearOrder ν] in
theorem wf_empty : (empty : Graph ν).WF := ⟨by simp [empty], by simp [empty], by simp [empty], by simp [empty]⟩

/-! ## Adding -/

@[simp] theorem nodes_addNode {x : ν} : x ∈ (g.addNode u).nodes ↔ x = u ∨ x ∈ g.nodes := mem_insertNode

@[simp] theorem edges_addNode : (g.addNode u).edges = g.edges := rfl

theorem WF.addNode (h : g.WF) (u : ν) : (g.addNode u).WF :=
  ⟨nodup_insertNode h.nodup_nodes, h.nodup_edges, h.symm, fun he => by simp [h.mem_nodes he]⟩

@[simp] theorem nodes_addEdge : (g.addEdge u v).nodes = g.nodes := rfl

@[simp] theorem edges_addEdge {e : ν × ν} : e ∈ (g.addEdge u v).edges ↔ e = (v, u) ∨ e = (u, v) ∨ e ∈ g.edges := by
  simp [addEdge]

theorem WF.addEdge (h : g.WF) (hu : u ∈ g.nodes) (hv : v ∈ g.nodes) : (g.addEdge u v).WF := by
  refine ⟨h.nodup_nodes, nodup_insertPair (nodup_insertPair h.nodup_edges), ?_, ?_⟩
  · intro x y hxy
    simp only [edges_addEdge, Prod.mk.injEq] at hxy ⊢
    rcases hxy with ⟨rfl, rfl⟩ | ⟨rfl, rfl⟩ | hxy
    · exact .inr (.inl ⟨rfl, rfl⟩)
    · exact .inl ⟨rfl, rfl⟩
    · exact .inr (.inr (h.symm hxy))
  · intro x y hxy
    simp only [edges_addEdge] at hxy
    rcases hxy with ⟨rfl, rfl⟩ | ⟨rfl, rfl⟩ | hxy
    exacts [hv, hu, h.mem_nodes hxy]

theorem addEdgeMayExists_eq (h : g.WF) : ∀ e, e ∈ (g.addEdgeMayExists u v).edges ↔
    e = (v, u) ∨ e = (u, v) ∨ e ∈ g.edges := by
  intro e
  unfold addEdgeMayExists
  split
  · rename_i huv
    refine ⟨fun he => .inr (.inr he), ?_⟩
    rintro (rfl | rfl | he)
    exacts [h.symm huv, huv, he]
  · exact edges_addEdge

@[simp] theorem nodes_addEdgeMayExists : (g.addEdgeMayExists u v).nodes = g.nodes := by
  unfold addEdgeMayExists
  split <;> rfl

theorem WF.addEdgeMayExists (h : g.WF) (hu : u ∈ g.nodes) (hv : v ∈ g.nodes) : (g.addEdgeMayExists u v).WF := by
  unfold Graph.addEdgeMayExists
  split
  · exact h
  · exact h.addEdge hu hv

/-! ## Subgraphs -/

/-- `g` is a well-formed part of `q`. -/
structure Sub (g q : Graph ν) : Prop where
  wf : g.WF
  nodes : ∀ {u}, u ∈ g.nodes → u ∈ q.nodes
  edges : ∀ {e}, e ∈ g.edges → e ∈ q.edges

omit [LinearOrder ν] in
theorem sub_empty (q : Graph ν) : (empty : Graph ν).Sub q := ⟨wf_empty, by simp [empty], by simp [empty]⟩

variable {q : Graph ν}

theorem Sub.addNode (h : g.Sub q) (hu : u ∈ q.nodes) : (g.addNode u).Sub q := by
  refine ⟨h.wf.addNode u, fun hx => ?_, h.edges⟩
  rcases nodes_addNode.mp hx with rfl | hx
  exacts [hu, h.nodes hx]

theorem Sub.addEdge (hq : q.WF) (h : g.Sub q) (hu : u ∈ g.nodes) (hv : v ∈ g.nodes)
    (huv : (u, v) ∈ q.edges) : (g.addEdge u v).Sub q := by
  refine ⟨h.wf.addEdge hu hv, h.nodes, fun he => ?_⟩
  rcases edges_addEdge.mp he with rfl | rfl | he
  exacts [hq.symm huv, huv, h.edges he]

theorem Sub.foldl_addNode {us : List ν} (h : g.Sub q) (hus : ∀ u ∈ us, u ∈ q.nodes) :
    (us.foldl Graph.addNode g).Sub q ∧ ∀ x, x ∈ (us.foldl Graph.addNode g).nodes ↔ x ∈ us ∨ x ∈ g.nodes := by
  induction us generalizing g with
  | nil => exact ⟨h, by simp⟩
  | cons u us ih =>
    obtain ⟨hu, hus⟩ := forall_mem_cons.mp hus
    obtain ⟨hsub, hmem⟩ := ih (h.addNode hu) hus
    refine ⟨hsub, fun x => ?_⟩
    rw [foldl_cons, hmem, nodes_addNode]
    grind

theorem Sub.foldl_addEdge (hq : q.WF) (us : List ν) (h : g.Sub q) (hu : u ∈ g.nodes)
    (hus : ∀ v ∈ us, v ∈ g.nodes ∧ (u, v) ∈ q.edges) :
    (us.foldl (fun m v => m.addEdge u v) g).Sub q ∧ (us.foldl (fun m v => m.addEdge u v) g).nodes = g.nodes := by
  induction us generalizing g with
  | nil => exact ⟨h, rfl⟩
  | cons v us ih =>
    obtain ⟨hv, hus⟩ := forall_mem_cons.mp hus
    exact ih (h.addEdge hq hu hv.1 hv.2) hu hus

/-- `merge` joins two parts of a graph to a part of it. -/
theorem Sub.merge (hq : q.WF) (h : g.Sub q) (ho : other.Sub q) :
    (g.merge other).Sub q ∧ ∀ x, x ∈ (g.merge other).nodes ↔ x ∈ other.nodes ∨ x ∈ g.nodes := by
  obtain ⟨hm, hmem⟩ := h.foldl_addNode fun u hu => ho.nodes hu
  -- the edges come after all nodes
  have hfold (us : List ν) (m : Graph ν) (hmsub : m.Sub q)
      (hnodes : m.nodes = (other.nodes.foldl Graph.addNode g).nodes)
      (hus : ∀ u ∈ us, u ∈ other.nodes) :
      (us.foldl (fun m u => (other.getNeighbors u).foldl (fun m v => m.addEdge u v) m) m).Sub q ∧
      (us.foldl (fun m u => (other.getNeighbors u).foldl (fun m v => m.addEdge u v) m) m).nodes =
        (other.nodes.foldl Graph.addNode g).nodes := by
    induction us generalizing m with
    | nil => exact ⟨hmsub, hnodes⟩
    | cons u us ih =>
      obtain ⟨hu, hus⟩ := forall_mem_cons.mp hus
      obtain ⟨hsub, heq⟩ := hmsub.foldl_addEdge hq (other.getNeighbors u)
        (hnodes ▸ (hmem u).mpr (.inl hu)) fun v hv => by
          rw [mem_getNeighbors] at hv
          exact ⟨hnodes ▸ (hmem v).mpr (.inl (ho.wf.mem_nodes_right hv)), ho.edges hv⟩
      exact ih _ hsub (heq.trans hnodes) hus
  obtain ⟨hsub, heq⟩ := hfold other.nodes _ hm rfl fun _ => id
  exact ⟨hsub, fun x => by rw [Graph.merge, heq]; exact hmem x⟩

/-! ## Paths -/

theorem foldl_addNode_spec (us : List ν) (h : g.WF) : (us.foldl addNode g).WF ∧ (us.foldl addNode g).edges = g.edges ∧
      ∀ x, x ∈ (us.foldl addNode g).nodes ↔ x ∈ us ∨ x ∈ g.nodes := by
  induction us generalizing g with
  | nil => exact ⟨h, rfl, by simp⟩
  | cons u us ih =>
    obtain ⟨hwf, hedges, hmem⟩ := ih (h.addNode u)
    refine ⟨hwf, hedges, fun x => ?_⟩
    rw [foldl_cons, hmem, nodes_addNode]
    grind

theorem addPathEdges_spec {path : List ν} (h : g.WF) (hp : ∀ u ∈ path, u ∈ g.nodes) :
    (addPathEdges g path).WF ∧ (addPathEdges g path).nodes = g.nodes ∧ ∀ a b, (a, b) ∈ (addPathEdges g path).edges ↔
        (a, b) ∈ steps path ∨ (b, a) ∈ steps path ∨ (a, b) ∈ g.edges := by
  induction path generalizing g with
  | nil => exact ⟨h, rfl, by simp [addPathEdges, steps]⟩
  | cons u path ih =>
    cases path with
    | nil => exact ⟨h, rfl, by simp [addPathEdges, steps]⟩
    | cons v path =>
      obtain ⟨hu, hp⟩ := forall_mem_cons.mp hp
      have hv := hp v mem_cons_self
      obtain ⟨hwf, hnodes, hedges⟩ := ih (h.addEdgeMayExists hu hv) (by simpa using hp)
      refine ⟨hwf, hnodes.trans nodes_addEdgeMayExists, fun a b => ?_⟩
      rw [addPathEdges, hedges, addEdgeMayExists_eq h, steps]
      grind

/-- `mergeFrom` adds the nodes and the steps of a path. -/
theorem mergeFrom_spec (path : List ν) (h : g.WF) :
    (g.mergeFrom path).WF ∧ (∀ x, x ∈ (g.mergeFrom path).nodes ↔ x ∈ path ∨ x ∈ g.nodes) ∧
      ∀ a b, (a, b) ∈ (g.mergeFrom path).edges ↔ (a, b) ∈ steps path ∨ (b, a) ∈ steps path ∨ (a, b) ∈ g.edges := by
  obtain ⟨hwf, hedges, hmem⟩ := foldl_addNode_spec path h
  obtain ⟨hwf', hnodes', hedges'⟩ := addPathEdges_spec hwf fun u hu => (hmem u).mpr (.inl hu)
  refine ⟨hwf', fun x => ?_, fun a b => ?_⟩
  · rw [mergeFrom, hnodes', hmem]
  · rw [mergeFrom, hedges', hedges]

theorem foldl_mergeFrom_spec (paths : List (List ν)) (h : g.WF) : (paths.foldl mergeFrom g).WF ∧
      (∀ x, x ∈ (paths.foldl mergeFrom g).nodes ↔ (∃ p ∈ paths, x ∈ p) ∨ x ∈ g.nodes) ∧
      ∀ a b, (a, b) ∈ (paths.foldl mergeFrom g).edges ↔
        (∃ p ∈ paths, (a, b) ∈ steps p ∨ (b, a) ∈ steps p) ∨ (a, b) ∈ g.edges := by
  induction paths generalizing g with
  | nil => exact ⟨h, by simp, by simp⟩
  | cons p paths ih =>
    obtain ⟨hwf, hmem, hedges⟩ := mergeFrom_spec p h
    obtain ⟨hwf', hmem', hedges'⟩ := ih hwf
    refine ⟨hwf', fun x => ?_, fun a b => ?_⟩
    · rw [foldl_cons, hmem', hmem]
      simp only [mem_cons, exists_eq_or_imp]
      rw [or_left_comm, or_assoc]
    · rw [foldl_cons, hedges', hedges]
      simp only [mem_cons]
      rw [← or_assoc (b := (b, a) ∈ steps p), or_left_comm]
      simp [or_assoc]

end Graph

theorem pathToGraph_sub {q : Graph ν} (hq : q.WF) {path : List ν} (hmem : ∀ u ∈ path, u ∈ q.nodes)
    (hsteps : ∀ e ∈ steps path, e ∈ q.edges) :
    (pathToGraph path).Sub q ∧ ∀ x, x ∈ (pathToGraph path).nodes ↔ x ∈ path := by
  have hadd (g : Graph ν) (u : ν) (path : List ν) (hg : g.Sub q) (hu : u ∈ g.nodes)
      (hmem : ∀ v ∈ path, v ∈ q.nodes) (hsteps : ∀ e ∈ steps (u :: path), e ∈ q.edges) :
      (addPath g (u :: path)).Sub q ∧ ∀ x, x ∈ (addPath g (u :: path)).nodes ↔ x ∈ path ∨ x ∈ g.nodes := by
    induction path generalizing g u with
    | nil => exact ⟨hg, by simp [addPath]⟩
    | cons v path ih =>
      obtain ⟨hv, hmem⟩ := forall_mem_cons.mp hmem
      obtain ⟨huv, hsteps⟩ := forall_mem_cons.mp hsteps
      have hg' : ((g.addNode v).addEdge u v).Sub q := (hg.addNode hv).addEdge hq (by simp [hu]) (by simp) huv
      obtain ⟨hsub, hnodes⟩ := ih _ v hg' (by simp) hmem hsteps
      refine ⟨hsub, fun x => ?_⟩
      rw [addPath, hnodes, Graph.nodes_addEdge, Graph.nodes_addNode]
      grind
  cases path with
  | nil => exact ⟨Graph.sub_empty q, by simp [pathToGraph, Graph.empty]⟩
  | cons u path =>
    obtain ⟨hu, hmem⟩ := forall_mem_cons.mp hmem
    obtain ⟨hsub, hnodes⟩ := hadd _ u path ((Graph.sub_empty q).addNode hu) (by simp) hmem hsteps
    refine ⟨hsub, fun x => ?_⟩
    rw [pathToGraph, hnodes]
    simp [Graph.empty, or_comm]

/-! ## Removing -/

namespace Graph

variable {g other : Graph ν} {u v : ν}

theorem edges_removeEdge {e : ν × ν} : e ∈ (g.removeEdge u v).edges ↔ e ∈ g.edges ∧ e ≠ (u, v) ∧ e ≠ (v, u) := by
  simp [removeEdge]

theorem WF.removeEdge (h : g.WF) (u v : ν) : (g.removeEdge u v).WF := by
  refine ⟨h.nodup_nodes, h.nodup_edges.filter _, ?_, fun he => h.mem_nodes (edges_removeEdge.mp he).1⟩
  intro a b hab
  obtain ⟨hmem, h₁, h₂⟩ := edges_removeEdge.mp hab
  refine edges_removeEdge.mpr ⟨h.symm hmem, fun heq => h₂ ?_, fun heq => h₁ ?_⟩
  · cases heq; rfl
  · cases heq; rfl

theorem foldl_removeEdgeIfAny_spec (u : ν) (vs : List ν) (h : g.WF) :
    (vs.foldl (removeEdgeIfAny u) g).WF ∧ (vs.foldl (removeEdgeIfAny u) g).nodes = g.nodes ∧
    ∀ a b, (a, b) ∈ (vs.foldl (removeEdgeIfAny u) g).edges ↔
      (a, b) ∈ g.edges ∧ ¬ (a = u ∧ b ∈ vs) ∧ ¬ (b = u ∧ a ∈ vs) := by
  induction vs generalizing g with
  | nil => exact ⟨h, rfl, by simp⟩
  | cons v vs ih =>
    rw [foldl_cons, removeEdgeIfAny]
    split
    · obtain ⟨hwf, hnodes, hedges⟩ := ih (h.removeEdge u v)
      refine ⟨hwf, hnodes, fun a b => ?_⟩
      rw [hedges, edges_removeEdge]
      grind
    · -- the edge is not there, in neither direction
      rename_i hv
      rw [mem_getNeighbors] at hv
      obtain ⟨hwf, hnodes, hedges⟩ := ih h
      refine ⟨hwf, hnodes, fun a b => ?_⟩
      rw [hedges]
      refine and_congr_right fun hab => ?_
      have h₂ : ¬ (b = u ∧ a = v) := by
        rintro ⟨rfl, rfl⟩
        exact hv (h.symm hab)
      grind

theorem foldl_removeEdgesAt_spec (other : Graph ν) (us : List ν) (h : g.WF) :
    (us.foldl other.removeEdgesAt g).WF ∧ (us.foldl other.removeEdgesAt g).nodes = g.nodes ∧
      ∀ a b, (a, b) ∈ (us.foldl other.removeEdgesAt g).edges ↔ (a, b) ∈ g.edges ∧ ¬ (a ∈ us ∧ (a, b) ∈ other.edges) ∧
          ¬ (b ∈ us ∧ (b, a) ∈ other.edges) := by
  induction us generalizing g with
  | nil => exact ⟨h, rfl, by simp⟩
  | cons u us ih =>
    rw [foldl_cons, removeEdgesAt]
    split
    · obtain ⟨hwf, hnodes, hedges⟩ := foldl_removeEdgeIfAny_spec u (other.getNeighbors u) h
      obtain ⟨hwf', hnodes', hedges'⟩ := ih hwf
      refine ⟨hwf', hnodes'.trans hnodes, fun a b => ?_⟩
      rw [hedges', hedges, mem_getNeighbors, mem_getNeighbors]
      grind
    · rename_i hu
      obtain ⟨hwf, hnodes, hedges⟩ := ih h
      refine ⟨hwf, hnodes, fun a b => ?_⟩
      rw [hedges]
      refine and_congr_right fun hab => ?_
      have ha : a ≠ u := by rintro rfl; exact hu (h.mem_nodes hab)
      have hb : b ≠ u := by rintro rfl; exact hu (h.mem_nodes_right hab)
      simp [ha, hb]

/-- `removeEdgesFrom` removes the edges of the other graph. -/
theorem removeEdgesFrom_spec (h : g.WF) (ho : other.WF) :
    (g.removeEdgesFrom other).WF ∧ (g.removeEdgesFrom other).nodes = g.nodes ∧
      ∀ e, e ∈ (g.removeEdgesFrom other).edges ↔ e ∈ g.edges ∧ e ∉ other.edges := by
  obtain ⟨hwf, hnodes, hedges⟩ := foldl_removeEdgesAt_spec other other.nodes h
  refine ⟨hwf, hnodes, fun ⟨a, b⟩ => ?_⟩
  rw [removeEdgesFrom, hedges]
  constructor
  · exact fun ⟨hab, h₁, _⟩ => ⟨hab, fun he => h₁ ⟨ho.mem_nodes he, he⟩⟩
  · exact fun ⟨hab, hne⟩ => ⟨hab, fun he => hne he.2, fun he => hne (ho.symm he.2)⟩

theorem foldl_removeEdgesFrom_spec (others : List (Graph ν)) (h : g.WF) (ho : ∀ o ∈ others, o.WF) :
    (others.foldl removeEdgesFrom g).WF ∧ (others.foldl removeEdgesFrom g).nodes = g.nodes ∧
      ∀ e, e ∈ (others.foldl removeEdgesFrom g).edges ↔ e ∈ g.edges ∧ ∀ o ∈ others, e ∉ o.edges := by
  induction others generalizing g with
  | nil => exact ⟨h, rfl, by simp⟩
  | cons o others ih =>
    obtain ⟨ho₁, ho⟩ := forall_mem_cons.mp ho
    obtain ⟨hwf, hnodes, hedges⟩ := removeEdgesFrom_spec h ho₁
    obtain ⟨hwf', hnodes', hedges'⟩ := ih hwf ho
    refine ⟨hwf', hnodes'.trans hnodes, fun e => ?_⟩
    rw [foldl_cons, hedges', hedges, forall_mem_cons, and_assoc]

/-! ## Induced subgraphs -/

/-- `g` has all edges of `q` between its nodes, which are nodes of `q`. -/
structure Induced (g q : Graph ν) : Prop where
  wf : g.WF
  nodes : ∀ {u}, u ∈ g.nodes → u ∈ q.nodes
  edges : ∀ {a b}, (a, b) ∈ g.edges ↔ (a, b) ∈ q.edges ∧ a ∈ g.nodes ∧ b ∈ g.nodes

variable {q : Graph ν}

omit [LinearOrder ν] in
theorem Induced.sub (h : g.Induced q) : g.Sub q := ⟨h.wf, h.nodes, fun he => (h.edges.mp he).1⟩

omit [LinearOrder ν] in
theorem induced_refl (h : q.WF) : q.Induced q :=
  ⟨h, id, fun {_ _} => ⟨fun he => ⟨he, h.mem_nodes he, h.mem_nodes_right he⟩, And.left⟩⟩

theorem foldl_addEdgeWithin_spec (hq : q.WF) (vs : List ν) (h : g.Sub q)
    (hu : u ∈ g.nodes) (hvs : ∀ v ∈ vs, (u, v) ∈ q.edges) :
    (vs.foldl (addEdgeWithin u) g).Sub q ∧ (vs.foldl (addEdgeWithin u) g).nodes = g.nodes ∧
      ∀ a b, (a, b) ∈ (vs.foldl (addEdgeWithin u) g).edges ↔ (a, b) ∈ g.edges ∨
        (a = u ∧ b ∈ vs ∨ b = u ∧ a ∈ vs) ∧ a ∈ g.nodes ∧ b ∈ g.nodes := by
  induction vs generalizing g with
  | nil => exact ⟨h, rfl, by simp⟩
  | cons v vs ih =>
    obtain ⟨hv, hvs⟩ := forall_mem_cons.mp hvs
    rw [foldl_cons, addEdgeWithin]
    split
    · rename_i hmem
      obtain ⟨hsub, hnodes, hedges⟩ := ih (h.addEdge hq hu hmem hv) hu hvs
      refine ⟨hsub, hnodes, fun a b => ?_⟩
      rw [hedges, edges_addEdge, mem_cons, mem_cons, Prod.mk.injEq, Prod.mk.injEq]
      constructor
      · rintro ((⟨rfl, rfl⟩ | ⟨rfl, rfl⟩ | he) | ⟨hvs, hab⟩)
        · exact .inr ⟨.inr ⟨rfl, .inl rfl⟩, hmem, hu⟩
        · exact .inr ⟨.inl ⟨rfl, .inl rfl⟩, hu, hmem⟩
        · exact .inl he
        · exact .inr ⟨hvs.imp (And.imp_right .inr) (And.imp_right .inr), hab⟩
      · rintro (he | ⟨⟨rfl, rfl | hb⟩ | ⟨rfl, rfl | ha⟩, hab⟩)
        · exact .inl (.inr (.inr he))
        · exact .inl (.inr (.inl ⟨rfl, rfl⟩))
        · exact .inr ⟨.inl ⟨rfl, hb⟩, hab⟩
        · exact .inl (.inl ⟨rfl, rfl⟩)
        · exact .inr ⟨.inr ⟨rfl, ha⟩, hab⟩
    · obtain ⟨hsub, hnodes, hedges⟩ := ih h hu hvs
      grind

theorem addEdgesWithin_spec (hq : q.WF) (us : List ν) (h : g.Sub q) (hus : ∀ u ∈ us, u ∈ g.nodes) :
    (addEdgesWithin q us g).Sub q ∧ (addEdgesWithin q us g).nodes = g.nodes ∧
      ∀ a b, (a, b) ∈ (addEdgesWithin q us g).edges ↔ (a, b) ∈ g.edges ∨
        (a, b) ∈ q.edges ∧ (a ∈ us ∨ b ∈ us) ∧ a ∈ g.nodes ∧ b ∈ g.nodes := by
  unfold addEdgesWithin
  induction us generalizing g with
  | nil => exact ⟨h, rfl, by simp⟩
  | cons u us ih =>
    obtain ⟨hu, hus⟩ := forall_mem_cons.mp hus
    obtain ⟨hsub, hnodes, hedges⟩ := foldl_addEdgeWithin_spec hq (q.getNeighbors u) h hu
      fun v hv => mem_getNeighbors.mp hv
    obtain ⟨hsub', hnodes', hedges'⟩ := ih hsub fun v hv => hnodes ▸ hus v hv
    refine ⟨hsub', hnodes'.trans hnodes, fun a b => ?_⟩
    rw [foldl_cons, hedges', hedges, mem_getNeighbors, mem_getNeighbors]
    have h₂ : b = u → ((u, a) ∈ q.edges ↔ (a, b) ∈ q.edges) := by
      rintro rfl
      exact ⟨hq.symm, hq.symm⟩
    grind

/-- The final probe graph is induced. -/
theorem induced_induce (hq : q.WF) (h : g.Sub q) : (induce q g).Induced q ∧ (induce q g).nodes = g.nodes := by
  obtain ⟨hsub, hnodes, hedges⟩ := addEdgesWithin_spec hq g.nodes h fun _ => id
  refine ⟨⟨hsub.wf, hsub.nodes, fun {a b} => ?_⟩, hnodes⟩
  rw [induce]
  have h₁ : (a, b) ∈ g.edges → (a, b) ∈ q.edges ∧ a ∈ g.nodes ∧ b ∈ g.nodes := fun he =>
    ⟨h.edges he, h.wf.mem_nodes he, h.wf.mem_nodes_right he⟩
  grind

end Graph

end Simple
end CycleJoin
