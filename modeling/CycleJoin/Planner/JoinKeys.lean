import CycleJoin.Planner.Coverage
import CycleJoin.Planner.Recursion

/-!
# The join keys of remaining graphs

A remaining graph is joined to the plan on the nodes it shares with the probe graph and the build
graphs. The multiway intersection outputs what the plan of the probe side outputs and the end nodes of
the build paths, but not the nodes in between. The probe side is planned in the same way, so that the
nodes inside its own build paths are not in scope either.

* `planSchema`, `planInterior`: the nodes in scope after `planQueryGraph`, and the nodes inside build
  paths at all levels of its recursion. Every node is one or the other (`mem_planSchema_or_interior`).
* `interior_isolated`, `interior_remains`: a node between the ends of a build path has no remaining
  edge if it has two neighbours in the query graph, and lies in a remaining graph otherwise.
* `joinsInScope_of_two_neighbors`: all join nodes are in scope when the nodes inside build paths, those
  of the probe side included, have two neighbours each. For the build paths of the plan itself this is
  needed.
-/

namespace CycleJoin

open Simple ChainPath List

variable {ν : Type} [LinearOrder ν] {π : Type}

/-! ## Join nodes in scope -/

/-- The nodes between the ends of the build paths. -/
def interiorNodes (trees : List (List (List ν))) : List ν :=
  trees.flatMap fun tree => tree.flatMap fun p => p.tail.dropLast

omit [LinearOrder ν] in
theorem mem_interiorNodes {trees : List (List (List ν))} {x : ν} :
    x ∈ interiorNodes trees ↔ ∃ tree ∈ trees, ∃ p ∈ tree, x ∈ p.tail.dropLast := by
  simp only [interiorNodes, mem_flatMap]

/-- The join with a remaining graph has the right keys: there is one, they are the nodes shared with
the probe graph and the build graphs, all of them are in the schema, and none is inside a build
path. -/
def CycleJoinPlan.JoinInScope (plan : CycleJoinPlan ν π) (interior schema : List ν)
    (side : RemainingSide ν π) : Prop :=
  side.joinNodes ≠ [] ∧
  (∀ x, x ∈ side.joinNodes ↔ x ∈ side.planned.1.queryNodes ∧
    (x ∈ plan.probe.1.queryNodes ∨ ∃ build ∈ plan.builds, x ∈ build.planned.1.queryNodes)) ∧
  ∀ x ∈ side.joinNodes, x ∈ schema ∧ x ∉ interior

/-- The keys of all joins are right; each join adds what the plan of its side outputs to the schema. -/
def CycleJoinPlan.JoinsInScope (plan : CycleJoinPlan ν π) (scope : PlannedGraph ν π → List ν)
    (interior : List ν) : List ν → List (RemainingSide ν π) → Prop
  | _, [] => True
  | schema, side :: sides => plan.JoinInScope interior schema side ∧
    plan.JoinsInScope scope interior (schema ++ scope side.planned) sides

/-- The nodes in scope after the multiway intersection (`computeFactorizedSchema`): those of the probe
plan, and the build nodes. -/
def CycleJoinPlan.schema (plan : CycleJoinPlan ν π) (scope : PlannedGraph ν π → List ν) : List ν :=
  scope plan.probe ++ plan.builds.flatMap (·.buildNodes)

section Levels

variable (vars : π → List ν) (shuffles : PlannedGraph ν π → Shuffle ν)

/-- The nodes in scope after `planQueryGraph`, for the shuffles that its calls make. -/
def planSchema : Nat → PlannedGraph ν π → List ν
  | 0, _ => []
  | fuel + 1, planned =>
    if planned.2.hint.isSome then planned.1.queryNodes
    else
      match planQueryGraphWithMultiwayIntersect vars (shuffles planned) planned.1 planned.2 with
      | none => planned.1.queryNodes
      | some plan => plan.schema (planSchema fuel) ++
          plan.remaining.flatMap fun side => planSchema fuel side.planned

/-- The nodes between the ends of build paths, at all levels of `planQueryGraph`. -/
def planInterior : Nat → PlannedGraph ν π → List ν
  | 0, _ => []
  | fuel + 1, planned =>
    match planQueryGraphWithMultiwayIntersect vars (shuffles planned) planned.1 planned.2 with
    | none => []
    | some plan =>
      interiorNodes (findBestCycleJoin (shuffles planned) (fromQueryGraph planned.1)).2 ++
        (planInterior fuel plan.probe ++ plan.remaining.flatMap fun side => planInterior fuel side.planned)

end Levels

section Schema

variable {plan : CycleJoinPlan ν π} {scope : PlannedGraph ν π → List ν} {interior schema : List ν}
  {sides : List (RemainingSide ν π)}

omit [LinearOrder ν] in
theorem CycleJoinPlan.JoinsInScope.not_interior (h : plan.JoinsInScope scope interior schema sides)
    {side : RemainingSide ν π} (hside : side ∈ sides) {x : ν} (hx : x ∈ side.joinNodes) :
    x ∉ interior := by
  induction sides generalizing schema with
  | nil => cases hside
  | cons first sides ih =>
    rcases mem_cons.mp hside with rfl | hside
    exacts [(h.1.2.2 x hx).2, ih h.2 hside]

omit [LinearOrder ν] in
/-- It is enough that every join is in scope of the multiway intersection. -/
theorem CycleJoinPlan.joinsInScope_of_forall (h : ∀ side ∈ sides, plan.JoinInScope interior (plan.schema scope) side)
    (hsub : ∀ x ∈ plan.schema scope, x ∈ schema) : plan.JoinsInScope scope interior schema sides := by
  induction sides generalizing schema with
  | nil => trivial
  | cons side sides ih =>
    obtain ⟨⟨hne, hshared, hscope⟩, h⟩ := forall_mem_cons.mp h
    exact ⟨⟨hne, hshared, fun x hx => ⟨hsub x (hscope x hx).1, (hscope x hx).2⟩⟩,
      ih h fun x hx => mem_append_left _ (hsub x hx)⟩

end Schema

/-! ## Nodes inside build paths -/

section Interior

variable {sh : Shuffle ν} {Q : Graph ν} {tree : List (List ν)} {p : List ν} {x y : ν}

section
variable (hQ : Q.WF) (htree : tree ∈ (findBestCycleJoin sh Q).2) (hp : p ∈ tree)
  (hx : x ∈ p.tail.dropLast)
include hQ htree hp hx

/-- The neighbours of an inner node in the 2-core are its neighbours on the path. -/
theorem interior_core : ∃ a c, (a, x) ∈ steps p ∧ (x, c) ∈ steps p ∧ a ≠ c ∧
      ∀ y, (x, y) ∈ (core Q).edges ↔ y = a ∨ y = c := by
  obtain ⟨path, hpath, v, w, ho⟩ := (findBestCycleJoin_spec sh hQ).2.1 tree htree p hp
  obtain ⟨pre, post, hsplit, hpre, hpost⟩ := exists_split_of_mem hx
  obtain ⟨pre, a, rfl⟩ := eq_nil_or_concat' pre |>.resolve_left hpre
  obtain ⟨c, post, rfl⟩ := exists_cons_of_ne_nil hpost
  have hN := (core_spec hQ).1.wf.isGraph
  -- the path starts a basic path, read in one of its directions
  obtain ⟨full, rest, hfull, hchain⟩ : ∃ full rest, full = p ++ rest ∧ IsChainPath (core Q).getNeighbors full := by
    obtain ⟨rest, h | h⟩ := ho.starts_path
    exacts [⟨path, rest, h, (basic_kept hQ hpath).chain⟩,
      ⟨path.reverse, rest, h, (basic_kept hQ hpath).chain.reverse hN⟩]
  have hwhole : full = pre ++ a :: x :: c :: (post ++ rest) := by
    rw [hfull, hsplit]
    simp
  obtain ⟨hlen, hc, hne⟩ := hchain.interior hN hwhole
  have ha : a ∈ (core Q).getNeighbors x := hN.symm (hchain.adj hN (mem_steps.mpr ⟨pre, _, hwhole⟩))
  refine ⟨a, c, mem_steps.mpr ⟨pre, c :: post, by rw [hsplit]; simp⟩,
    mem_steps.mpr ⟨pre ++ [a], post, by rw [hsplit]⟩, hne.symm, fun y => ?_⟩
  rw [← Graph.mem_getNeighbors]
  refine ⟨fun hy => ?_, fun hy => hy.elim (fun h => h ▸ ha) fun h => h ▸ hc⟩
  by_cases hya : y = a
  exacts [.inl hya, .inr (other_unique hlen ha hy hya hc hne)]

theorem interior_not_probe : x ∉ (findBestCycleJoin sh Q).1.nodes := by
  obtain ⟨path, hpath, v, w, ho⟩ := (findBestCycleJoin_spec sh hQ).2.1 tree htree p hp
  exact ho.tail x (mem_of_mem_dropLast hx)

end

/-- A node of the probe graph or of a build graph is a probe node, the end of a build path or an
inner node. -/
theorem shared_cases (hQ : Q.WF) (hx : x ∈ (findBestCycleJoin sh Q).1.nodes ∨
    ∃ tree ∈ (findBestCycleJoin sh Q).2, ∃ p ∈ tree, x ∈ p) :
    x ∈ (findBestCycleJoin sh Q).1.nodes ∨ ∃ tree ∈ (findBestCycleJoin sh Q).2, ∃ p ∈ tree,
      p.getLast? = some x ∨ x ∈ p.tail.dropLast := by
  rcases hx with hx | ⟨tree, htree, p, hp, hxp⟩
  · exact .inl hx
  obtain ⟨path, -, v, w, ho⟩ := (findBestCycleJoin_spec sh hQ).2.1 tree htree p hp
  obtain ⟨rest, rfl⟩ := head?_eq_some_iff.mp ho.head
  rcases mem_cons.mp hxp with rfl | hxp
  · exact .inl ho.probe
  · exact .inr ⟨tree, htree, _, hp, (mem_tail_cases hxp).symm⟩

variable (hQ : Q.WF) (htree : tree ∈ (findBestCycleJoin sh Q).2) (hp : p ∈ tree)
  (hx : x ∈ p.tail.dropLast)
include hQ htree hp hx

theorem interior_isolated (hlen : (Q.getNeighbors x).length = 2) :
    ¬ RemainingEdge Q (findBestCycleJoin sh Q).1 (findBestCycleJoin sh Q).2 x y := by
  obtain ⟨a, c, hax, hxc, hne, hcore⟩ := interior_core hQ htree hp hx
  rintro ⟨hxy, -, hpaths⟩
  have hin (z : ν) (hz : (x, z) ∈ (core Q).edges) : z ∈ Q.getNeighbors x :=
    Graph.mem_getNeighbors.mpr ((core_spec hQ).1.sub.edges hz)
  -- the two neighbours are those on the path
  have hy : y = a ∨ y = c := by
    by_cases hya : y = a
    · exact .inl hya
    · exact .inr (other_unique hlen (hin a ((hcore a).mpr (.inl rfl)))
        (Graph.mem_getNeighbors.mpr hxy) hya (hin c ((hcore c).mpr (.inr rfl))) hne.symm)
  rcases hy with rfl | rfl
  exacts [(hpaths tree htree p hp).2 hax, (hpaths tree htree p hp).1 hxc]

theorem interior_remains (hlen : (Q.getNeighbors x).length ≠ 2) :
    ∃ y, RemainingEdge Q (findBestCycleJoin sh Q).1 (findBestCycleJoin sh Q).2 x y ∧ x ≠ y := by
  obtain ⟨a, c, hax, hxc, hne, hcore⟩ := interior_core hQ htree hp hx
  have hsub := (core_spec hQ).1
  -- a third neighbour
  obtain ⟨y, hy, hyac⟩ : ∃ y ∈ Q.getNeighbors x, y ∉ [a, c] := by
    by_contra hall
    push Not at hall
    have hle := ((hQ.isGraph.nodup x).subperm hall).length_le
    have hnd : [a, c].Nodup := by simpa using hne
    have hge := (hnd.subperm fun z hz =>
      Graph.mem_getNeighbors.mpr (hsub.sub.edges ((hcore z).mpr (by simpa using hz)))).length_le
    exact hlen (le_antisymm hle hge)
  have hyc : (x, y) ∉ (core Q).edges := by
    rw [hcore]
    simpa using hyac
  have hxcore : x ∈ (core Q).nodes := hsub.wf.mem_nodes ((hcore a).mpr (.inl rfl))
  have hedge := Graph.mem_getNeighbors.mp hy
  refine ⟨y, ⟨hedge, fun h => interior_not_probe hQ htree hp hx h.1, fun tree' htree' p' hp' => ?_⟩, ?_⟩
  · -- build paths keep to the 2-core
    obtain ⟨path, hpath, v, w, ho⟩ := (findBestCycleJoin_spec sh hQ).2.1 tree' htree' p' hp'
    constructor
    · intro h
      rcases ho.steps_sub h with h | h
      exacts [hyc (basic_steps hQ hpath h), hyc (hsub.wf.symm (basic_steps hQ hpath h))]
    · intro h
      rcases ho.steps_sub h with h | h
      exacts [hyc (hsub.wf.symm (basic_steps hQ hpath h)), hyc (basic_steps hQ hpath h)]
  · rintro rfl
    exact hyc (hsub.edges.mpr ⟨hedge, hxcore, hxcore⟩)

end Interior

/-! ## The joins of a plan -/

/-- Any two nodes of the query graph are connected by rels. -/
def QueryGraph.Connected (qg : QueryGraph ν) : Prop :=
  ∀ a ∈ qg.queryNodes, ∀ b ∈ qg.queryNodes,
    Relation.ReflTransGen (fun a b => ∃ rel ∈ qg.queryRels, rel.Between a b) a b

section Joins

variable {vars : π → List ν} {sh : Shuffle ν} {qg : BoundQueryGraph ν} {Q g : Graph ν}
  {info : QueryGraphPlanningInfo ν π} {plan : CycleJoinPlan ν π} {x : ν}

theorem mem_joinNodes {probe : Graph ν} {trees : List (List (List ν))} :
    x ∈ joinNodes probe (trees.map buildGraphSimple) g ↔
      x ∈ g.nodes ∧ (x ∈ probe.nodes ∨ ∃ tree ∈ trees, ∃ p ∈ tree, x ∈ p) := by
  simp [joinNodes, (buildGraphSimple_spec _).2.1]

/-- A remaining graph of a connected query graph shares a node with another part. -/
theorem joinNodes_ne_nil (hQ : Q.WF)
    (hconn : ∀ a ∈ Q.nodes, ∀ b ∈ Q.nodes, Relation.ReflTransGen (fun a b => (a, b) ∈ Q.edges) a b)
    (hprobe : (findBestCycleJoin sh Q).1.nodes ≠ [])
    (hg : g ∈ remainingGraphsSimple Q (findBestCycleJoin sh Q).1 ((findBestCycleJoin sh Q).2.map buildGraphSimple)) :
    joinNodes (findBestCycleJoin sh Q).1 ((findBestCycleJoin sh Q).2.map buildGraphSimple) g ≠ [] := by
  intro hnil
  have hnone (x : ν) (hx : x ∈ g.nodes) : ¬ (x ∈ (findBestCycleJoin sh Q).1.nodes ∨
      ∃ tree ∈ (findBestCycleJoin sh Q).2, ∃ p ∈ tree, x ∈ p) := fun h => by
    have := mem_joinNodes.mpr ⟨hx, h⟩
    rw [hnil] at this
    cases this
  have hpart := remaining_isPart hQ hg
  have hnodes := (remainingEdges_spec sh hQ).2.1
  -- all edges at its nodes remain, so it is closed in the query graph
  have hclosed (a b : ν) (hab : (a, b) ∈ Q.edges) (ha : a ∈ g.nodes) : b ∈ g.nodes := by
    refine hpart.wf.mem_nodes_right (hpart.edges.mpr ⟨?_, ha⟩)
    rw [mem_remainingEdges_iff sh hQ]
    refine ⟨hab, fun h => hnone a ha (.inl h.1), fun tree htree p hp => ⟨fun h => ?_, fun h => ?_⟩⟩
    · exact hnone a ha (.inr ⟨tree, htree, p, hp, (mem_of_mem_steps h).1⟩)
    · exact hnone a ha (.inr ⟨tree, htree, p, hp, (mem_of_mem_steps h).2⟩)
  obtain ⟨z, l, hz⟩ := exists_cons_of_ne_nil hprobe
  have hlen : 1 < g.nodes.length := by simpa using (mem_filter.mp hg).2
  obtain ⟨x, hx⟩ := exists_mem_of_length_pos (by omega : 0 < g.nodes.length)
  have hzp : z ∈ (findBestCycleJoin sh Q).1.nodes := by simp [hz]
  have hwalk := hconn x (hnodes ▸ hpart.nodes hx) z ((findBestCycleJoin_spec sh hQ).1.nodes hzp)
  have hzg : z ∈ g.nodes := by
    clear hzp hz
    induction hwalk with
    | refl => exact hx
    | tail _ hbc ih => exact hclosed _ _ hbc ih
  exact hnone z hzg (.inl hzp)

/-- The build nodes of a tree are the ends of its paths. -/
theorem mem_buildNodes (hQ : (fromQueryGraph qg.toQueryGraph).WF) {tree : List (List ν)}
    (htree : tree ∈ (findBestCycleJoin sh (fromQueryGraph qg.toQueryGraph)).2) {p : List ν}
    (hp : p ∈ tree) (hx : p.getLast? = some x) :
    x ∈ (buildSide vars qg.toQueryGraph info tree).buildNodes := by
  cases tree with
  | nil => cases hp
  | cons first tree =>
    obtain ⟨path, -, v, w, ho⟩ := (findBestCycleJoin_spec sh hQ).2.1 _ htree first mem_cons_self
    obtain ⟨rest, rfl⟩ := head?_eq_some_iff.mp ho.head
    simp only [buildSide, pathsToHintTree, Option.map_some, Option.getD_some, mem_reverse, mem_filterMap]
    exact ⟨p, hp, hx⟩

/-! ## Levels of the recursion -/

/-- Every node has a neighbour other than itself. -/
def Simple.Graph.NoIsolated (g : Graph ν) : Prop := ∀ x ∈ g.nodes, ∃ y, (x, y) ∈ g.edges ∧ y ≠ x

/-- Every node lies on a basic path within the graph. -/
def Spanned (basic : List (List ν)) (g : Graph ν) : Prop :=
  ∀ x ∈ g.nodes, ∃ path ∈ basic, x ∈ path ∧ ∀ u ∈ path, u ∈ g.nodes

/-- The search for the probe graph adds whole basic paths. -/
theorem spanned_bestProbe {basic : List (List ν)} (hQ : Q.WF)
    (hbasic : ∀ path ∈ basic, (∀ u ∈ path, u ∈ Q.nodes) ∧ ∀ e ∈ steps path, e ∈ Q.edges) (fuel : Nat)
    {candidates : List (Graph ν)} {probe : Graph ν} (h : probe.Sub Q ∧ Spanned basic probe)
    (hcand : ∀ c ∈ candidates, c.Sub Q ∧ Spanned basic c) :
    Spanned basic (bestProbe basic fuel candidates probe) := by
  induction fuel generalizing candidates probe with
  | zero => exact h.2
  | succ fuel ih =>
    obtain ⟨hin, hout⟩ := improve_mem basic candidates probe
    rw [bestProbe]
    generalize improve basic candidates probe = r at hin hout
    obtain ⟨best, improved⟩ := r
    have hbest : best.Sub Q ∧ Spanned basic best := by
      cases improved with
      | true => exact hcand best (hin rfl)
      | false =>
        obtain rfl : best = probe := hout rfl
        exact h
    dsimp only
    split
    · exact hbest.2
    split
    · refine ih hbest fun c hc => ?_
      obtain ⟨path, hpath, rfl⟩ := mem_map.mp hc
      have hpath := (mem_filter.mp hpath).1
      obtain ⟨hsub, hnodes⟩ := pathToGraph_sub hQ (hbasic path hpath).1 (hbasic path hpath).2
      obtain ⟨hmerge, hmem⟩ := hbest.1.merge hQ hsub
      refine ⟨hmerge, fun x hx => ?_⟩
      rcases (hmem x).mp hx with hx | hx
      · exact ⟨path, hpath, (hnodes x).mp hx, fun u hu => (hmem u).mpr (.inl ((hnodes u).mpr hu))⟩
      · obtain ⟨path', hpath', hxp, hall⟩ := hbest.2 x hx
        exact ⟨path', hpath', hxp, fun u hu => (hmem u).mpr (.inr (hall u hu))⟩
    · exact hbest.2

theorem spanned_probe (sh : Shuffle ν) (hQ : Q.WF) :
    Spanned (findBasicCycleIntersection Q) (findBestCycleJoin sh Q).1 := by
  rw [findBestCycleJoin]
  split
  · exact fun x hx => absurd hx (by simp [Graph.empty])
  have hperm := sh.perm (findBasicCycleIntersection Q)
  generalize sh.shuffle (findBasicCycleIntersection Q) = basic at hperm
  have hwithin (path) (h : path ∈ basic) := basic_within hQ (hperm.mem_iff.mp h)
  obtain ⟨hprobe, -⟩ := bestProbe_spec hQ hwithin (Q.nodes.length + 2) (Graph.sub_empty Q)
    (larger_basic hQ fun path h => hperm.mem_iff.mp h) (by omega)
  have hempty : Spanned basic .empty := fun x hx => absurd hx (by simp [Graph.empty])
  have hcand : ∀ c ∈ basic.map pathToGraph, c.Sub Q ∧ Spanned basic c := by
    intro c hc
    obtain ⟨path, hpath, rfl⟩ := mem_map.mp hc
    obtain ⟨hsub, hnodes⟩ := pathToGraph_sub hQ (hwithin path hpath).1 (hwithin path hpath).2
    exact ⟨hsub, fun x hx => ⟨path, hpath, (hnodes x).mp hx, fun u hu => (hnodes u).mpr hu⟩⟩
  have hspan := spanned_bestProbe hQ hwithin (Q.nodes.length + 2) ⟨Graph.sub_empty Q, hempty⟩ hcand
  -- the induced graph has the same nodes
  have hnodes := (Graph.induced_induce hQ hprobe).2
  intro x hx
  obtain ⟨path, hpath, hxp, hall⟩ := hspan x (hnodes.symm ▸ hx)
  exact ⟨path, hperm.mem_iff.mp hpath, hxp, fun u hu => hnodes.symm ▸ hall u hu⟩

theorem noIsolated_probe (sh : Shuffle ν) (hQ : Q.WF) : (findBestCycleJoin sh Q).1.NoIsolated := by
  have hinduced := (findBestCycleJoin_spec sh hQ).1
  -- the neighbour on a basic path is in the probe graph too
  intro x hx
  obtain ⟨path, hpath, hxp, hall⟩ := spanned_probe sh hQ x hx
  have hnodup := basic_nodup hQ hpath
  obtain ⟨y, hy⟩ := exists_step_of_mem (basic_kept hQ hpath).chain.two_le_length hxp
  have hne : y ≠ x := by
    rintro rfl
    obtain ⟨pre, post, rfl⟩ := mem_steps.mp (hy.elim id id)
    simp [nodup_append] at hnodup
  have hyp : y ∈ path := hy.elim (fun h => (mem_of_mem_steps h).2) fun h => (mem_of_mem_steps h).1
  refine ⟨y, hinduced.edges.mpr ⟨?_, hx, hall y hyp⟩, hne⟩
  have hwithin := (basic_within hQ hpath).2
  exact hy.elim (hwithin _) fun h => hQ.symm (hwithin _ h)

theorem noIsolated_remaining (hQ : Q.WF) (hg : g ∈ remainingGraphsSimple Q (findBestCycleJoin sh Q).1
      ((findBestCycleJoin sh Q).2.map buildGraphSimple)) : g.NoIsolated := by
  have hpart := remaining_isPart hQ hg
  intro x hx
  obtain ⟨y, hy, hne⟩ := hpart.exists_ne (by simpa using (mem_filter.mp hg).2) hx
  exact ⟨y, hpart.edges.mpr ⟨hy, hx⟩, hne⟩

/-- A part has a rel for each of its edges between different nodes. -/
theorem mem_edges_partOf (hsub : g.Sub (fromQueryGraph qg.toQueryGraph)) {a b : ν}
    (hab : (a, b) ∈ g.edges) (hne : a ≠ b) :
    (a, b) ∈ (fromQueryGraph (toQueryGraph g qg.toQueryGraph)).edges := by
  obtain ⟨rel, hget⟩ := getRel_isSome (((fromQueryGraph_spec qg).2.2 a b).mp (hsub.edges hab))
  have hmem := (mem_queryRels_toQueryGraph qg.namesUnique hsub.wf).mpr ⟨a, b, hab, hne, hget⟩
  exact ((fromQueryGraph_spec (partOf qg g hsub.wf)).2.2 a b).mpr ⟨rel, hmem, (between_of_getRel hget).2⟩

theorem noIsolated_partOf (hsub : g.Sub (fromQueryGraph qg.toQueryGraph)) (h : g.NoIsolated) :
    (fromQueryGraph (toQueryGraph g qg.toQueryGraph)).NoIsolated := by
  intro x hx
  have hxg := mem_queryNodes_toQueryGraph.mp (((fromQueryGraph_spec (partOf qg g hsub.wf)).2.1 x).mp hx)
  obtain ⟨y, hy, hne⟩ := h x hxg
  exact ⟨y, mem_edges_partOf hsub hy hne.symm, hne⟩

/-- Where a node of the query graph is after one level: a node that no path and no probe graph takes has a
remaining edge. -/
theorem level_cases (sh : Shuffle ν) (hQ : Q.WF) (hne : Q.NoIsolated) (hx : x ∈ Q.nodes) :
    x ∈ (findBestCycleJoin sh Q).1.nodes ∨
      (∃ tree ∈ (findBestCycleJoin sh Q).2, ∃ p ∈ tree, p.getLast? = some x) ∨
      x ∈ interiorNodes (findBestCycleJoin sh Q).2 ∨
      ∃ g ∈ remainingGraphsSimple Q (findBestCycleJoin sh Q).1 ((findBestCycleJoin sh Q).2.map buildGraphSimple),
        x ∈ g.nodes := by
  by_cases hshared : x ∈ (findBestCycleJoin sh Q).1.nodes ∨ ∃ tree ∈ (findBestCycleJoin sh Q).2, ∃ p ∈ tree, x ∈ p
  · rcases shared_cases hQ hshared with h | ⟨tree, htree, p, hp, h | h⟩
    · exact .inl h
    · exact .inr (.inl ⟨tree, htree, p, hp, h⟩)
    · exact .inr (.inr (.inl (mem_interiorNodes.mpr ⟨tree, htree, p, hp, h⟩)))
  · push Not at hshared
    obtain ⟨y, hy, hyx⟩ := hne x hx
    refine .inr (.inr (.inr (exists_remaining sh hQ ((mem_remainingEdges_iff sh hQ x y).mpr ⟨hy, ?_, ?_⟩) hyx.symm)))
    · exact fun h => hshared.1 h.1
    · exact fun tree htree p hp => ⟨fun h => hshared.2 tree htree p hp (mem_of_mem_steps h).1,
        fun h => hshared.2 tree htree p hp (mem_of_mem_steps h).2⟩

section

variable (shuffles : PlannedGraph ν π → Shuffle ν)

theorem mem_planSchema_or_interior (fuel : Nat) (qg : BoundQueryGraph ν)
    (hfuel : qg.queryRels.length < fuel) (hne : (fromQueryGraph qg.toQueryGraph).NoIsolated) (hx : x ∈ qg.queryNodes) :
    x ∈ planSchema vars shuffles fuel (qg.toQueryGraph, info) ∨
      x ∈ planInterior vars shuffles fuel (qg.toQueryGraph, info) := by
  induction fuel generalizing qg info with
  | zero => omega
  | succ fuel ih =>
    rw [planSchema, planInterior]
    split
    · exact .inl hx
    cases h : planQueryGraphWithMultiwayIntersect vars (shuffles (qg.toQueryGraph, info)) qg.toQueryGraph info with
    | none => exact .inl hx
    | some plan =>
      obtain ⟨hQ, hnodes, -⟩ := fromQueryGraph_spec qg
      obtain ⟨⟨hprobe, -⟩, hremaining, -, -⟩ := planned_cases h
      obtain ⟨hsubs, -, -⟩ := parts_spec hQ (shuffles (qg.toQueryGraph, info))
      obtain ⟨-, rfl⟩ := plan_eq h
      simp only [CycleJoinPlan.schema, mem_append]
      rcases level_cases (shuffles (qg.toQueryGraph, info)) hQ hne ((hnodes x).mpr hx) with
        hxp | ⟨tree, htree, p, hp, hxl⟩ | hxi | ⟨g, hg, hxg⟩
      · -- a node of the probe graph is looked up in the plan of the probe side
        have hsub := (findBestCycleJoin_spec (shuffles (qg.toQueryGraph, info)) hQ).1.sub
        rcases ih (partOf qg _ hsub.wf) (lt_of_lt_of_le hprobe.1 (Nat.le_of_lt_succ hfuel))
          (noIsolated_partOf hsub (noIsolated_probe _ hQ)) (mem_queryNodes_toQueryGraph.mpr hxp) with h | h
        exacts [.inl (.inl (.inl h)), .inr (.inr (.inl h))]
      · exact .inl (.inl (.inr (mem_flatMap.mpr ⟨_, mem_map_of_mem htree, mem_buildNodes hQ htree hp hxl⟩)))
      · exact .inr (.inl hxi)
      · have hsub := hsubs g (mem_cons_of_mem _ (mem_append_right _ hg))
        rcases ih (partOf qg g hsub.wf)
          (lt_of_lt_of_le (hremaining _ (mem_map_of_mem hg)).1 (Nat.le_of_lt_succ hfuel))
          (noIsolated_partOf hsub (noIsolated_remaining hQ hg)) (mem_queryNodes_toQueryGraph.mpr hxg) with h | h
        · exact .inl (.inr (mem_flatMap.mpr ⟨_, mem_map_of_mem hg, h⟩))
        · exact .inr (.inr (.inr (mem_flatMap.mpr ⟨_, mem_map_of_mem hg, h⟩)))

/-- A node inside a build path of some level has its two neighbours on the path. -/
theorem planInterior_neighbors (fuel : Nat) (qg : BoundQueryGraph ν)
    (hx : x ∈ planInterior vars shuffles fuel (qg.toQueryGraph, info)) :
    ∃ a c, a ≠ c ∧ (x, a) ∈ (fromQueryGraph qg.toQueryGraph).edges ∧
      (x, c) ∈ (fromQueryGraph qg.toQueryGraph).edges := by
  induction fuel generalizing qg info with
  | zero => cases hx
  | succ fuel ih =>
    rw [planInterior] at hx
    cases h : planQueryGraphWithMultiwayIntersect vars (shuffles (qg.toQueryGraph, info)) qg.toQueryGraph info with
    | none =>
      simp only [h] at hx
      cases hx
    | some plan =>
      simp only [h, mem_append] at hx
      obtain ⟨-, rfl⟩ := plan_eq h
      have hQ := (fromQueryGraph_spec qg).1
      obtain ⟨hsubs, -, -⟩ := parts_spec hQ (shuffles (qg.toQueryGraph, info))
      rcases hx with hx | hx | hx
      · obtain ⟨tree, htree, p, hp, hx⟩ := mem_interiorNodes.mp hx
        obtain ⟨a, c, -, -, hne, hcore⟩ := interior_core hQ htree hp hx
        have hsub := (core_spec hQ).1.sub
        exact ⟨a, c, hne, hsub.edges ((hcore a).mpr (.inl rfl)), hsub.edges ((hcore c).mpr (.inr rfl))⟩
      · have hsub := (findBestCycleJoin_spec (shuffles (qg.toQueryGraph, info)) hQ).1.sub
        obtain ⟨a, c, hne, ha, hc⟩ := ih (partOf qg _ hsub.wf) hx
        exact ⟨a, c, hne, hsub.edges (edges_fromQueryGraph_partOf hsub.wf ha),
          hsub.edges (edges_fromQueryGraph_partOf hsub.wf hc)⟩
      · obtain ⟨side, hside, hx⟩ := mem_flatMap.mp hx
        obtain ⟨g, hg, rfl⟩ := mem_map.mp hside
        have hsub := hsubs g (mem_cons_of_mem _ (mem_append_right _ hg))
        obtain ⟨a, c, hne, ha, hc⟩ := ih (partOf qg g hsub.wf) hx
        exact ⟨a, c, hne, hsub.edges (edges_fromQueryGraph_partOf hsub.wf ha),
          hsub.edges (edges_fromQueryGraph_partOf hsub.wf hc)⟩

end

/-- With two neighbours a node has no remaining edge if the probe graph has two edges at it. -/
theorem probe_isolated (hQ : Q.WF) (hlen : (Q.getNeighbors x).length = 2) {a c y : ν} (hne : a ≠ c)
    (ha : (x, a) ∈ (findBestCycleJoin sh Q).1.edges) (hc : (x, c) ∈ (findBestCycleJoin sh Q).1.edges) :
    ¬ RemainingEdge Q (findBestCycleJoin sh Q).1 (findBestCycleJoin sh Q).2 x y := by
  have hinduced := (findBestCycleJoin_spec sh hQ).1
  rintro ⟨hxy, hprobe, -⟩
  have hin {z : ν} (hz : (x, z) ∈ (findBestCycleJoin sh Q).1.edges) : z ∈ Q.getNeighbors x :=
    Graph.mem_getNeighbors.mpr (hinduced.edges.mp hz).1
  have hy : y = a ∨ y = c := by
    by_cases hya : y = a
    · exact .inl hya
    · exact .inr (other_unique hlen (hin ha) (Graph.mem_getNeighbors.mpr hxy) hya (hin hc) hne.symm)
  rcases hy with rfl | rfl
  exacts [hprobe (hinduced.edges.mp ha).2, hprobe (hinduced.edges.mp hc).2]

/-- In a connected query graph all join nodes are in scope if every node inside a build path, of the plan
or of the plan of its probe side, has exactly two neighbours. For the build paths of the plan itself the
converse holds. A node inside a build path of the probe side may be output by another part. -/
theorem joinsInScope_of_two_neighbors (shuffles : PlannedGraph ν π → Shuffle ν) (fuel : Nat)
    (hfuel : qg.queryRels.length ≤ fuel) (hconn : qg.Connected)
    (h : planQueryGraphWithMultiwayIntersect vars sh qg.toQueryGraph info = some plan) :
    let interior := interiorNodes (findBestCycleJoin sh (fromQueryGraph qg.toQueryGraph)).2
    let scope := planSchema vars shuffles fuel
    let TwoNeighbors (x : ν) := ((fromQueryGraph qg.toQueryGraph).getNeighbors x).length = 2
    ((∀ x ∈ interior ++ planInterior vars shuffles fuel plan.probe, TwoNeighbors x) →
      plan.JoinsInScope scope interior (plan.schema scope) plan.remaining) ∧
    (plan.JoinsInScope scope interior (plan.schema scope) plan.remaining →
      ∀ x ∈ interior, TwoNeighbors x) := by
  intro interior scope TwoNeighbors
  obtain ⟨hQ, hnodes, hedges⟩ := fromQueryGraph_spec qg
  obtain ⟨⟨hfewer, -⟩, -, -, -⟩ := planned_cases h
  obtain ⟨hprobe, rfl⟩ := plan_eq h
  have hconn' : ∀ a ∈ (fromQueryGraph qg.toQueryGraph).nodes,
      ∀ b ∈ (fromQueryGraph qg.toQueryGraph).nodes,
      Relation.ReflTransGen (fun a b => (a, b) ∈ (fromQueryGraph qg.toQueryGraph).edges) a b := by
    simp only [hnodes, hedges]
    exact hconn
  constructor
  · intro hlen
    refine CycleJoinPlan.joinsInScope_of_forall (fun side hside => ?_) fun _ => id
    obtain ⟨g, hg, rfl⟩ := mem_map.mp hside
    -- every node of a remaining graph has a remaining edge
    have hremains {x : ν} (hxg : x ∈ g.nodes) : ∃ y, RemainingEdge (fromQueryGraph qg.toQueryGraph)
        (findBestCycleJoin sh (fromQueryGraph qg.toQueryGraph)).1
        (findBestCycleJoin sh (fromQueryGraph qg.toQueryGraph)).2 x y := by
      obtain ⟨y, hy, -⟩ := (remaining_isPart hQ hg).exists_ne (by simpa using (mem_filter.mp hg).2) hxg
      exact ⟨y, (mem_remainingEdges_iff sh hQ _ _).mp hy⟩
    have hinner {x : ν} (hxg : x ∈ g.nodes) : x ∉ interior := fun hxi => by
      obtain ⟨tree, htree, p, hp, hxp⟩ := mem_interiorNodes.mp hxi
      obtain ⟨y, hy⟩ := hremains hxg
      exact interior_isolated hQ htree hp hxp (hlen x (mem_append_left _ hxi)) hy
    refine ⟨joinNodes_ne_nil hQ hconn' hprobe hg, fun x => ?_, fun x hx => ?_⟩
    · simp [remainingSide, mem_joinNodes, toQueryGraphAndInfo, mem_queryNodes_toQueryGraph, buildSide, (buildGraphSimple_spec _).2.1]
    · obtain ⟨hxg, hx⟩ := mem_joinNodes.mp hx
      refine ⟨?_, hinner hxg⟩
      rw [CycleJoinPlan.schema, mem_append]
      rcases shared_cases hQ hx with hx | ⟨tree, htree, p, hp, hxl | hxi⟩
      · -- a node inside a build path of the probe side has no remaining edge either
        have hsub := (findBestCycleJoin_spec sh hQ).1.sub
        refine .inl ((mem_planSchema_or_interior shuffles fuel (partOf qg _ hsub.wf)
          (lt_of_lt_of_le hfewer.1 hfuel) (noIsolated_partOf hsub (noIsolated_probe sh hQ))
          (mem_queryNodes_toQueryGraph.mpr hx)).resolve_right fun hxi => ?_)
        obtain ⟨a, c, hne, ha, hc⟩ := planInterior_neighbors shuffles fuel (partOf qg _ hsub.wf) hxi
        obtain ⟨y, hy⟩ := hremains hxg
        exact probe_isolated hQ (hlen x (mem_append_right _ hxi)) hne
          (edges_fromQueryGraph_partOf hsub.wf ha) (edges_fromQueryGraph_partOf hsub.wf hc) hy
      · exact .inr (mem_flatMap.mpr ⟨_, mem_map_of_mem htree, mem_buildNodes hQ htree hp hxl⟩)
      · exact absurd (mem_interiorNodes.mpr ⟨tree, htree, p, hp, hxi⟩) (hinner hxg)
  · intro hscope x hxi
    obtain ⟨tree, htree, p, hp, hxp⟩ := mem_interiorNodes.mp hxi
    by_contra hlen
    obtain ⟨y, hy, hne⟩ := interior_remains hQ htree hp hxp hlen
    obtain ⟨g, hg, hxg⟩ := exists_remaining sh hQ ((mem_remainingEdges_iff sh hQ _ _).mpr hy) hne
    -- the node is a key of the join with its component
    refine hscope.not_interior (mem_map_of_mem hg) (mem_joinNodes.mpr ⟨hxg, .inr ?_⟩) hxi
    exact ⟨tree, htree, p, hp, mem_of_mem_tail (mem_of_mem_dropLast hxp)⟩

end Joins

/-- A query graph is connected if every node but the first has a rel to a lower node. -/
theorem BoundQueryGraph.connected_of_lower (qg : BoundQueryGraph Nat) (h : ∀ x ∈ qg.queryNodes, x ≠ 0 →
      ∃ rel ∈ qg.queryRels, rel.srcNodeName < x ∧ rel.dstNodeName = x ∨
        rel.dstNodeName < x ∧ rel.srcNodeName = x) : qg.Connected := by
  have hreach (x : Nat) (hx : x ∈ qg.queryNodes) :
      Relation.ReflTransGen (fun a b => ∃ rel ∈ qg.queryRels, rel.Between a b) 0 x := by
    induction x using Nat.strongRecOn with
    | ind x ih =>
      by_cases h0 : x = 0
      · exact h0 ▸ .refl
      obtain ⟨rel, hrel, ⟨hlt, rfl⟩ | ⟨hlt, rfl⟩⟩ := h x hx h0
      · exact (ih _ hlt (qg.ends rel hrel).1).tail ⟨rel, hrel, rel.between_self⟩
      · exact (ih _ hlt (qg.ends rel hrel).2).tail ⟨rel, hrel, rel.between_self.swap⟩
  intro a ha b hb
  refine Relation.ReflTransGen.trans ?_ (hreach b hb)
  exact Relation.ReflTransGen.mono (fun _ _ ⟨rel, hrel, hb⟩ => ⟨rel, hrel, hb.swap⟩) _ _ (hreach a ha).swap

/-- Nodes 0 and 1 with a rel between them, a way over node 2 and a way over nodes 3 and 4; node 5
hangs on one of these nodes. -/
def hanging (node : Fin 5) : BoundQueryGraph Nat where
  queryNodes := [0, 1, 2, 3, 4, 5]
  queryRels :=
    [⟨10, 0, 1⟩, ⟨11, 0, 3⟩, ⟨12, 3, 4⟩, ⟨13, 4, 1⟩, ⟨14, 0, 2⟩, ⟨15, 2, 1⟩, ⟨16, node, 5⟩]
  nodup_nodes := by decide
  nodup_rels := by simp
  ends := by revert node; decide

/-- Nodes 0 and 1 with a rel between them, ways over nodes 2, 4 and 7 and a way over nodes 5 and 3; node
6 hangs on one of these nodes. The probe graph has the way over nodes 5 and 3 and is a cycle join too. -/
def nested (node : Fin 6) : BoundQueryGraph Nat where
  queryNodes := [0, 1, 2, 3, 4, 5, 6, 7]
  queryRels :=
    [⟨10, 0, 1⟩, ⟨11, 0, 2⟩, ⟨12, 0, 4⟩, ⟨13, 0, 5⟩, ⟨14, 0, 7⟩, ⟨15, 1, 2⟩, ⟨16, 1, 3⟩, ⟨17, 1, 4⟩,
      ⟨18, 1, 7⟩, ⟨19, 3, 5⟩, ⟨20, node, 6⟩]
  nodup_nodes := by decide
  nodup_rels := by simp
  ends := by revert node; decide

theorem nested_connected (node : Fin 6) : (nested node).Connected :=
  BoundQueryGraph.connected_of_lower _ (by revert node; decide)

theorem nested_planned : (planOf (nested 3) []).isSome := by decide +kernel

/-- Node 5 lies inside a build path of the probe side. Node 6 hangs on node 3, the end of that path. -/
theorem nested_inScope :
    let plan := (planOf (nested 3) []).get nested_planned
    let scope := planSchema id (fun _ => noShuffle) 11
    planInterior id (fun _ => noShuffle) 11 plan.probe = [5] ∧ plan.remaining.map (·.joinNodes) = [[3]] ∧
    plan.JoinsInScope scope (interiorNodes (findBestCycleJoin noShuffle (fromQueryGraph (nested 3).toQueryGraph)).2)
      (plan.schema scope) plan.remaining := by
  intro plan scope
  have hplan : planOf (nested 3) [] = some plan := (Option.some_get nested_planned).symm
  have hlen : ∀ x ∈ interiorNodes (findBestCycleJoin noShuffle (fromQueryGraph (nested 3).toQueryGraph)).2 ++
      planInterior id (fun _ => noShuffle) 11 plan.probe,
      ((fromQueryGraph (nested 3).toQueryGraph).getNeighbors x).length = 2 := by
    decide +kernel
  refine ⟨by decide +kernel, by decide +kernel, ?_⟩
  generalize plan = plan at hplan hlen
  exact (joinsInScope_of_two_neighbors (fun _ => noShuffle) 11 (by decide) (nested_connected 3) hplan).1 hlen

omit [LinearOrder ν] in
theorem CycleJoinPlan.not_joinsInScope {plan : CycleJoinPlan ν π} {scope : PlannedGraph ν π → List ν}
    {interior schema : List ν} {x : ν} (hkeys : plan.remaining.map (·.joinNodes) = [[x]]) (hx : x ∉ schema) :
    ¬ plan.JoinsInScope scope interior schema plan.remaining := by
  obtain ⟨side, hside, hjoin⟩ := map_eq_singleton_iff.mp hkeys
  rw [hside]
  exact fun hscope => hx (hscope.1.2.2 x (by simp [hjoin])).1

/-- Some join node of the plan of the query graph is not in scope. -/
def JoinsOutOfScope (qg : BoundQueryGraph Nat) : Prop :=
  ∃ plan, planOf qg [] = some plan ∧ ¬ plan.JoinsInScope (planSchema id (fun _ => noShuffle) 11)
    (interiorNodes (findBestCycleJoin noShuffle (fromQueryGraph qg.toQueryGraph)).2)
    (plan.schema (planSchema id (fun _ => noShuffle) 11)) plan.remaining

theorem joinsOutOfScope_of_key {qg : BoundQueryGraph Nat} {x : Nat} (h : ∃ plan, planOf qg [] = some plan ∧
      plan.remaining.map (·.joinNodes) = [[x]] ∧ x ∉ plan.schema (planSchema id (fun _ => noShuffle) 11)) :
    JoinsOutOfScope qg := by
  obtain ⟨plan, hplan, hkeys, hx⟩ := h
  exact ⟨plan, hplan, plan.not_joinsInScope hkeys hx⟩

/-- In the first query graph node 3 lies inside the build path to node 4, in the second node 5 inside a
build path of the probe side. With a rel to one more node it is the key of a join and not in scope. -/
theorem joinKeys_not_inScope :
    ((hanging 3).Connected ∧ JoinsOutOfScope (hanging 3)) ∧ (nested 5).Connected ∧ JoinsOutOfScope (nested 5) := by
  have hhanging : (planOf (hanging 3) []).any fun plan => plan.remaining.map (·.joinNodes) = [[3]] ∧
      3 ∉ plan.schema (planSchema id (fun _ => noShuffle) 11) := by decide +kernel
  have hnested : (planOf (nested 5) []).any fun plan => plan.remaining.map (·.joinNodes) = [[5]] ∧
      5 ∉ plan.schema (planSchema id (fun _ => noShuffle) 11) := by decide +kernel
  simp only [Option.any_eq_true, decide_eq_true_eq] at hhanging hnested
  exact ⟨⟨BoundQueryGraph.connected_of_lower _ (by decide), joinsOutOfScope_of_key hhanging⟩,
    nested_connected 5, joinsOutOfScope_of_key hnested⟩

end CycleJoin
