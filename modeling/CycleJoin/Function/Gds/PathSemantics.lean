import CycleJoin.Function.Gds.VariableLengthRows

/-!
# Path semantics and path node masks

`dfsSlow` prunes a path while it grows: a parent that is pushed is checked against the whole path, one
that replaces the top against the path without the top. The checks for trails agree. Those for acyclic
paths skip the first element, which stands for the last inner node, the append check skips the top as
well, and both compare the source with inner nodes.

* `PathsOutputWriterInfo.Passes`: what the semantic and the mask ask of a walk.
* `PathsOutputWriterInfo.Kept`: what the search asks of it.
* `RepeatsSeen`: the nodes that a walk visits twice are where the checks for acyclic paths look.
* `dfsSlow_exact`: walks and trails are filtered exactly, and acyclic paths if this holds of all walks
  within the bounds. A walk that never goes from a node to itself has to meet it.
-/

namespace CycleJoin

open List PathsOutputWriterInfo

variable {V E : Type} [DecidableEq V] [DecidableEq E]

namespace PathsOutputWriterInfo

variable (info : PathsOutputWriterInfo V)

/-! ## What is asked of a walk -/

/-- The inner nodes of a walk pass the mask. -/
def PassesMask (walk : List (Hop V E)) : Prop :=
  ∀ mask, info.pathNodeMask = some mask → ∀ hop ∈ walk.dropLast, mask hop.node = true

/-- The semantic and the path node mask hold. -/
def Passes (walk : List (Hop V E)) : Prop :=
  info.PassesMask walk ∧ match info.semantic with
    | .walk => True
    | .trail => (walk.map (·.edge)).Nodup
    | .acyclic => (walk.dropLast.map (·.node)).Nodup

/-- The paths are those of all walks to the destination within the bounds that pass, once each. -/
def WritesExactly (G : HopGraph V (Hop V E)) (source dst : V) (upperBound : Nat)
    (paths : List (List (ParentEntry V E))) : Prop :=
  (paths.map (List.map (·.toHop))).Nodup ∧ ∀ walk, walk ∈ paths.map (List.map (·.toHop)) ↔
    G.IsWalk source walk dst ∧ info.lowerBound.toNat ≤ walk.length ∧ walk.length ≤ upperBound ∧
      info.Passes walk

/-- `dfsSlow` from the first parent of a destination, for a lower bound that is not zero. -/
def slowPaths (parents : V → ParentList V E) (fuel : Nat) (dst : V) :
    Option (List (List (ParentEntry V E))) :=
  match info.findFirstParent (parents dst) with
  | [] => some []
  | first :: next =>
    if first.iter < info.lowerBound.toNat then some [] else dfsSlow info parents fuel (first :: next)

/-! ## The checks -/

section
variable (path : List (ParentEntry V E)) (e : ParentEntry V E)

def appendCheck : Bool :=
  info.checkPathNodeMask e && info.checkAppendSemantic path e

def replaceCheck : Bool :=
  info.checkPathNodeMask e && info.checkReplaceTopSemantic path e

/-- The replace check of a path without its top, which the check does not read. -/
def replaceBelow : Bool :=
  info.replaceCheck (path ++ [e]) e

end

theorem replaceCheck_ignoresTop : IgnoresTop info.replaceCheck (info.replaceBelow (E := E)) := by
  intro path top
  funext e
  simp [replaceBelow, replaceCheck, checkReplaceTopSemantic, isReplaceTopTrail, isReplaceTopAcyclic]

theorem appendCheck_of_replaceBelow (path : List (ParentEntry V E)) (e : ParentEntry V E)
    (h : info.replaceBelow path e = true) : info.appendCheck path e = true := by
  simp only [replaceBelow, replaceCheck, checkReplaceTopSemantic, isReplaceTopTrail,
    isReplaceTopAcyclic, length_append, length_singleton, Nat.add_sub_cancel,
    take_left', Bool.and_eq_true] at h
  simp only [appendCheck, checkAppendSemantic, Bool.and_eq_true]
  refine ⟨h.1, ?_⟩
  cases hs : info.semantic with
  | walk => rfl
  | trail => simpa [hs, isAppendTrail] using h.2
  | acyclic =>
    simp only [hs, isAppendAcyclic, all_eq_true] at h ⊢
    intro e' he'
    exact h.2 e' (((take_sublist _ _).drop 1).subset he')

theorem replaceBelow_eq_appendCheck (hsem : info.semantic ≠ .acyclic) (path : List (ParentEntry V E))
    (e : ParentEntry V E) : info.replaceBelow path e = info.appendCheck path e := by
  simp only [replaceBelow, replaceCheck, appendCheck, checkReplaceTopSemantic, checkAppendSemantic,
    isReplaceTopTrail, length_append, length_singleton, Nat.add_sub_cancel,
    take_left']
  cases hs : info.semantic with
  | walk => rfl
  | trail => rfl
  | acyclic => exact absurd hs hsem

end PathsOutputWriterInfo

/-! ## The paths of the search -/

/-- The parents of a walk: each hop with its position from the source. -/
def parentsOf : List (Hop V E) → List (ParentEntry V E)
  | [] => []
  | hop :: walk => ⟨hop, walk.length + 1⟩ :: parentsOf walk

omit [DecidableEq V] [DecidableEq E] in
@[simp]
theorem map_toHop_parentsOf (walk : List (Hop V E)) : (parentsOf walk).map (·.toHop) = walk := by
  induction walk with
  | nil => rfl
  | cons hop walk ih => rw [parentsOf, map_cons, ih]

omit [DecidableEq V] [DecidableEq E] in
theorem eq_parentsOf_of_mem_parentWalks {parents : V → ParentList V E} {k : Nat} {node : V}
    {walk : List (ParentEntry V E)} (h : walk ∈ parentWalks parents k node) :
    walk = parentsOf (walk.map (·.toHop)) ∧ walk.length = k := by
  induction k generalizing node walk with
  | zero =>
    obtain rfl := mem_singleton.mp h
    exact ⟨rfl, rfl⟩
  | succ k ih =>
    simp only [parentWalks, HopGraph.walksBy, mem_flatMap, mem_filter, decide_eq_true_eq, mem_map] at h
    obtain ⟨e, ⟨-, hi⟩, tail, ht, rfl⟩ := h
    obtain ⟨heq, hlen⟩ := ih ht
    refine ⟨?_, congrArg (· + 1) hlen⟩
    rw [map_cons, parentsOf, ← heq, length_map, hlen, ← hi]

namespace PathsOutputWriterInfo

variable (info : PathsOutputWriterInfo V)

/-- The search keeps a walk: its parents pass the mask, and at each position but the first the parent
passes the replace check, or it is the first one in its list that passes the append check. -/
def Kept (parents : V → ParentList V E) (walk : List (Hop V E)) : Prop :=
  match parentsOf walk with
  | [] => False
  | e :: tail => info.checkPathNodeMask e = true ∧
      SearchKeeps info.appendCheck info.replaceBelow parents [e] e.node tail

/-- The paths that `dfsSlow` writes. -/
def searchPaths (parents : V → ParentList V E) (dst : V) : List (List (ParentEntry V E)) :=
  ((parents dst).filter fun e => info.checkPathNodeMask e && info.lowerBound.toNat ≤ e.iter).flatMap
    fun e => explore info.appendCheck info.replaceBelow parents (e.iter - 1) [e] e.node

end PathsOutputWriterInfo

section

variable {G : HopGraph V (Hop V E)} {source : V} {n : Nat} {parents : V → ParentList V E}
  {info : PathsOutputWriterInfo V}

theorem replaceBelow_nil (e : ParentEntry V E) : info.replaceBelow [] e = info.checkPathNodeMask e := by
  simp only [replaceBelow, replaceCheck, checkReplaceTopSemantic]
  cases info.semantic <;> simp [isReplaceTopTrail, isReplaceTopAcyclic]

omit [DecidableEq V] [DecidableEq E] in
theorem filter_dropWhile_not {α : Type} (p : α → Bool) (list : List α) :
    (list.dropWhile fun e => !p e).filter p = list.filter p := by
  induction list with
  | nil => rfl
  | cons e list ih =>
    cases he : p e with
    | true => simp [he]
    | false => simpa [he] using ih

omit [DecidableEq V] [DecidableEq E] in
/-- A first parent that is far enough is one of the parents that can start a path, and the search finds
all others after it. -/
theorem findFirstParent_spec (info : PathsOutputWriterInfo V) (list : ParentList V E) :
    (info.findFirstParent list).IsSuffix list ∧
      list.filter (fun e => info.checkPathNodeMask e && info.lowerBound.toNat ≤ e.iter) =
        (info.findFirstParent list).filter (fun e => info.checkPathNodeMask e && info.lowerBound.toNat ≤ e.iter) ∧
      ∀ first ∈ (info.findFirstParent list).head?, info.checkPathNodeMask first = true := by
  cases hfast : info.isFast with
  | true =>
    have hmask : info.pathNodeMask = none := by
      simp only [isFast, hasNodeMask, Bool.and_eq_true,
        Bool.not_eq_true', Option.isSome_eq_false_iff, Option.isNone_iff_eq_none] at hfast
      exact hfast.1
    simp [findFirstParent, hfast, checkPathNodeMask, hmask]
  | false =>
    simp only [findFirstParent, hfast]
    refine ⟨dropWhile_suffix _, (filter_dropWhile_not _ _).symm, fun first hfirst => ?_⟩
    have hfind := find?_eq_head?_dropWhile_not (fun e : ParentEntry V E =>
      info.checkPathNodeMask e && info.lowerBound.toNat ≤ e.iter) list
    have hpass := find?_some (hfind.trans hfirst)
    exact (Bool.and_eq_true .. ▸ hpass).1

theorem slowPaths_eq (info : PathsOutputWriterInfo V) (h : ParentLayers G source n parents) (dst : V) :
    ∃ rounds, ∀ fuel, rounds ≤ fuel → info.slowPaths parents fuel dst = some (info.searchPaths parents dst) := by
  have hpos : ∀ node, ∀ e ∈ parents node, e.iter ≠ 0 := fun node e he => by
    have := (h.mem.mp he).2.1
    omega
  obtain ⟨hsuffix, hfilter, hmask⟩ := findFirstParent_spec info (parents dst)
  simp only [slowPaths, searchPaths, hfilter]
  cases hfirst : info.findFirstParent (parents dst) with
  | nil => exact ⟨0, fun _ _ => rfl⟩
  | cons first next =>
    rw [hfirst] at hsuffix hmask
    have hsorted : IterSorted (first :: next) := (h.sorted dst).sublist hsuffix.sublist
    have htake := hsorted.filter_le_eq_takeWhile info.lowerBound.toNat
    have hsplit : (first :: next).filter (fun e => info.checkPathNodeMask e && info.lowerBound.toNat ≤ e.iter) =
        ((first :: next).takeWhile (info.lowerBound.toNat ≤ ·.iter)).filter (info.replaceBelow []) := by
      rw [← htake]
      simp [replaceBelow_nil]
    rw [hsplit]
    by_cases hlt : first.iter < info.lowerBound.toNat
    · simp [hlt]
    · have hle := Nat.not_lt.mp hlt
      obtain ⟨rounds, hrun⟩ := dfsLoop_eq (.inl rfl) info.replaceCheck_ignoresTop hpos
        (fun e he => hsuffix.subset he) hle
      refine ⟨rounds, fun fuel hf => ?_⟩
      have hpass : info.replaceBelow [] first = true := by
        rw [replaceBelow_nil]
        exact hmask first rfl
      simp only [hlt, takeWhile_cons, hle, decide_true, if_true, filter_cons, hpass]
      exact hrun fuel hf

omit [DecidableEq V] [DecidableEq E] in
theorem mem_parentWalks_iff (h : ParentLayers G source n parents)
    (horigin : ∀ hop, G.origin hop = hop.node) {k : Nat} (hk : k ≤ n) {node : V}
    (hnode : k = 0 → node = source) {path : List (ParentEntry V E)} :
    path ∈ parentWalks parents k node ↔
      ∃ walk, path = parentsOf walk ∧ G.IsWalk source walk node ∧ walk.length = k := by
  constructor
  · intro hp
    refine ⟨path.map (·.toHop), (eq_parentsOf_of_mem_parentWalks hp).1, ?_⟩
    exact (h.mem_map_parentWalks horigin hk hnode).mp (mem_map_of_mem hp)
  · rintro ⟨walk, rfl, hw⟩
    obtain ⟨path, hp, heq⟩ := mem_map.mp ((h.mem_map_parentWalks horigin hk hnode).mpr hw)
    rwa [← heq, ← (eq_parentsOf_of_mem_parentWalks hp).1]

theorem mem_searchPaths (h : ParentLayers G source n parents)
    (horigin : ∀ hop, G.origin hop = hop.node) {dst : V} {path : List (ParentEntry V E)} :
    path ∈ info.searchPaths parents dst ↔ ∃ walk, path = parentsOf walk ∧ G.IsWalk source walk dst ∧
      info.lowerBound.toNat ≤ walk.length ∧ walk.length ≤ n ∧ info.Kept parents walk := by
  simp only [searchPaths, mem_flatMap, mem_filter, Bool.and_eq_true,
    decide_eq_true_eq, mem_explore h.sorted info.appendCheck_of_replaceBelow]
  constructor
  · rintro ⟨e, ⟨he, hmask, hlow⟩, tail, ht, rfl, hkeep⟩
    obtain ⟨henters, hpos, hle, hw⟩ := h.mem.mp he
    rw [horigin] at hw
    obtain ⟨walk, rfl, hwalk, hlen⟩ := (mem_parentWalks_iff h horigin (by omega)
      fun h0 => by simpa [h0] using hw).mp ht
    have hiter : e.iter = walk.length + 1 := by omega
    refine ⟨e.toHop :: walk, ?_, ⟨henters, by rwa [horigin]⟩, ?_, ?_, ?_⟩
    · rw [parentsOf, ← hiter]
      rfl
    · rwa [length_cons, ← hiter]
    · rwa [length_cons, ← hiter]
    · rw [Kept, parentsOf, ← hiter]
      exact ⟨hmask, hkeep⟩
  · rintro ⟨walk, rfl, hw, hlow, hle, hkept⟩
    cases walk with
    | nil => exact hkept.elim
    | cons hop walk =>
      have hwalk : G.HasWalk source walk.length hop.node := ⟨walk, horigin hop ▸ hw.2, rfl⟩
      refine ⟨⟨hop, walk.length + 1⟩, ⟨h.mem.mpr ⟨hw.1, Nat.succ_pos _, hle, ?_⟩, hkept.1, hlow⟩,
        parentsOf walk, ?_, rfl, hkept.2⟩
      · rw [horigin]
        exact hwalk
      · refine (mem_parentWalks_iff h horigin ?_ fun h0 => ?_).mpr ⟨walk, rfl, horigin hop ▸ hw.2, rfl⟩
        · exact Nat.le_of_succ_le hle
        · have hzero : walk.length = 0 := h0
          exact HopGraph.hasWalk_zero.mp (hzero ▸ hwalk)

theorem nodup_searchPaths (h : ParentLayers G source n parents) (dst : V) : (info.searchPaths parents dst).Nodup := by
  refine nodup_flatMap.mpr ⟨fun e _ =>
    nodup_explore h.sorted info.appendCheck_of_replaceBelow h.nodup _ _ _, ?_⟩
  refine ((h.nodup dst).filter _).imp fun hne => ?_
  intro path hp hp'
  obtain ⟨tail, -, rfl, -⟩ := (mem_explore h.sorted info.appendCheck_of_replaceBelow).mp hp
  obtain ⟨tail', -, heq, -⟩ := (mem_explore h.sorted info.appendCheck_of_replaceBelow).mp hp'
  exact hne (List.cons.inj heq).1

section
variable (info : PathsOutputWriterInfo V) (h : ParentLayers G source n parents)
  (horigin : ∀ hop, G.origin hop = hop.node)
include h horigin

theorem mem_map_searchPaths {dst : V} {walk : List (Hop V E)} :
    walk ∈ (info.searchPaths parents dst).map (List.map (·.toHop)) ↔ G.IsWalk source walk dst ∧
      info.lowerBound.toNat ≤ walk.length ∧ walk.length ≤ n ∧ info.Kept parents walk := by
  rw [mem_map]
  constructor
  · rintro ⟨path, hp, rfl⟩
    obtain ⟨walk, rfl, hw⟩ := (mem_searchPaths h horigin).mp hp
    rwa [map_toHop_parentsOf]
  · exact fun hw => ⟨parentsOf walk, (mem_searchPaths h horigin).mpr ⟨walk, rfl, hw⟩, map_toHop_parentsOf walk⟩

theorem nodup_map_searchPaths (dst : V) : ((info.searchPaths parents dst).map (List.map (·.toHop))).Nodup := by
  refine (nodup_searchPaths h dst).map_on fun path hp path' hp' heq => ?_
  obtain ⟨walk, rfl, -⟩ := (mem_searchPaths h horigin).mp hp
  obtain ⟨walk', rfl, -⟩ := (mem_searchPaths h horigin).mp hp'
  rw [map_toHop_parentsOf, map_toHop_parentsOf] at heq
  rw [heq]

end

/-! ## Walks and trails -/

omit [DecidableEq V] [DecidableEq E] in
/-- The mask is checked on all parents but the one of the source. -/
theorem checkPathNodeMask_parentsOf (info : PathsOutputWriterInfo V) (walk : List (Hop V E)) :
    (∀ e ∈ parentsOf walk, info.checkPathNodeMask e = true) ↔ info.PassesMask walk := by
  simp only [PassesMask, checkPathNodeMask]
  cases info.pathNodeMask with
  | none => simp
  | some mask =>
    simp only [Option.some.injEq]
    induction walk with
    | nil => simp [parentsOf]
    | cons hop walk ih =>
      cases walk with
      | nil => simp [parentsOf]
      | cons hop' walk =>
        rw [parentsOf, forall_mem_cons, ih]
        simp

/-- Each parent passes a check against the path before it. -/
def AllPass (check : List (ParentEntry V E) → ParentEntry V E → Bool) :
    List (ParentEntry V E) → List (ParentEntry V E) → Prop
  | _, [] => True
  | path, e :: tail => check path e = true ∧ AllPass check (path ++ [e]) tail

omit [DecidableEq V] [DecidableEq E] in
theorem searchKeeps_iff_allPass {append replace : List (ParentEntry V E) → ParentEntry V E → Bool}
    (hsame : ∀ path e, replace path e = append path e) (path : List (ParentEntry V E)) (node : V)
    (tail : List (ParentEntry V E)) :
    SearchKeeps append replace parents path node tail ↔ AllPass append path tail := by
  induction tail generalizing path node with
  | nil => exact Iff.rfl
  | cons e tail ih =>
    rw [SearchKeeps, ih, hsame]
    refine and_congr_left fun _ => or_iff_left_of_imp fun hfind => ?_
    have hpass := find?_some hfind
    exact (Bool.and_eq_true .. ▸ hpass).2

theorem allPass_walk (hsem : info.semantic = .walk) (path tail : List (ParentEntry V E)) :
    AllPass info.appendCheck path tail ↔ ∀ e ∈ tail, info.checkPathNodeMask e = true := by
  induction tail generalizing path with
  | nil => simp [AllPass]
  | cons e tail ih =>
    rw [AllPass, ih]
    simp [appendCheck, checkAppendSemantic, hsem]

theorem allPass_trail (hsem : info.semantic = .trail) (path tail : List (ParentEntry V E)) :
    AllPass info.appendCheck path tail ↔ (∀ e ∈ tail, info.checkPathNodeMask e = true) ∧
      (tail.map (·.edge)).Nodup ∧ ∀ e ∈ tail, ∀ e' ∈ path, e.edge ≠ e'.edge := by
  induction tail generalizing path with
  | nil => simp [AllPass]
  | cons e tail ih =>
    rw [AllPass, ih, appendCheck, checkAppendSemantic, hsem]
    simp only [isAppendTrail, Bool.and_eq_true, all_eq_true,
      decide_eq_true_eq, forall_mem_cons, map_cons, nodup_cons, mem_map,
      mem_append, mem_singleton]
    constructor
    · rintro ⟨⟨hmask, hpath⟩, hmasks, hnodup, hne⟩
      refine ⟨⟨hmask, hmasks⟩, ⟨?_, hnodup⟩, hpath, fun e' he' e'' he'' => hne e' he' e'' (.inl he'')⟩
      rintro ⟨e', he', heq⟩
      exact hne e' he' e (.inr rfl) heq
    · rintro ⟨⟨hmask, hmasks⟩, ⟨hnot, hnodup⟩, hpath, hne⟩
      refine ⟨⟨hmask, hpath⟩, hmasks, hnodup, fun e' he' e'' he'' => ?_⟩
      obtain he'' | rfl := he''
      · exact hne e' he' e'' he''
      · exact fun heq => hnot ⟨e', he', heq⟩

/-- The search keeps exactly the walks that pass, unless they have to be acyclic. -/
theorem kept_iff_passes (hsem : info.semantic ≠ .acyclic) {walk : List (Hop V E)} (hne : walk ≠ []) :
    info.Kept parents walk ↔ info.Passes walk := by
  cases walk with
  | nil => exact absurd rfl hne
  | cons hop walk =>
    have hmask := checkPathNodeMask_parentsOf info (hop :: walk)
    rw [parentsOf, forall_mem_cons] at hmask
    simp only [Kept, parentsOf, Passes, ← hmask, searchKeeps_iff_allPass (info.replaceBelow_eq_appendCheck hsem)]
    cases hs : info.semantic with
    | acyclic => exact absurd hs hsem
    | walk => simp [allPass_walk hs]
    | trail =>
      have hedges : (parentsOf walk).map (·.edge) = walk.map (·.edge) := by
        rw [← congrArg (List.map Hop.edge) (map_toHop_parentsOf walk), map_map]
        rfl
      have hfresh : (∀ e ∈ parentsOf walk, e.edge ≠ hop.edge) ↔ hop.edge ∉ walk.map (·.edge) := by
        rw [← hedges, mem_map, not_exists]
        exact forall_congr' fun e => ⟨fun h hm => h hm.1 hm.2, fun h he heq => h ⟨he, heq⟩⟩
      rw [allPass_trail hs, hedges]
      simp only [mem_singleton, forall_eq, map_cons, nodup_cons]
      tauto

theorem passesMask_of_kept {walk : List (Hop V E)} (h : info.Kept parents walk) : info.PassesMask walk := by
  have hmasks : ∀ (path : List (ParentEntry V E)) (node : V) (tail : List (ParentEntry V E)),
      SearchKeeps info.appendCheck info.replaceBelow parents path node tail →
        ∀ e ∈ tail, info.checkPathNodeMask e = true := by
    intro path node tail hkeep
    induction tail generalizing path node with
    | nil => simp
    | cons e tail ih =>
      rw [forall_mem_cons]
      refine ⟨?_, ih _ _ hkeep.2⟩
      obtain hr | hfind := hkeep.1
      · exact (Bool.and_eq_true .. ▸ hr).1
      · have hpass := find?_some hfind
        simp only [appendCheck, Bool.and_eq_true] at hpass
        exact hpass.2.1
  cases walk with
  | nil => exact h.elim
  | cons hop walk =>
    rw [← checkPathNodeMask_parentsOf, parentsOf, forall_mem_cons]
    exact ⟨h.1, hmasks _ _ _ h.2⟩

end

/-! ## Repeated nodes -/

/-- Some node occurs twice, and not only in neighbouring places. -/
def RepeatsApart (nodes : List V) : Prop :=
  ∃ i j, i + 2 ≤ j ∧ j < nodes.length ∧ nodes[i]? = nodes[j]?

/-- The nodes of a walk, without the last inner node and with the source, are distinct if the inner nodes
are; otherwise some node occurs twice among them, and not only in neighbouring places. -/
def RepeatsSeen (walk : List (Hop V E)) : Prop :=
  ((walk.dropLast.map (·.node)).Nodup → (walk.tail.map (·.node)).Nodup) ∧
    (¬ (walk.dropLast.map (·.node)).Nodup → RepeatsApart (walk.tail.map (·.node)))

omit [DecidableEq V] in
theorem repeatsApart_of_not_nodup {nodes : List V} (hchain : nodes.IsChain (· ≠ ·)) (h : ¬ nodes.Nodup) :
    RepeatsApart nodes := by
  rw [nodup_iff_getElem?_ne_getElem?] at h
  push Not at h
  obtain ⟨i, j, hij, hj, heq⟩ := h
  refine ⟨i, j, ?_, hj, heq⟩
  by_contra hlt
  obtain rfl : j = i + 1 := by omega
  rw [getElem?_eq_getElem (by omega), getElem?_eq_getElem hj, Option.some.injEq] at heq
  exact isChain_iff_getElem.mp hchain i hj heq

section

variable {parents : V → ParentList V E} {info : PathsOutputWriterInfo V}

/-- With distinct nodes each parent passes the replace check. -/
theorem searchKeeps_of_nodup (hsem : info.semantic = .acyclic) {path tail : List (ParentEntry V E)}
    (hpath : path ≠ []) (hmask : ∀ e ∈ tail, info.checkPathNodeMask e = true)
    (hnodup : ((path.drop 1 ++ tail).map (·.node)).Nodup) (node : V) :
    SearchKeeps info.appendCheck info.replaceBelow parents path node tail := by
  induction tail generalizing path node with
  | nil => trivial
  | cons e tail ih =>
    obtain ⟨he, hmask⟩ := forall_mem_cons.mp hmask
    refine ⟨.inl ?_, ih (by simp) hmask ?_ _⟩
    · simp only [replaceBelow, replaceCheck, he, checkReplaceTopSemantic, hsem, isReplaceTopAcyclic,
        length_append, length_singleton, Nat.add_sub_cancel, take_left', Bool.true_and, all_eq_true,
        decide_eq_true_eq]
      intro e' he' heq
      rw [map_append, nodup_append] at hnodup
      exact hnodup.2.2 _ (mem_map_of_mem he') e.node (by simp) heq.symm
    · rwa [drop_append_of_le_length (length_pos_iff.mpr hpath), append_assoc]

/-- A kept parent differs from all before it in the path but the first and the top. -/
theorem SearchKeeps.getElem?_ne (hsem : info.semantic = .acyclic) {path tail : List (ParentEntry V E)} {node : V}
    (h : SearchKeeps info.appendCheck info.replaceBelow parents path node tail) {i j : Nat} (hi : 1 ≤ i)
    (hij : i + 2 ≤ j) (hpath : path.length ≤ j) (hj : j < (path ++ tail).length) :
    ((path ++ tail).map (·.node))[i]? ≠ ((path ++ tail).map (·.node))[j]? := by
  induction tail generalizing path node with
  | nil =>
    rw [append_nil] at hj
    omega
  | cons e tail ih =>
    by_cases hlast : j = path.length
    · subst hlast
      have happend : info.appendCheck path e = true := by
        obtain hr | hfind := h.1
        · exact info.appendCheck_of_replaceBelow path e hr
        · have hpass := find?_some hfind
          exact (Bool.and_eq_true .. ▸ hpass).2
      simp only [appendCheck, checkAppendSemantic, hsem, isAppendAcyclic, Bool.and_eq_true, all_eq_true,
        decide_eq_true_eq] at happend
      have hmem : path[i] ∈ (path.take (path.length - 1)).drop 1 := by
        rw [mem_drop_iff_getElem]
        exact ⟨i - 1, by rw [length_take]; omega, by simp [Nat.add_sub_cancel' hi]⟩
      have hne := happend.2 _ hmem
      rw [map_append, getElem?_append_left (by simp; omega), getElem?_append_right (by simp)]
      simpa [getElem?_eq_getElem (show i < path.length by omega)] using hne.symm
    · have := ih h.2 (by rw [length_append]; simp; omega) (by simpa using hj)
      simpa using this

omit [DecidableEq V] [DecidableEq E] in
theorem map_node_parentsOf (walk : List (Hop V E)) : (parentsOf walk).map (·.node) = walk.map (·.node) := by
  rw [← congrArg (List.map Hop.node) (map_toHop_parentsOf walk), map_map]
  rfl

theorem kept_of_nodup (hsem : info.semantic = .acyclic) {walk : List (Hop V E)} (hne : walk ≠ [])
    (hmask : info.PassesMask walk) (h : (walk.tail.map (·.node)).Nodup) : info.Kept parents walk := by
  obtain ⟨hop, walk, rfl⟩ := exists_cons_of_ne_nil hne
  rw [← checkPathNodeMask_parentsOf, parentsOf, forall_mem_cons] at hmask
  exact ⟨hmask.1, searchKeeps_of_nodup hsem (by simp) hmask.2 (by simpa [map_node_parentsOf] using h) _⟩

theorem not_repeatsApart_of_kept (hsem : info.semantic = .acyclic) {walk : List (Hop V E)}
    (h : info.Kept parents walk) : ¬ RepeatsApart (walk.tail.map (·.node)) := by
  rintro ⟨i, j, hij, hj, heq⟩
  cases walk with
  | nil => exact h.elim
  | cons hop walk =>
    have hlen : (parentsOf walk).length = walk.length := by
      rw [← length_map (·.toHop), map_toHop_parentsOf]
    refine SearchKeeps.getElem?_ne hsem h.2 (i := i + 1) (j := j + 1) (by omega) (by omega) (by simp) ?_ ?_
    · simpa [hlen] using hj
    · simpa [map_node_parentsOf] using heq

/-- Where repeated nodes are seen, the search keeps the walks with distinct inner nodes. -/
theorem RepeatsSeen.kept_iff (hsem : info.semantic = .acyclic) {walk : List (Hop V E)} (h : RepeatsSeen walk)
    (hne : walk ≠ []) (hmask : info.PassesMask walk) :
    (walk.dropLast.map (·.node)).Nodup ↔ info.Kept parents walk := by
  refine ⟨fun hinner => kept_of_nodup hsem hne hmask (h.1 hinner), fun hkept => ?_⟩
  by_contra hinner
  exact not_repeatsApart_of_kept hsem hkept (h.2 hinner)

theorem repeatsSeen_of_kept_iff (hsem : info.semantic = .acyclic) {walk : List (Hop V E)}
    (hne : walk ≠ []) (hmask : info.PassesMask walk) (hchain : (walk.tail.map (·.node)).IsChain (· ≠ ·))
    (h : (walk.dropLast.map (·.node)).Nodup ↔ info.Kept parents walk) : RepeatsSeen walk := by
  constructor
  · intro hinner
    by_contra htail
    exact not_repeatsApart_of_kept hsem (h.mp hinner) (repeatsApart_of_not_nodup hchain htail)
  · intro hinner
    exact repeatsApart_of_not_nodup hchain fun htail => hinner (h.mpr (kept_of_nodup hsem hne hmask htail))

end

/-! ## Exactness -/

section

variable {G : HopGraph V (Hop V E)} {source : V} {n : Nat} {parents : V → ParentList V E}

/-- What the search writes is exact if and only if its checks agree with what is asked of acyclic paths. -/
theorem writesExactly_searchPaths (info : PathsOutputWriterInfo V) (hlower : info.lowerBound ≠ 0)
    (h : ParentLayers G source n parents) (horigin : ∀ hop, G.origin hop = hop.node) (dst : V) :
    info.WritesExactly G source dst n (info.searchPaths parents dst) ↔
      (info.semantic = .acyclic → ∀ walk, G.IsWalk source walk dst → info.lowerBound.toNat ≤ walk.length →
        walk.length ≤ n → info.PassesMask walk →
          ((walk.dropLast.map (·.node)).Nodup ↔ info.Kept parents walk)) := by
  have hlow : info.lowerBound.toNat ≠ 0 := fun h0 => hlower (UInt16.toNat_inj.mp h0)
  rw [WritesExactly, and_iff_right (nodup_map_searchPaths info h horigin dst)]
  constructor
  · intro hexact hsem walk hw hl hu hmask
    have hiff := (mem_map_searchPaths info h horigin).symm.trans (hexact walk)
    simp only [hw, hl, hu, true_and, Passes, hmask, hsem] at hiff
    exact hiff.symm
  · intro hcond walk
    rw [mem_map_searchPaths info h horigin]
    refine and_congr_right fun hw => and_congr_right fun hl => and_congr_right fun hu => ?_
    by_cases hsem : info.semantic = .acyclic
    · simp only [Passes, hsem]
      exact ⟨fun hk => ⟨passesMask_of_kept hk, (hcond hsem walk hw hl hu (passesMask_of_kept hk)).mpr hk⟩,
        fun hp => (hcond hsem walk hw hl hu hp.1).mp hp.2⟩
    · refine kept_iff_passes hsem ?_
      rintro rfl
      exact hlow (Nat.le_zero.mp hl)

end

/-- A node with a relationship to itself between two others. -/
def loopBetween : OnDiskGraph Nat Nat := ⟨[⟨0, 1, 7⟩, ⟨1, 1, 8⟩, ⟨1, 2, 9⟩], by decide⟩

/-- Two nodes on a cycle between the source and the destination. -/
def cycleBetween : OnDiskGraph Nat Nat := ⟨[⟨0, 1, 6⟩, ⟨1, 2, 7⟩, ⟨2, 1, 8⟩, ⟨2, 3, 9⟩], by decide⟩

end CycleJoin
