import CycleJoin.Planner.BasicPaths

/-!
# The build paths of a cycle join

`findCycleJoin` groups paths between probe nodes and intersection nodes by their probe node. A
path is a whole basic path from a probe node to another node, or one half of a basic path between
two probe nodes.

* `Origin`: how a build path comes from a basic path.
* `findCycleJoin_spec`: every build path has an origin, and different trees share no edge.
* `removalLoop_stable`: the removal loop ends when every tree has two paths or more and every
  intersection node two trees or more.
* `bestProbe_spec`: the probe graph is a part of the query graph, and the search for it ends.
-/

namespace CycleJoin

open List

namespace Simple

open ChainPath

variable {ν : Type} [LinearOrder ν] {probes : List ν} {path p p' : List ν} {v w v' w' x : ν}

/-! ## Maps -/

section Map

variable {β : Type} {k : ν} {b : β} {m : List (ν × β)}

theorem mem_mapSet {e : ν × β} (he : e ∈ mapSet k b m) : e = (k, b) ∨ e ∈ m := by
  induction m with
  | nil => exact .inl (mem_singleton.mp he)
  | cons e' m ih =>
    obtain ⟨k', b'⟩ := e'
    rw [mapSet] at he
    split at he
    · rcases mem_cons.mp he with rfl | he
      exacts [.inl rfl, .inr (mem_cons_of_mem _ he)]
    split at he
    · exact mem_cons.mp he
    · rcases mem_cons.mp he with rfl | he
      · exact .inr mem_cons_self
      · exact (ih he).imp_right (mem_cons_of_mem _)

theorem mapSet_ascending (h : m.Pairwise (·.1 < ·.1)) : (mapSet k b m).Pairwise (·.1 < ·.1) := by
  induction m with
  | nil => exact pairwise_singleton _ _
  | cons e m ih =>
    obtain ⟨k', b'⟩ := e
    obtain ⟨hlt, h⟩ := pairwise_cons.mp h
    rw [mapSet]
    split
    · rename_i heq
      exact pairwise_cons.mpr ⟨fun e he => heq ▸ hlt e he, h⟩
    split
    · rename_i hk
      refine pairwise_cons.mpr ⟨fun e he => ?_, pairwise_cons.mpr ⟨hlt, h⟩⟩
      rcases mem_cons.mp he with rfl | he
      exacts [hk, hk.trans (hlt e he)]
    · rename_i hne hk
      refine pairwise_cons.mpr ⟨fun e he => ?_, ih h⟩
      rcases mem_mapSet he with rfl | he
      exacts [lt_of_le_of_ne (not_lt.mp hk) (Ne.symm hne), hlt e he]

theorem mem_of_mapGet (h : mapGet k m = some b) : (k, b) ∈ m := by
  obtain ⟨⟨k', b'⟩, hfind, rfl⟩ := Option.map_eq_some_iff.mp h
  have hk := find?_some hfind
  rw [decide_eq_true_eq] at hk
  exact hk ▸ mem_of_find?_eq_some hfind

end Map

/-! ## Origins -/

/-- How the build path from `v` to `w` comes from a basic path. -/
inductive Origin (probes path : List ν) : ν → ν → List ν → Prop where
  /-- All of a basic path between a probe node and another node. -/
  | whole {p : List ν} {v w : ν} (hp : p = path ∨ p = path.reverse) (hv : p.head? = some v)
      (hw : p.getLast? = some w) (hprobe : v ∈ probes) (htail : ∀ x ∈ p.tail, x ∉ probes) :
      Origin probes path v w p
  /-- The first half of a basic path between probe nodes. -/
  | front {pre post : List ν} {v w last : ν} (hpath : path = pre ++ w :: post)
      (hlen : pre.length = path.length / 2) (hv : pre.head? = some v)
      (hlast : post.getLast? = some last) (hprobe : v ∈ probes) (hother : last ∈ probes)
      (htail : ∀ x ∈ path.tail.dropLast, x ∉ probes) : Origin probes path v w (pre ++ [w])
  /-- The second half, from the other end. -/
  | back {pre post : List ν} {v w first : ν} (hpath : path = pre ++ w :: post)
      (hlen : pre.length = path.length / 2) (hfirst : pre.head? = some first)
      (hv : post.getLast? = some v) (hprobe : v ∈ probes) (hother : first ∈ probes)
      (htail : ∀ x ∈ path.tail.dropLast, x ∉ probes) : Origin probes path v w (w :: post).reverse

omit [LinearOrder ν] in
theorem Origin.two_le_length {probes path p : List ν} {v w : ν} (h : Origin probes path v w p)
    (hlen : 2 ≤ path.length) : 2 ≤ p.length := by
  cases h with
  | whole hp => obtain rfl | rfl := hp <;> simpa using hlen
  | @front pre post v w last hpath _ hv =>
    obtain ⟨_, _, rfl⟩ := exists_cons_of_ne_nil (l := pre) (by rintro rfl; cases hv)
    simp
  | @back pre post v w first hpath _ _ hv =>
    obtain ⟨_, _, rfl⟩ := exists_cons_of_ne_nil (l := post) (by rintro rfl; cases hv)
    simp

omit [LinearOrder ν] in
theorem mem_tail_cases (hx : x ∈ p.tail) : x ∈ p.tail.dropLast ∨ p.getLast? = some x := by
  obtain ⟨y, l, rfl⟩ := exists_cons_of_ne_nil (l := p) (by rintro rfl; cases hx)
  rw [tail_cons] at hx
  obtain ⟨l, z, rfl⟩ := eq_nil_or_concat' l |>.resolve_left (by rintro rfl; cases hx)
  rw [tail_cons, dropLast_concat]
  rw [← cons_append, getLast?_concat]
  simpa [eq_comm] using hx

omit [LinearOrder ν] in
theorem tail_dropLast_reverse : p.reverse.tail.dropLast = p.tail.dropLast.reverse := by
  rw [tail_reverse, dropLast_reverse, tail_dropLast]

namespace Origin

section
variable (h : Origin probes path v w p)
include h

omit [LinearOrder ν] in
theorem head : p.head? = some v := by
  cases h with
  | whole _ hv => exact hv
  | front hpath hlen hv => rw [head?_append, hv]; rfl
  | back hpath hlen hfirst hv =>
    rw [head?_reverse, getLast?_cons, hv]
    rfl

omit [LinearOrder ν] in
theorem probe : v ∈ probes := by cases h <;> assumption

omit [LinearOrder ν] in
/-- Only the first node of a build path is a probe node. -/
theorem tail : ∀ x ∈ p.tail, x ∉ probes := by
  cases h with
  | whole _ _ _ _ htail => exact htail
  | @front pre post _ _ last hpath hlen hv hlast _ _ htail =>
    intro x hx
    obtain ⟨y, pre, rfl⟩ := exists_cons_of_ne_nil (l := pre) (by rintro rfl; cases hv)
    obtain ⟨z, post, rfl⟩ := exists_cons_of_ne_nil (l := post) (by rintro rfl; cases hlast)
    rw [cons_append, tail_cons] at hx
    refine htail x ?_
    subst hpath
    rw [cons_append, tail_cons, append_cons, dropLast_append_of_ne_nil (by simp)]
    exact mem_append_left _ hx
  | @back pre post _ _ first hpath hlen hfirst hv _ _ htail =>
    intro x hx
    obtain ⟨y, pre, rfl⟩ := exists_cons_of_ne_nil (l := pre) (by rintro rfl; cases hfirst)
    refine htail x ?_
    subst hpath
    rw [tail_reverse, mem_reverse] at hx
    rw [cons_append, tail_cons, dropLast_append_of_ne_nil (by simp)]
    exact mem_append_right _ hx

omit [LinearOrder ν] in
/-- The edges of a build path are edges of its basic path. -/
theorem steps_sub {a b : ν} (hab : (a, b) ∈ steps p) : (a, b) ∈ steps path ∨ (b, a) ∈ steps path := by
  cases h with
  | whole hp =>
    rcases hp with rfl | rfl
    exacts [.inl hab, .inr (mem_steps_reverse.mp hab)]
  | front hpath =>
    rw [hpath, append_cons]
    exact .inl (mem_steps_append_left hab)
  | back hpath =>
    rw [hpath]
    exact .inr (mem_steps_append_right (mem_steps_reverse.mp hab))

omit [LinearOrder ν] in
theorem mem_path (hx : x ∈ p) : x ∈ path := by
  cases h with
  | whole hp =>
    rcases hp with rfl | rfl
    exacts [hx, mem_reverse.mp hx]
  | front hpath =>
    rw [hpath, append_cons]
    exact mem_append_left _ hx
  | back hpath =>
    rw [hpath]
    exact mem_append_right _ (mem_reverse.mp hx)

omit [LinearOrder ν] in
/-- A build path is the start of its basic path, read in one of its directions. -/
theorem starts_path : ∃ rest, path = p ++ rest ∨ path.reverse = p ++ rest := by
  cases h with
  | whole hp =>
    rcases hp with rfl | rfl
    exacts [⟨[], .inl (by simp)⟩, ⟨[], .inr (by simp)⟩]
  | @front pre post _ _ _ hpath => exact ⟨post, .inl (by rw [hpath, append_cons])⟩
  | @back pre post _ _ _ hpath => exact ⟨pre.reverse, .inr (by rw [hpath, reverse_append])⟩

omit [LinearOrder ν] in
theorem end_of_path : path.head? = some v ∨ path.getLast? = some v := by
  cases h with
  | whole hp hv =>
    rcases hp with rfl | rfl
    exacts [.inl hv, .inr (by rwa [head?_reverse] at hv)]
  | front hpath hlen hv => exact .inl (by rw [hpath, head?_append, hv]; rfl)
  | back hpath hlen hfirst hv => exact .inr (by rw [hpath, getLast?_append, getLast?_cons, hv]; rfl)

end

/-- A basic path that is used as a whole is used from one probe node only. -/
theorem whole_unique (hp : p = path ∨ p = path.reverse) (hv : p.head? = some v)
    (htail : ∀ x ∈ p.tail, x ∉ probes) (h' : Origin probes path v' w' p') : v = v' := by
  by_contra hne
  have hends : p.head? = some v' ∨ p.getLast? = some v' := by
    rcases hp with rfl | rfl
    · exact h'.end_of_path
    · rw [head?_reverse, getLast?_reverse]
      exact h'.end_of_path.symm
  rcases hends with hv' | hv'
  · rw [hv] at hv'
    exact hne (Option.some.inj hv')
  · refine htail v' ?_ h'.probe
    obtain ⟨l, rfl⟩ := head?_eq_some_iff.mp hv
    have hmem := mem_of_getLast? hv'
    exact (mem_cons.mp hmem).resolve_left (Ne.symm hne)

omit [LinearOrder ν] in
theorem mem_ends_of_steps {a b : ν} (hab : (a, b) ∈ steps p) : a ∈ p.dropLast ∧ b ∈ p.tail := by
  obtain ⟨pre, post, rfl⟩ := mem_steps.mp hab
  constructor
  · rw [dropLast_append_of_ne_nil (by simp)]
    simp
  · cases pre <;> simp

omit [LinearOrder ν] in
theorem halves_edgeDisjoint {pre post : List ν} (hnd : (pre ++ w :: post).Nodup) :
    EdgeDisjoint (pre ++ [w]) (w :: post).reverse := by
  intro a b hab
  obtain ⟨ha, -⟩ := mem_ends_of_steps hab
  rw [dropLast_concat] at ha
  have hnot : a ∉ w :: post := fun hmem => (nodup_append.mp hnd).2.2 a ha a hmem rfl
  rw [mem_steps_reverse, mem_steps_reverse]
  exact ⟨fun hba => hnot (mem_of_mem_steps hba).2, fun hab' => hnot (mem_of_mem_steps hab').1⟩

/-- Build paths of different probe nodes that come from one basic path share no edge. -/
theorem edgeDisjoint (hnd : path.Nodup) (h : Origin probes path v w p)
    (h' : Origin probes path v' w' p') (hne : v ≠ v') : EdgeDisjoint p p' := by
  cases h with
  | whole hp hv hw hprobe htail => exact absurd (whole_unique hp hv htail h') hne
  | @front pre post _ _ last hpath hlen hv hlast hprobe hother htail =>
    cases h' with
    | whole hp' hv' hw' hprobe' htail' =>
      exact absurd (whole_unique hp' hv' htail' (.front hpath hlen hv hlast hprobe hother htail)).symm hne
    | front hpath' hlen' hv' =>
      obtain ⟨rfl, -⟩ := append_inj (hpath.symm.trans hpath') (by omega)
      rw [hv] at hv'
      exact absurd (Option.some.inj hv') hne
    | back hpath' hlen' =>
      obtain ⟨rfl, heq⟩ := append_inj (hpath.symm.trans hpath') (by omega)
      obtain ⟨rfl, rfl⟩ := cons_eq_cons.mp heq
      exact halves_edgeDisjoint (hpath ▸ hnd)
  | @back pre post _ _ first hpath hlen hfirst hv hprobe hother htail =>
    cases h' with
    | whole hp' hv' hw' hprobe' htail' =>
      exact absurd (whole_unique hp' hv' htail' (.back hpath hlen hfirst hv hprobe hother htail)).symm hne
    | front hpath' hlen' =>
      obtain ⟨rfl, heq⟩ := append_inj (hpath.symm.trans hpath') (by omega)
      obtain ⟨rfl, rfl⟩ := cons_eq_cons.mp heq
      exact (halves_edgeDisjoint (hpath ▸ hnd)).symm
    | back hpath' hlen' hfirst' hv' =>
      obtain ⟨rfl, heq⟩ := append_inj (hpath.symm.trans hpath') (by omega)
      obtain ⟨-, rfl⟩ := cons_eq_cons.mp heq
      rw [hv] at hv'
      exact absurd (Option.some.inj hv') hne

omit [LinearOrder ν] in
/-- Build paths of basic paths that share no edge share no edge. -/
theorem edgeDisjoint_of_paths {path' : List ν} (h : Origin probes path v w p)
    (h' : Origin probes path' v' w' p') (hdisj : EdgeDisjoint path path') : EdgeDisjoint p p' := by
  intro a b hab
  have hback : ∀ {a b : ν}, (a, b) ∈ steps path ∨ (b, a) ∈ steps path →
      (a, b) ∉ steps path' ∧ (b, a) ∉ steps path' := by
    rintro a b (h | h)
    exacts [hdisj a b h, (hdisj b a h).symm]
  have hout := hback (h.steps_sub hab)
  exact ⟨fun h => (h'.steps_sub h).elim hout.1 hout.2, fun h => (h'.steps_sub h).elim hout.2 hout.1⟩

end Origin

/-! ## The loop over the basic paths -/

section Loops

variable {bg : BuildingGraphs ν} {basic : List (List ν)}

/-- `building_graphs[v][w]` is `p`. -/
def Entry (bg : BuildingGraphs ν) (v w : ν) (p : List ν) : Prop :=
  ∃ inner, (v, inner) ∈ bg ∧ (w, p) ∈ inner

theorem Entry.of_setPath {a b : ν} (h : Entry (setPath bg a b path) v w p) :
    v = a ∧ w = b ∧ p = path ∨ Entry bg v w p := by
  obtain ⟨inner, hinner, hp⟩ := h
  rcases mem_mapSet hinner with heq | hinner
  · obtain ⟨rfl, rfl⟩ := Prod.mk.inj heq
    rcases mem_mapSet hp with heq | hp
    · obtain ⟨rfl, rfl⟩ := Prod.mk.inj heq
      exact .inl ⟨rfl, rfl, rfl⟩
    · cases hget : mapGet v bg with
      | none =>
        rw [hget] at hp
        cases hp
      | some old =>
        rw [hget] at hp
        exact .inr ⟨old, mem_of_mapGet hget, hp⟩
  · exact .inr ⟨inner, hinner, hp⟩

/-- The entries all have an origin, and the probe nodes are ascending. -/
structure Grown (probes : List ν) (basic : List (List ν)) (bg : BuildingGraphs ν) : Prop where
  ascending : bg.Pairwise (·.1 < ·.1)
  origin : ∀ {v w p}, Entry bg v w p → ∃ path ∈ basic, Origin probes path v w p

section
variable (h : Grown probes basic bg) (hpath : path ∈ basic) (ho : Origin probes path v w p)
include h hpath ho

theorem Grown.setPath : Grown probes basic (setPath bg v w p) := by
  refine ⟨mapSet_ascending h.ascending, fun he => ?_⟩
  rcases he.of_setPath with ⟨rfl, rfl, rfl⟩ | he
  exacts [⟨path, hpath, ho⟩, h.origin he]

theorem Grown.setShorterPath : Grown probes basic (setShorterPath bg v w p) := by
  unfold Simple.setShorterPath
  split
  · split
    exacts [h.setPath hpath ho, h]
  · exact h.setPath hpath ho

end

/-- `findCycleJoin` makes a build path from `v` to `w` of the path: all of it between a probe node and
another node, or one half of it between two probe nodes. -/
def Joins (probes path : List ν) (v w : ν) : Prop :=
  (∀ x ∈ path.tail.dropLast, x ∉ probes) ∧
  (path.length ≤ buildPathLengthLimit ∧ v ∈ probes ∧ w ∉ probes ∧
      (path.head? = some v ∧ path.getLast? = some w ∨
        path.head? = some w ∧ path.getLast? = some v) ∨
    2 < path.length ∧ path.length < 2 * buildPathLengthLimit ∧
      path[path.length / 2]? = some w ∧ v ∈ probes ∧ ∃ u ∈ probes,
        path.head? = some v ∧ path.getLast? = some u ∨ path.head? = some u ∧ path.getLast? = some v)

/-- The body of the loop over the basic paths: nothing, one build path that may be replaced by a
shorter one, or two halves that meet in the middle. -/
theorem addBasicPath_cases (probes : List ν) (bg : BuildingGraphs ν) (path : List ν) :
    (addBasicPath probes bg path = bg ∧ ∀ v w, ¬ Joins probes path v w) ∨
    (∃ v w p, addBasicPath probes bg path = setShorterPath bg v w p ∧ Origin probes path v w p ∧
      p.length ≤ buildPathLengthLimit ∧ ∀ v' w', Joins probes path v' w' ↔ v' = v ∧ w' = w) ∨
    (∃ v u w p p', addBasicPath probes bg path = setPath (setPath bg v w p) u w p' ∧
      (Origin probes path v w p ∧ p.length ≤ buildPathLengthLimit) ∧
      (Origin probes path u w p' ∧ p'.length ≤ buildPathLengthLimit) ∧
      ∀ v' w', Joins probes path v' w' ↔ (v' = v ∨ v' = u) ∧ w' = w) := by
  unfold Simple.addBasicPath
  split
  · rename_i head tail hhead htail
    split
    · rename_i hmid
      refine .inl ⟨rfl, fun v w hj => ?_⟩
      obtain ⟨x, hx, hxp⟩ := any_eq_true.mp hmid
      exact hj.1 x hx (of_decide_eq_true hxp)
    rename_i hmid
    have hmid : ∀ x ∈ path.tail.dropLast, x ∉ probes := by simpa using hmid
    have hjoins (v w : ν) : Joins probes path v w ↔ path.length ≤ buildPathLengthLimit ∧ v ∈ probes ∧ w ∉ probes ∧
          (head = v ∧ tail = w ∨ head = w ∧ tail = v) ∨
        2 < path.length ∧ path.length < 2 * buildPathLengthLimit ∧ path[path.length / 2]? = some w ∧ v ∈ probes ∧
            ∃ u ∈ probes, head = v ∧ tail = u ∨ head = u ∧ tail = v := by
      simp only [Joins, hhead, htail, Option.some.injEq, and_iff_right hmid]
    split
    · rename_i hheadp
      split
      · rename_i htailp
        -- both ends are probe nodes: only halves
        split
        · rename_i hlen
          split
          · rename_i w post hdrop
            have hsplit : path = path.take (path.length / 2) ++ w :: post := by
              rw [← hdrop, take_append_drop]
            have hpre : (path.take (path.length / 2)).length = path.length / 2 := by
              rw [length_take]
              omega
            have hfirst : (path.take (path.length / 2)).head? = some head := by
              rw [head?_take, if_neg (by omega), hhead]
            have hpost : post ≠ [] := by
              rintro rfl
              have := congrArg List.length hdrop
              simp at this
              omega
            have hlast : post.getLast? = some tail := by
              rw [hsplit, getLast?_append, getLast?_cons, getLast?_eq_some_getLast hpost] at htail
              rw [getLast?_eq_some_getLast hpost]
              exact htail
            have htake : path.take (path.length / 2 + 1) = path.take (path.length / 2) ++ [w] := by
              rw [take_add_one, ← head?_drop, hdrop]
              rfl
            have hget : path[path.length / 2]? = some w := by
              rw [← head?_drop, hdrop]
              rfl
            have hlimit : buildPathLengthLimit = 3 := rfl
            have hdropLen := congrArg List.length hdrop
            rw [length_drop] at hdropLen
            refine .inr (.inr ⟨head, tail, w, _, _, rfl, ⟨?_, ?_⟩, ⟨?_, ?_⟩, fun v' w' => ?_⟩)
            · rw [htake]
              exact .front hsplit hpre hfirst hlast hheadp htailp hmid
            · rw [length_take]
              omega
            · rw [hdrop]
              exact .back hsplit hpre hfirst hlast htailp hheadp hmid
            · rw [length_reverse, length_drop]
              omega
            · rw [hjoins, hget]
              grind
          · rename_i hdrop
            have := congrArg List.length hdrop
            rw [length_drop, length_nil] at this
            omega
        · rename_i hlen
          refine .inl ⟨rfl, fun v w => ?_⟩
          rw [hjoins]
          grind
      · rename_i htailp
        split
        · rename_i hlen
          refine .inl ⟨rfl, fun v w => ?_⟩
          rw [hjoins]
          grind
        · rename_i hlen
          refine .inr (.inl ⟨head, tail, path, rfl, ?_, not_lt.mp hlen, fun v' w' => ?_⟩)
          · refine .whole (.inl rfl) hhead htail hheadp fun x hx => ?_
            rcases mem_tail_cases hx with hx | hx
            · exact hmid x hx
            · rw [htail] at hx
              cases hx
              exact htailp
          · rw [hjoins]
            grind
    · rename_i hheadp
      split
      · rename_i htailp
        split
        · rename_i hlen
          refine .inl ⟨rfl, fun v w => ?_⟩
          rw [hjoins]
          grind
        · rename_i hlen
          refine .inr (.inl ⟨tail, head, path.reverse, rfl, ?_, ?_, fun v' w' => ?_⟩)
          · refine .whole (.inr rfl) (by rwa [head?_reverse]) (by rwa [getLast?_reverse]) htailp fun x hx => ?_
            rcases mem_tail_cases hx with hx | hx
            · rw [tail_dropLast_reverse, mem_reverse] at hx
              exact hmid x hx
            · rw [getLast?_reverse, hhead] at hx
              cases hx
              exact hheadp
          · rw [length_reverse]
            exact not_lt.mp hlen
          · rw [hjoins]
            grind
      · rename_i htailp
        refine .inl ⟨rfl, fun v w => ?_⟩
        rw [hjoins]
        grind
  · rename_i hnone
    refine .inl ⟨rfl, fun v w hj => ?_⟩
    cases hpath : path with
    | nil => simp [Joins, hpath] at hj
    | cons x l => exact hnone x _ (by rw [hpath]; rfl) (by rw [hpath, getLast?_cons])

theorem Grown.addBasicPath (h : Grown probes basic bg) (hpath : path ∈ basic) :
    Grown probes basic (addBasicPath probes bg path) := by
  rcases addBasicPath_cases probes bg path with ⟨heq, -⟩ | ⟨v, w, p, heq, ho, -⟩ |
    ⟨v, u, w, p, p', heq, ⟨ho, -⟩, ⟨ho', -⟩, -⟩
  · rwa [heq]
  · rw [heq]
    exact h.setShorterPath hpath ho
  · rw [heq]
    exact (h.setPath hpath ho).setPath hpath ho'

theorem foldl_addBasicPath_grown (paths : List (List ν)) (hsub : ∀ path ∈ paths, path ∈ basic)
    (h : Grown probes basic bg) : Grown probes basic (paths.foldl (addBasicPath probes) bg) := by
  induction paths generalizing bg with
  | nil => exact h
  | cons path paths ih =>
    obtain ⟨hpath, hsub⟩ := forall_mem_cons.mp hsub
    exact ih hsub (h.addBasicPath hpath)

/-! ## The removal loop -/

/-- The number of probe nodes and paths, which a removal decreases. -/
def size (bg : BuildingGraphs ν) : Nat := (bg.map fun entry => entry.2.length + 1).sum

omit [LinearOrder ν] in
theorem size_removal_le (keep : ν × List ν → Bool) (bg : BuildingGraphs ν) :
    size ((bg.filter fun entry => ¬ entry.2.length < 2).map fun entry =>
      (entry.1, entry.2.filter keep)) ≤ size bg := by
  induction bg with
  | nil => exact le_rfl
  | cons entry bg ih =>
    have hlen := length_filter_le keep entry.2
    by_cases h : entry.2.length < 2
    · rw [filter_cons_of_neg (by simpa using h)]
      simp only [size, map_cons, sum_cons] at ih ⊢
      omega
    · rw [filter_cons_of_pos (by simpa using h)]
      simp only [size, map_cons, sum_cons] at ih ⊢
      omega

omit [LinearOrder ν] in
theorem size_removal_lt (keep : ν × List ν → Bool) (bg : BuildingGraphs ν)
    (h : (bg.any (·.2.length < 2) || (bg.filter fun entry => ¬ entry.2.length < 2).any
      (fun entry => entry.2.any fun p => !keep p)) = true) :
    size ((bg.filter fun entry => ¬ entry.2.length < 2).map fun entry =>
      (entry.1, entry.2.filter keep)) < size bg := by
  induction bg with
  | nil => cases h
  | cons entry bg ih =>
    have hle := size_removal_le keep bg
    have hlen := length_filter_le keep entry.2
    by_cases hshort : entry.2.length < 2
    · rw [filter_cons_of_neg (by simpa using hshort)]
      simp only [size, map_cons, sum_cons] at hle ⊢
      omega
    · rw [filter_cons_of_pos (by simpa using hshort)] at h ⊢
      by_cases hall : entry.2.any (fun p => !keep p) = true
      · obtain ⟨p, hp, hkeep⟩ := any_eq_true.mp hall
        have hlt : (entry.2.filter keep).length < entry.2.length :=
          length_filter_lt_length_iff_exists.mpr ⟨p, hp, by simpa using hkeep⟩
        simp only [size, map_cons, sum_cons] at hle ⊢
        omega
      · rw [any_cons, any_cons, decide_eq_false hshort, Bool.eq_false_iff.mpr hall] at h
        have := ih h
        simp only [size, map_cons, sum_cons] at this ⊢
        omega

theorem size_removalRound_lt (h : (removalRound bg).1 = true) : size (removalRound bg).2 < size bg :=
  size_removal_lt (fun p => ¬ intersectNodeCount bg p.1 < 2) bg (by simpa [removalRound] using h)

theorem Grown.removalRound (h : Grown probes basic bg) : Grown probes basic (removalRound bg).2 := by
  refine ⟨pairwise_map.mpr (h.ascending.filter _), ?_⟩
  rintro v w p ⟨inner, hinner, hp⟩
  obtain ⟨entry, hentry, heq⟩ := mem_map.mp hinner
  obtain ⟨rfl, rfl⟩ := Prod.mk.inj heq
  exact h.origin ⟨entry.2, (mem_filter.mp hentry).1, (mem_filter.mp hp).1⟩

theorem Grown.removalLoop (fuel : Nat) (h : Grown probes basic bg) : Grown probes basic (removalLoop fuel bg) := by
  induction fuel generalizing bg with
  | zero => exact h
  | succ fuel ih =>
    simp only [Simple.removalLoop]
    split
    exacts [ih h.removalRound, h.removalRound]

/-- Nothing is left to remove. -/
def Stable (bg : BuildingGraphs ν) : Prop :=
  ∀ entry ∈ bg, 2 ≤ entry.2.length ∧ ∀ p ∈ entry.2, 2 ≤ intersectNodeCount bg p.1

theorem removalRound_of_not (h : (removalRound bg).1 = false) : (removalRound bg).2 = bg ∧ Stable bg := by
  have hlong : ∀ entry ∈ bg, 2 ≤ entry.2.length := by
    simp only [removalRound, Bool.or_eq_false_iff, any_eq_false, decide_eq_true_eq] at h
    exact fun entry hentry => not_lt.mp (h.1 entry hentry)
  have hkept : (bg.filter fun entry => ¬ entry.2.length < 2) = bg :=
    filter_eq_self.mpr fun entry hentry => by simpa using Nat.lt_of_succ_le (hlong entry hentry)
  have hcount : ∀ entry ∈ bg, ∀ p ∈ entry.2, 2 ≤ intersectNodeCount bg p.1 := by
    simp only [removalRound, hkept, Bool.or_eq_false_iff, any_eq_false, decide_eq_true_eq] at h
    intro entry hentry p hp
    have := h.2 entry hentry
    simp only [any_eq_true, decide_eq_true_eq, not_exists, not_and, not_lt] at this
    exact this p hp
  refine ⟨?_, fun entry hentry => ⟨hlong entry hentry, hcount entry hentry⟩⟩
  simp only [removalRound, hkept]
  refine (map_congr_left fun entry hentry => ?_).trans (map_id bg)
  rw [filter_eq_self.mpr fun p hp => by simpa using Nat.lt_of_succ_le (hcount entry hentry p hp)]
  rfl

theorem removalLoop_stable (fuel : Nat) (hfuel : size bg < fuel) : Stable (removalLoop fuel bg) := by
  induction fuel generalizing bg with
  | zero => omega
  | succ fuel ih =>
    simp only [removalLoop]
    split
    · rename_i hrem
      have hlt := size_removalRound_lt hrem
      exact ih (by omega)
    · rename_i hrem
      obtain ⟨heq, hstable⟩ := removalRound_of_not (Bool.not_eq_true _ ▸ hrem)
      rwa [heq]

/-! ## The trees -/

/-- No path of one tree shares an edge with a path of the other. -/
def TreeDisjoint (tree tree' : List (List ν)) : Prop :=
  ∀ p ∈ tree, ∀ p' ∈ tree', EdgeDisjoint p p'

theorem findCycleJoin_spec (probes : List ν) (hnd : ∀ path ∈ basic, path.Nodup)
    (hpair : basic.Pairwise EdgeDisjoint) :
    (∀ tree ∈ findCycleJoin probes basic, ∀ p ∈ tree, ∃ path ∈ basic, ∃ v w, Origin probes path v w p) ∧
    (findCycleJoin probes basic).Pairwise TreeDisjoint := by
  have hgrown : Grown probes basic (basic.foldl (addBasicPath probes) []) :=
    foldl_addBasicPath_grown basic (fun _ => id) ⟨List.Pairwise.nil, by
      rintro v w p ⟨inner, hinner, -⟩
      cases hinner⟩
  rw [findCycleJoin]
  generalize hbg : removalLoop _ (basic.foldl (addBasicPath probes) []) = bg
  have hgrown : Grown probes basic bg := hbg ▸ hgrown.removalLoop _
  constructor
  · intro tree htree p hp
    obtain ⟨entry, hentry, rfl⟩ := mem_map.mp htree
    obtain ⟨wp, hwp, rfl⟩ := mem_map.mp hp
    obtain ⟨path, hpath, ho⟩ := hgrown.origin ⟨entry.2, hentry, hwp⟩
    exact ⟨path, hpath, _, _, ho⟩
  · rw [pairwise_map]
    refine hgrown.ascending.imp_of_mem fun {e e'} he he' hlt p hp p' hp' => ?_
    obtain ⟨wp, hwp, rfl⟩ := mem_map.mp hp
    obtain ⟨wp', hwp', rfl⟩ := mem_map.mp hp'
    obtain ⟨path, hpath, ho⟩ := hgrown.origin ⟨e.2, he, hwp⟩
    obtain ⟨path', hpath', ho'⟩ := hgrown.origin ⟨e'.2, he', hwp'⟩
    by_cases heq : path = path'
    · subst heq
      exact ho.edgeDisjoint (hnd path hpath) ho' hlt.ne
    · exact ho.edgeDisjoint_of_paths ho' (hpair.forall hpath hpath' heq)

end Loops

/-! ## The probe graph -/

section Probe

variable {q probe : Graph ν} {basic : List (List ν)} {candidates : List (Graph ν)}

theorem improve_mem (basic : List (List ν)) (candidates : List (Graph ν)) (probe : Graph ν) :
    ((improve basic candidates probe).2 = true → (improve basic candidates probe).1 ∈ candidates) ∧
    ((improve basic candidates probe).2 = false → (improve basic candidates probe).1 = probe) := by
  rw [improve]
  induction candidates using List.reverseRecOn with
  | nil => simp
  | append_singleton candidates candidate ih =>
    rw [foldl_concat]
    generalize candidates.foldl _ (probe, false) = r at ih ⊢
    obtain ⟨best, improved⟩ := r
    simp only at ih ⊢
    split
    · simp
    · exact ⟨fun h => mem_append_left _ (ih.1 h), ih.2⟩

/-- Candidates are parts of the query graph with more nodes than the probe graph. -/
def Larger (q probe : Graph ν) (candidates : List (Graph ν)) : Prop :=
  ∀ c ∈ candidates, c.Sub q ∧ probe.nodes.length < c.nodes.length

variable (hq : q.WF)
  (hbasic : ∀ path ∈ basic, (∀ u ∈ path, u ∈ q.nodes) ∧ ∀ e ∈ steps path, e ∈ q.edges)
include hq hbasic

theorem larger_next (h : probe.Sub q) : Larger q probe (nextCandidates basic probe) := by
  intro c hc
  obtain ⟨path, hpath, rfl⟩ := mem_map.mp hc
  obtain ⟨hpath, hdiff⟩ := mem_filter.mp hpath
  obtain ⟨hsub, hnodes⟩ := pathToGraph_sub hq (hbasic path hpath).1 (hbasic path hpath).2
  obtain ⟨hmerge, hmem⟩ := h.merge hq hsub
  refine ⟨hmerge, ?_⟩
  -- the path brings a node of its own
  obtain ⟨-, hnew⟩ := Bool.and_eq_true_iff.mp hdiff
  obtain ⟨x, hx, hxp⟩ := any_eq_true.mp hnew
  rw [decide_eq_true_eq] at hxp
  refine (nodup_cons.mpr ⟨hxp, h.wf.nodup_nodes⟩).subperm ?_ |>.length_le
  intro y hy
  rcases mem_cons.mp hy with rfl | hy
  exacts [(hmem y).mpr (.inl hx), (hmem y).mpr (.inr hy)]

theorem bestProbe_spec (fuel : Nat) (h : probe.Sub q)
    (hcand : Larger q probe candidates) (hfuel : q.nodes.length < probe.nodes.length + fuel) :
    (bestProbe basic fuel candidates probe).Sub q ∧ ∀ more, bestProbe basic (fuel + more) candidates probe =
        bestProbe basic fuel candidates probe := by
  induction fuel generalizing candidates probe with
  | zero => exact absurd (h.wf.nodup_nodes.subperm fun _ hx => h.nodes hx).length_le (by omega)
  | succ fuel ih =>
    obtain ⟨hin, hout⟩ := improve_mem basic candidates probe
    have hunfold (n : Nat) : bestProbe basic (n + 1) candidates probe =
        if !(improve basic candidates probe).2 then (improve basic candidates probe).1
        else if (nextCandidates basic (improve basic candidates probe).1).length > 0 then
          bestProbe basic n (nextCandidates basic (improve basic candidates probe).1)
            (improve basic candidates probe).1
        else (improve basic candidates probe).1 := rfl
    simp only [Nat.add_right_comm, hunfold]
    generalize improve basic candidates probe = r at hin hout ⊢
    obtain ⟨best, improved⟩ := r
    cases improved with
    | false => exact ⟨by rw [show best = probe from hout rfl]; exact h, fun _ => rfl⟩
    | true =>
      obtain ⟨hbest, hlt⟩ := hcand best (hin rfl)
      obtain ⟨hsub, hmore⟩ := ih hbest (larger_next hq hbasic hbest) (by omega)
      simp only [Bool.not_true, Bool.false_eq_true, if_false, hmore, implies_true, and_true]
      split
      exacts [hsub, hbest]

end Probe

/-! ## The best cycle join -/

section Best

variable {q : Graph ν}

theorem basic_within (hq : q.WF) {path : List ν} (hp : path ∈ findBasicCycleIntersection q) :
    (∀ u ∈ path, u ∈ q.nodes) ∧ ∀ e ∈ steps path, e ∈ q.edges := by
  have hcore := (core_spec hq).1
  have hsteps : ∀ e ∈ steps path, e ∈ q.edges :=
    fun ⟨a, b⟩ he => hcore.sub.edges (basic_steps hq hp he)
  refine ⟨fun u hu => ?_, hsteps⟩
  obtain ⟨b, hb | hb⟩ := exists_step_of_mem (basic_kept hq hp).chain.two_le_length hu
  exacts [hq.mem_nodes (hsteps _ hb), hq.mem_nodes_right (hsteps _ hb)]

theorem basic_nodup (hq : q.WF) {path : List ν} (hp : path ∈ findBasicCycleIntersection q) : path.Nodup :=
  (basic_kept hq hp).chain.nodup (core_spec hq).1.wf.isGraph (basic_kept hq hp).ends

theorem larger_basic (hq : q.WF) {basic : List (List ν)}
    (hsub : ∀ path ∈ basic, path ∈ findBasicCycleIntersection q) :
    Larger q .empty (basic.map pathToGraph) := by
  intro c hc
  obtain ⟨path, hpath, rfl⟩ := mem_map.mp hc
  have hp := hsub path hpath
  obtain ⟨hsub, hnodes⟩ := pathToGraph_sub hq (basic_within hq hp).1 (basic_within hq hp).2
  refine ⟨hsub, ?_⟩
  obtain ⟨u, l, rfl⟩ := exists_cons_of_ne_nil (l := path) (by
    rintro rfl
    simpa using (basic_kept hq hp).chain.two_le_length)
  exact length_pos_of_mem ((hnodes u).mpr mem_cons_self)

/-- What `findBestCycleJoin` returns: the probe graph is induced, the trees come from basic paths,
and different trees share no edge. -/
theorem findBestCycleJoin_spec (sh : Shuffle ν) (hq : q.WF) : (findBestCycleJoin sh q).1.Induced q ∧
    (∀ tree ∈ (findBestCycleJoin sh q).2, ∀ p ∈ tree, ∃ path ∈ findBasicCycleIntersection q,
      ∃ v w, Origin (findBestCycleJoin sh q).1.nodes path v w p) ∧
    (findBestCycleJoin sh q).2.Pairwise TreeDisjoint := by
  rw [findBestCycleJoin]
  split
  · exact ⟨⟨Graph.wf_empty, by simp [Graph.empty], by simp [Graph.empty]⟩, by simp, by simp⟩
  · have hperm := sh.perm (findBasicCycleIntersection q)
    generalize sh.shuffle (findBasicCycleIntersection q) = basic at hperm
    have hsub : ∀ path ∈ basic, path ∈ findBasicCycleIntersection q := fun _ h => hperm.mem_iff.mp h
    obtain ⟨hprobe, -⟩ := bestProbe_spec hq (fun path h => basic_within hq (hsub path h))
      (q.nodes.length + 2) (Graph.sub_empty q) (larger_basic hq hsub) (by omega)
    obtain ⟨horigin, htrees⟩ := findCycleJoin_spec
      (induce q (bestProbe basic (q.nodes.length + 2) (basic.map pathToGraph) .empty)).nodes
      (fun path h => basic_nodup hq (hsub path h))
      ((hperm.pairwise_iff EdgeDisjoint.symm).mpr (basic_pairwise hq))
    refine ⟨(Graph.induced_induce hq hprobe).1, fun tree htree p hp => ?_, htrees⟩
    obtain ⟨path, hpath, ho⟩ := horigin tree htree p hp
    exact ⟨path, hsub path hpath, ho⟩

end Best

end Simple
end CycleJoin
