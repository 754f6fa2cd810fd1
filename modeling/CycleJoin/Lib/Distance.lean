import CycleJoin.Lib.Walks

/-!
# Distances and shortest walks

* `IsDist`: the shortest walks to a node have a length. A node at distance `k + 1` is one that a hop from
  distance `k` enters and that is not nearer (`isDist_succ`), so distances can be found level by level.
* `shortest`: the hops between neighbouring levels. Its walks are the shortest walks (`isWalk_shortest`).
* `WalkCount`: the number of walks of a length. The shortest walks to a node are as many as those to the
  origins of their last hops together (`walkCount_succ`).
-/

namespace CycleJoin

open List

universe u v

namespace HopGraph

variable {V : Type u} {H : Type v} (G : HopGraph V H) (s : V)

/-- The shortest walks to a node have length `k`. -/
def IsDist (k : Nat) (node : V) : Prop := G.HasWalk s k node ∧ ∀ j < k, ¬ G.HasWalk s j node

/-- The hops of shortest walks. -/
def shortest : HopGraph V H where
  enters hop node := G.enters hop node ∧ ∃ k, G.IsDist s k (G.origin hop) ∧ G.IsDist s (k + 1) node
  origin := G.origin

variable {G s} {j k : Nat} {node : V} {hop : H}

@[simp]
theorem isDist_zero : G.IsDist s 0 node ↔ node = s := by simp [IsDist]

theorem IsDist.unique (h : G.IsDist s j node) (h' : G.IsDist s k node) : j = k := by
  obtain hlt | heq | hlt := Nat.lt_trichotomy j k
  · exact absurd h.1 (h'.2 j hlt)
  · exact heq
  · exact absurd h'.1 (h.2 k hlt)

theorem HasWalk.exists_isDist (h : G.HasWalk s k node) : ∃ j ≤ k, G.IsDist s j node := by
  induction k using Nat.strongRecOn with
  | ind k ih =>
    by_cases hshorter : ∃ j < k, G.HasWalk s j node
    · obtain ⟨j, hlt, hw⟩ := hshorter
      obtain ⟨i, hle, hi⟩ := ih j hlt hw
      exact ⟨i, by omega, hi⟩
    · exact ⟨k, Nat.le_refl k, h, fun j hlt hw => hshorter ⟨j, hlt, hw⟩⟩

/-- The walk before the last hop of a shortest walk is a shortest one. -/
theorem IsDist.origin (h : G.IsDist s (k + 1) node) (henters : G.enters hop node)
    (hw : G.HasWalk s k (G.origin hop)) : G.IsDist s k (G.origin hop) :=
  ⟨hw, fun j hlt hj => h.2 (j + 1) (by omega) (hasWalk_succ.mpr ⟨hop, henters, hj⟩)⟩

theorem isDist_succ : G.IsDist s (k + 1) node ↔ (∃ hop, G.enters hop node ∧ G.IsDist s k (G.origin hop)) ∧
      ∀ j ≤ k, ¬ G.IsDist s j node := by
  constructor
  · intro h
    obtain ⟨hop, henters, hw⟩ := hasWalk_succ.mp h.1
    exact ⟨⟨hop, henters, h.origin henters hw⟩, fun j hle hj => h.2 j (by omega) hj.1⟩
  · rintro ⟨⟨hop, henters, hdist⟩, hfar⟩
    refine ⟨hasWalk_succ.mpr ⟨hop, henters, hdist.1⟩, fun j hlt hw => ?_⟩
    obtain ⟨i, hle, hi⟩ := hw.exists_isDist
    exact hfar i (by omega) hi

/-- There are nodes at every smaller distance. -/
theorem IsDist.exists_of_le (h : G.IsDist s k node) (hle : j ≤ k) : ∃ node, G.IsDist s j node := by
  induction k generalizing node with
  | zero => exact ⟨node, by rwa [Nat.le_zero.mp hle]⟩
  | succ k ih =>
    obtain rfl | hlt := Nat.eq_or_lt_of_le hle
    · exact ⟨node, h⟩
    · obtain ⟨⟨hop, -, hdist⟩, -⟩ := isDist_succ.mp h
      exact ih hdist (Nat.le_of_lt_succ hlt)

theorem isWalk_shortest {walk : List H} :
    (G.shortest s).IsWalk s walk node ↔ G.IsWalk s walk node ∧ G.IsDist s walk.length node := by
  induction walk generalizing node with
  | nil => exact ⟨fun h => ⟨h, isDist_zero.mpr h⟩, fun h => h.1⟩
  | cons hop walk ih =>
    have hstep : (G.shortest s).IsWalk s (hop :: walk) node ↔
        (G.shortest s).enters hop node ∧ (G.shortest s).IsWalk s walk (G.origin hop) := Iff.rfl
    rw [hstep, ih]
    constructor
    · rintro ⟨⟨henters, k, hk, hnode⟩, hw, hdist⟩
      obtain rfl := hdist.unique hk
      exact ⟨⟨henters, hw⟩, hnode⟩
    · rintro ⟨⟨henters, hw⟩, hdist⟩
      have horigin := hdist.origin henters ⟨walk, hw, rfl⟩
      exact ⟨⟨henters, walk.length, horigin, hdist⟩, hw, horigin⟩

theorem hasWalk_shortest : (G.shortest s).HasWalk s k node ↔ G.IsDist s k node := by
  constructor
  · rintro ⟨walk, hw, rfl⟩
    exact (isWalk_shortest.mp hw).2
  · intro h
    obtain ⟨walk, hw, rfl⟩ := h.1
    exact ⟨walk, isWalk_shortest.mpr ⟨hw, h⟩, rfl⟩

/-! ## Counting walks -/

/-- There are `count` walks of length `k`. -/
def WalkCount (G : HopGraph V H) (s : V) (k : Nat) (node : V) (count : Nat) : Prop :=
  ∃ walks : List (List H), walks.Nodup ∧
    (∀ walk, walk ∈ walks ↔ G.IsWalk s walk node ∧ walk.length = k) ∧ walks.length = count

theorem walkCount_zero : G.WalkCount s 0 s 1 := by
  refine ⟨[[]], nodup_singleton _, fun walk => ?_, rfl⟩
  rw [mem_singleton, length_eq_zero_iff]
  constructor
  · rintro rfl
    exact ⟨rfl, rfl⟩
  · exact fun h => h.2

theorem WalkCount.unique {c c' : Nat} (h : G.WalkCount s k node c) (h' : G.WalkCount s k node c') : c = c' := by
  obtain ⟨walks, hnodup, hmem, rfl⟩ := h
  obtain ⟨walks', hnodup', hmem', rfl⟩ := h'
  exact ((perm_ext_iff_of_nodup hnodup hnodup').mpr fun walk =>
    (hmem walk).trans (hmem' walk).symm).length_eq

/-- A node that is reached has a walk. -/
theorem WalkCount.pos {c : Nat} (h : G.WalkCount s k node c) (hw : G.HasWalk s k node) : 0 < c := by
  obtain ⟨walks, -, hmem, rfl⟩ := h
  obtain ⟨walk, hwalk⟩ := hw
  exact length_pos_of_mem ((hmem walk).mpr hwalk)

theorem walkCount_succ {hops : List H} {count : V → Nat} (hnodup : hops.Nodup)
    (hhops : ∀ {hop}, hop ∈ hops ↔ G.enters hop node ∧ G.HasWalk s k (G.origin hop))
    (hcount : ∀ hop ∈ hops, G.WalkCount s k (G.origin hop) (count (G.origin hop))) :
    G.WalkCount s (k + 1) node ((hops.map fun hop => count (G.origin hop)).sum) := by
  choose! walks hwalks using hcount
  refine ⟨hops.flatMap fun hop => (walks hop).map (hop :: ·), ?_, fun walk => ?_, ?_⟩
  · refine nodup_flatMap.mpr ⟨fun hop hmem => ?_, hnodup.imp fun hne walk hw hw' => ?_⟩
    · exact (hwalks hop hmem).1.map fun _ _ heq => (cons.inj heq).2
    · obtain ⟨_, -, rfl⟩ := mem_map.mp hw
      obtain ⟨_, -, heq⟩ := mem_map.mp hw'
      exact hne (cons.inj heq).1.symm
  · simp only [mem_flatMap, mem_map]
    constructor
    · rintro ⟨hop, hmem, walk, hw, rfl⟩
      obtain ⟨hwalk, hlen⟩ := ((hwalks hop hmem).2.1 walk).mp hw
      exact ⟨⟨(hhops.mp hmem).1, hwalk⟩, congrArg (· + 1) hlen⟩
    · rintro ⟨hwalk, hlen⟩
      cases walk with
      | nil => cases hlen
      | cons hop walk =>
        have hlen : walk.length = k := Nat.succ.inj hlen
        have hmem : hop ∈ hops := hhops.mpr ⟨hwalk.1, walk, hwalk.2, hlen⟩
        exact ⟨hop, hmem, walk, ((hwalks hop hmem).2.1 walk).mpr ⟨hwalk.2, hlen⟩, rfl⟩
  · rw [length_flatMap]
    refine congrArg sum (map_congr_left fun hop hmem => ?_)
    rw [length_map, (hwalks hop hmem).2.2]

end HopGraph

end CycleJoin
