import CycleJoin.Lib.Odometer
import CycleJoin.Processor.IntersectMultiway.Merge

/-!
# Enumerating the result vectors

`IntersectionLoopState` (`intersect_multiway.cpp`) walks through all combinations of one result
vector per right node and copies the chosen vectors to the output. Vector 0 of a right node has the
`DataChunkState` of the output vector of the node (`initLocalStateInternal`), and so have the output
vectors of all right nodes in the same data chunk: filling an output vector also sets the size of
vector 0 and the sizes of these output vectors. Which right nodes share a data chunk depends on the
plan and is a parameter (`CachedResult.dataChunk`).

* `gotoNextLoop_spec`: the cursors step through the readings of an odometer.
* `Stop`: what the vectors hold at a reading. After a wrap-around vector 0 is copied with the size
  of the last vector.
* `rows`: the tuples of the result set at a stop. Right nodes in one data chunk are read at the same
  position.
* `enumeratesExactly_iff`: the enumeration is exact if and only if right nodes in one data chunk have
  vectors of one ID only, and every right node with several vectors that is not the last such node
  has a last vector as long as its first.
-/

namespace CycleJoin

open List Odometer Function

namespace IntersectMultiway

/-- The part of the state that belongs to one right node `j`: `tuple_cursors[j]`, the data chunk and
the buffer of `outKeyVectors[j]`, and `cachedIntersectionResults[j]`. -/
structure OutputNode where
  cursor : Nat
  dataChunk : Nat
  outData : Nat → InternalID
  chunks : List ValueVec

namespace OutputNode

variable (selSizes : Nat → Nat) (r : OutputNode)

/-- The IDs in the output vector. -/
def outIds : List InternalID := (range (selSizes r.dataChunk)).map r.outData

/-- Vector `c` of the node. Vector 0 has the state of the data chunk, whatever size is noted in it. -/
def cachedChunk (c : Nat) : ValueVec :=
  let chunk := r.chunks.getD c default
  if c = 0 then { chunk with selSize := selSizes r.dataChunk } else chunk

/-- `cursorFinished`. -/
def cursorFinished : Bool :=
  r.chunks.length ≤ r.cursor || (r.cachedChunk selSizes r.cursor).selSize == 0

/-- `fill_output_vector_with_cache`: the node and the sizes of the data chunks. -/
def fillOutputVectorWithCache (cacheIdx : Nat) : OutputNode × (Nat → Nat) :=
  let chunk := r.cachedChunk selSizes cacheIdx
  ({ r with outData := fun p => if p < chunk.selSize then chunk.data p else r.outData p },
    update selSizes r.dataChunk chunk.selSize)

end OutputNode

/-- `IntersectionLoopState`, with the vectors of the operator that it works on. -/
structure IntersectionLoopState where
  nodes : List OutputNode
  /-- The sizes in the states of the data chunks. -/
  selSizes : Nat → Nat
  finished : Bool

namespace IntersectionLoopState

/-- The loop of `reset` over the right nodes. -/
def resetLoop : List OutputNode → (Nat → Nat) → List OutputNode × (Nat → Nat)
  | [], selSizes => ([], selSizes)
  | r :: rs, selSizes =>
    let (r, selSizes) := { r with cursor := 0 }.fillOutputVectorWithCache selSizes 0
    let (rs, selSizes) := resetLoop rs selSizes
    (r :: rs, selSizes)

/-- `reset`. -/
def reset (s : IntersectionLoopState) : IntersectionLoopState :=
  let (nodes, selSizes) := resetLoop s.nodes s.selSizes
  ⟨nodes, selSizes, false⟩

/-- The loop of `gotoNext` over the right nodes, and whether it sets `finished`. -/
def gotoNextLoop : List OutputNode → (Nat → Nat) → List OutputNode × (Nat → Nat) × Bool
  | [], selSizes => ([], selSizes, false)
  | r :: rs, selSizes =>
    let r := { r with cursor := r.cursor + 1 }
    if r.cursorFinished selSizes then
      if rs ≠ [] then
        let (r, selSizes) :=
          if r.cursor ≠ 1 then r.fillOutputVectorWithCache selSizes 0 else (r, selSizes)
        let (rs, selSizes, finished) := gotoNextLoop rs selSizes
        ({ r with cursor := 0 } :: rs, selSizes, finished)
      else ([r], selSizes, true)
    else
      let (r, selSizes) := r.fillOutputVectorWithCache selSizes r.cursor
      (r :: rs, selSizes, false)

/-- `gotoNext`. -/
def gotoNext (s : IntersectionLoopState) : IntersectionLoopState :=
  let (nodes, selSizes, finished) := gotoNextLoop s.nodes s.selSizes
  ⟨nodes, selSizes, s.finished || finished⟩

/-- The states that `getNextTuplesInternal` returns with for one probe tuple: the given one, and
those after each `gotoNext` until it finishes; `none` when the fuel runs out. -/
def stops : Nat → IntersectionLoopState → Option (List IntersectionLoopState)
  | 0, _ => none
  | fuel + 1, s => if s.finished then some [] else (stops fuel s.gotoNext).map (s :: ·)

variable (s : IntersectionLoopState)

/-- `tuple_cursors`. -/
def cursors : List Nat := s.nodes.map (·.cursor)

/-- The IDs in the output vectors. -/
def outIds : List (List InternalID) := s.nodes.map (·.outIds s.selSizes)

/-- The data chunks of the output vectors. -/
def dataChunks : List Nat := s.nodes.map (·.dataChunk)

/-- The tuples of the result set: one position in each data chunk, and the IDs that the output
vectors hold there. -/
def rows : List (List InternalID) :=
  (s.dataChunks.dedup.map fun d => (range (s.selSizes d)).map (d, ·)).sections.map fun positions =>
    s.nodes.map fun r => r.outData ((positions.lookup r.dataChunk).getD 0)

end IntersectionLoopState

/-- The result vectors of one right node after its intersection: one or more non-empty vectors, and
the vectors that a larger result of an earlier probe tuple left behind. -/
structure CachedResult where
  /-- The data chunk of the output vector of the node. -/
  dataChunk : Nat
  filled : List ValueVec
  stale : List ValueVec
  filled_ne_nil : filled ≠ []
  filled_pos : ∀ v ∈ filled, 0 < v.selSize
  stale_zero : ∀ v ∈ stale, v.selSize = 0

namespace CachedResult

def chunks (r : CachedResult) : List ValueVec := r.filled ++ r.stale

def numChunks (r : CachedResult) : Nat := r.filled.length

def chunk (r : CachedResult) (c : Nat) : ValueVec := r.filled.getD c default

end CachedResult

/-- The results of all right nodes. The vectors 0 of the nodes in one data chunk share their state,
so they have the same size. -/
structure ResultFamily where
  results : List CachedResult
  shared : ∀ r ∈ results, ∀ r' ∈ results, r.dataChunk = r'.dataChunk →
    (r.chunk 0).selSize = (r'.chunk 0).selSize

/-- The state holds the results of the family. -/
structure Holds (s : IntersectionLoopState) (family : List CachedResult) : Prop where
  nodes : Forall₂ (fun r n => n.dataChunk = r.dataChunk ∧ n.chunks = r.chunks) family s.nodes
  selSizes : ∀ r ∈ family, s.selSizes r.dataChunk = (r.chunk 0).selSize

/-- The enumeration of a family of results is exact, whatever the output vectors and the cursors
hold before: it ends, visits every combination of vectors once, holds the chosen vectors in the
output at each stop, and emits the product of the complete results. -/
def EnumeratesExactly (family : ResultFamily) : Prop :=
  ∀ s : IntersectionLoopState, Holds s family.results →
    ∃ fuel visited, s.reset.stops fuel = some visited ∧
      (visited.map (·.cursors)).Perm (family.results.map fun r => range r.numChunks).sections ∧
      (∀ stop ∈ visited, stop.outIds =
        zipWith (fun r c => (r.chunk c).ids) family.results stop.cursors) ∧
      (visited.flatMap (·.rows)).Perm (family.results.map fun r => contents r.chunks).sections

/-! ## Vectors -/

open IntersectionLoopState

variable {c : Nat}

namespace CachedResult

variable (r : CachedResult)

theorem numChunks_pos : 0 < r.numChunks := length_pos_iff.mpr r.filled_ne_nil

theorem getD_chunks {c : Nat} (hc : c < r.numChunks) : r.chunks.getD c default = r.chunk c := getD_append _ _ _ _ hc

theorem chunk_pos {c : Nat} (hc : c < r.numChunks) : 0 < (r.chunk c).selSize := by
  rw [chunk, getD_eq_getElem _ _ hc]
  exact r.filled_pos _ (getElem_mem hc)

/-- Behind the last non-empty vector there is none or an empty one. -/
theorem chunks_numChunks : r.chunks.length ≤ r.numChunks ∨ (r.chunks.getD r.numChunks default).selSize = 0 := by
  rw [chunks, numChunks, length_append]
  cases h : r.stale with
  | nil => exact .inl le_rfl
  | cons v vs =>
    right
    rw [getD_append_right _ _ _ _ le_rfl, Nat.sub_self]
    exact r.stale_zero v (h ▸ mem_cons_self)

theorem contents_chunks : contents r.chunks = (r.filled.map ValueVec.ids).flatten := by
  have hstale := contents_of_stale r.stale_zero
  rw [contents] at hstale
  rw [chunks, contents, flatMap_append, hstale, append_nil, flatMap_def]

/-- Every vector holds one ID. -/
def Single : Prop := ∀ c < r.numChunks, (r.chunk c).selSize = 1

end CachedResult

/-- Two right nodes in one data chunk have vectors of one ID only. -/
def Apart (r r' : CachedResult) : Prop := r.dataChunk = r'.dataChunk → r.Single ∧ r'.Single

/-! ## Stops -/

/-- The size of the output vector at digit `c`; `later` says that a later digit is not 0. The
digit 0 after a wrap-around has the size of the last vector. -/
def sizeAt (r : CachedResult) (c : Nat) (later : Bool) : Nat :=
  if c = 0 ∧ 2 ≤ r.numChunks ∧ later = true then (r.chunk (r.numChunks - 1)).selSize
  else (r.chunk c).selSize

/-- A right node at digit `c`, in a data chunk of size `σ`. -/
structure NodeAt (r : CachedResult) (σ : Nat) (n : OutputNode) (c : Nat) (later : Bool) : Prop where
  cursor : n.cursor = c
  lt : c < r.numChunks
  dataChunk : n.dataChunk = r.dataChunk
  chunks : n.chunks = r.chunks
  size : σ = sizeAt r c later
  data : ∀ p < σ, n.outData p = (r.chunk c).data p

/-- Some digit is not 0. -/
def anyNonzero (cs : List Nat) : Bool := cs.any (· != 0)

variable {cs : List Nat}

theorem anyNonzero_iff : anyNonzero cs = true ↔ ∃ d ∈ cs, d ≠ 0 := by simp [anyNonzero]

/-- The right nodes at the reading `cs`. -/
inductive Stop (σ : Nat → Nat) : List CachedResult → List OutputNode → List Nat → Prop where
  | nil : Stop σ [] [] []
  | cons {r : CachedResult} {n : OutputNode} {c : Nat} {family : List CachedResult}
      {nodes : List OutputNode} {cs : List Nat} (h : NodeAt r (σ r.dataChunk) n c (anyNonzero cs))
      (hs : Stop σ family nodes cs) : Stop σ (r :: family) (n :: nodes) (c :: cs)

variable {family : List CachedResult} {nodes : List OutputNode} {σ : Nat → Nat}

theorem Stop.cursors (h : Stop σ family nodes cs) : nodes.map (·.cursor) = cs := by
  induction h with
  | nil => rfl
  | cons h _ ih => rw [map_cons, h.cursor, ih]

variable {r : CachedResult} {n : OutputNode} {later : Bool} {σ' : Nat → Nat}

theorem CachedResult.Single.sizeAt (h : r.Single) (hc : c < r.numChunks) : sizeAt r c later = 1 := by
  rw [IntersectMultiway.sizeAt]
  split
  · exact h _ (Nat.sub_one_lt_of_lt hc)
  · exact h c hc

/-- A stop does not depend on the sizes of other data chunks. -/
theorem Stop.congr (h : Stop σ family nodes cs) (hσ : ∀ r ∈ family, σ' r.dataChunk = σ r.dataChunk) :
    Stop σ' family nodes cs := by
  induction h with
  | nil => exact .nil
  | cons h _ ih =>
    obtain ⟨h₀, hσ⟩ := forall_mem_cons.mp hσ
    exact .cons (h₀ ▸ h) (ih hσ)

/-- In a data chunk of nodes with single IDs the size is 1. -/
theorem Stop.size_of_single (h : Stop σ family nodes cs) (hr : r ∈ family) (hs : r.Single) :
    σ r.dataChunk = 1 := by
  induction h with
  | nil => cases hr
  | cons h _ ih =>
    rcases mem_cons.mp hr with rfl | hr
    · rw [h.size, hs.sizeAt h.lt]
    · exact ih hr

theorem NodeAt.cachedChunk {σ₀ : Nat} (h : NodeAt r σ₀ n c later) {b : Nat} (hb : b < r.numChunks)
    (h0 : b ≠ 0) : n.cachedChunk σ b = r.chunk b := by
  rw [OutputNode.cachedChunk, if_neg h0, h.chunks, r.getD_chunks hb]

/-- The cursor of a node has passed its vectors exactly behind the last non-empty one. -/
theorem NodeAt.cursorFinished_iff {σ₀ : Nat} (h : NodeAt r σ₀ n c later) :
    OutputNode.cursorFinished σ { n with cursor := c + 1 } = true ↔ ¬ c + 1 < r.numChunks := by
  simp only [OutputNode.cursorFinished, OutputNode.cachedChunk, h.chunks,
    if_neg (Nat.add_one_ne_zero c), Bool.or_eq_true, decide_eq_true_eq, beq_iff_eq]
  constructor
  · rintro hfin hlt
    rcases hfin with hlen | hzero
    · rw [CachedResult.chunks, length_append] at hlen
      exact absurd hlt (not_lt.mpr ((Nat.le_add_right _ _).trans hlen))
    · rw [r.getD_chunks hlt] at hzero
      exact (r.chunk_pos hlt).ne' hzero
  · intro hge
    have hc : c + 1 = r.numChunks := by
      have := h.lt
      omega
    rw [hc]
    exact r.chunks_numChunks

/-! ## Steps -/

/-- Copying vector 0 leaves all sizes as they are. -/
@[simp] theorem fill_zero_selSizes (n : OutputNode) : (n.fillOutputVectorWithCache σ 0).2 = σ := by
  simp [OutputNode.fillOutputVectorWithCache, OutputNode.cachedChunk]

/-- Copying vector 0 copies as much of it as its size says at that moment. -/
theorem fill_zero_data (hn : n.chunks = r.chunks) {p : Nat} (hp : p < σ n.dataChunk) :
    (n.fillOutputVectorWithCache σ 0).1.outData p = (r.chunk 0).data p := by
  simp only [OutputNode.fillOutputVectorWithCache, OutputNode.cachedChunk, if_true, if_pos hp, hn,
    r.getD_chunks r.numChunks_pos]

/-- A digit that moves up: its vector is copied. -/
theorem NodeAt.advance (h : NodeAt r (σ r.dataChunk) n c later) (hlt : c + 1 < r.numChunks) :
    NodeAt r (r.chunk (c + 1)).selSize
      (OutputNode.fillOutputVectorWithCache σ { n with cursor := c + 1 } (c + 1)).1 (c + 1) later := by
  have hchunk := h.cachedChunk (σ := σ) hlt c.succ_ne_zero
  refine ⟨rfl, hlt, h.dataChunk, h.chunks, (if_neg (by simp)).symm, fun p hp => ?_⟩
  rw [← hchunk] at hp ⊢
  exact if_pos hp

/-- A digit that wraps around while a later digit moves up. Vector 0 is copied unless it is the
only vector, and then it has the size of the last vector. -/
theorem NodeAt.wrap (h : NodeAt r (σ r.dataChunk) n c later) (hge : ¬ c + 1 < r.numChunks) :
    NodeAt r (σ r.dataChunk) { (if c + 1 ≠ 1 then
        (OutputNode.fillOutputVectorWithCache σ { n with cursor := c + 1 } 0).1
      else { n with cursor := c + 1 }) with cursor := 0 } 0 true := by
  have hlast : c = r.numChunks - 1 := by
    have := h.lt
    omega
  by_cases hc : c = 0
  · -- a single vector: nothing is copied, and no size has changed
    subst hc
    have hone : ¬ 2 ≤ r.numChunks := by omega
    have hsize (l : Bool) : sizeAt r 0 l = (r.chunk 0).selSize := if_neg (by simp [hone])
    exact ⟨rfl, r.numChunks_pos, h.dataChunk, h.chunks, by rw [h.size, hsize, hsize], h.data⟩
  · have hsize : σ r.dataChunk = sizeAt r 0 true := by
      rw [h.size, sizeAt, if_neg (by simp [hc]), hlast, sizeAt, if_pos ⟨rfl, by omega, rfl⟩]
    rw [if_pos (by omega)]
    refine ⟨rfl, r.numChunks_pos, h.dataChunk, h.chunks, hsize, fun p hp => ?_⟩
    exact fill_zero_data (n := { n with cursor := c + 1 }) h.chunks (h.dataChunk ▸ hp)

/-- The step changes the sizes of the data chunks of its nodes only. -/
theorem gotoNextLoop_selSizes {d : Nat} (hd : ∀ n ∈ nodes, n.dataChunk ≠ d) :
    (gotoNextLoop nodes σ).2.1 d = σ d := by
  induction nodes generalizing σ with
  | nil => rfl
  | cons n nodes ih =>
    obtain ⟨hn, hd⟩ := forall_mem_cons.mp hd
    have hfill (b : Nat) (σ : Nat → Nat) :
        (OutputNode.fillOutputVectorWithCache σ { n with cursor := n.cursor + 1 } b).2 d = σ d :=
      update_of_ne (Ne.symm hn) _ _
    rw [gotoNextLoop]
    split
    · split
      · refine (ih hd).trans ?_
        split
        · exact hfill 0 σ
        · rfl
      · rfl
    · exact hfill _ σ

/-- The step does not move nodes to other data chunks. -/
theorem gotoNextLoop_dataChunks (nodes : List OutputNode) (σ : Nat → Nat) :
    (gotoNextLoop nodes σ).1.map (·.dataChunk) = nodes.map (·.dataChunk) := by
  induction nodes generalizing σ with
  | nil => rfl
  | cons n nodes ih =>
    rw [gotoNextLoop]
    split
    · split
      · simp only [map_cons, ih, cons.injEq, and_true]
        split <;> rfl
      · rename_i hnil
        rw [not_not.mp hnil]
        rfl
    · rfl

theorem Stop.dataChunks (h : Stop σ family nodes cs) : nodes.map (·.dataChunk) = family.map (·.dataChunk) := by
  induction h with
  | nil => rfl
  | cons h _ ih => rw [map_cons, map_cons, h.dataChunk, ih]

/-- Filling the output vector of a node leaves a stop of later nodes, as it writes the size 1 again to a data
chunk that it shares with them. -/
theorem Stop.fill (h : Stop σ family nodes cs) (hr : ∀ r' ∈ family, Apart r r') (hc : c < r.numChunks) :
    Stop (update σ r.dataChunk (r.chunk c).selSize) family nodes cs := by
  refine h.congr fun r' hr' => ?_
  by_cases hd : r'.dataChunk = r.dataChunk
  · obtain ⟨h₁, h₂⟩ := hr r' hr' hd.symm
    rw [hd, update_self, h₁ _ hc, ← hd, h.size_of_single hr' h₂]
  · exact update_of_ne hd _ _

/-- A step of later nodes to a stop leaves the size of the data chunk of a node. -/
theorem Stop.selSizes_gotoNextLoop {cs' : List Nat} (h : Stop σ family nodes cs)
    (h' : Stop (gotoNextLoop nodes σ).2.1 family (gotoNextLoop nodes σ).1 cs')
    (hr : ∀ r' ∈ family, Apart r r') : (gotoNextLoop nodes σ).2.1 r.dataChunk = σ r.dataChunk := by
  by_cases hd : ∃ r' ∈ family, r.dataChunk = r'.dataChunk
  · obtain ⟨r', hr', hd⟩ := hd
    obtain ⟨-, hone⟩ := hr r' hr' hd
    rw [hd, h'.size_of_single hr' hone, h.size_of_single hr' hone]
  · refine gotoNextLoop_selSizes fun n' hn' hd' => hd ?_
    have hmem := mem_map_of_mem (f := (·.dataChunk)) hn'
    rw [h.dataChunks, hd'] at hmem
    obtain ⟨r', hr', hd'⟩ := mem_map.mp hmem
    exact ⟨r', hr', hd'.symm⟩

/-- `gotoNext` moves the cursors to the next reading, and finishes when there is none. -/
theorem gotoNextLoop_spec (ha : family.Pairwise Apart) (h : Stop σ family nodes cs) :
    (∀ cs', Odometer.next (family.map (·.numChunks)) cs = some cs' →
      (gotoNextLoop nodes σ).2.2 = false ∧ Stop (gotoNextLoop nodes σ).2.1 family (gotoNextLoop nodes σ).1 cs') ∧
    (Odometer.next (family.map (·.numChunks)) cs = none → family ≠ [] → (gotoNextLoop nodes σ).2.2 = true) := by
  induction h with
  | nil => simp [Odometer.next]
  | @cons r n c family nodes cs h hs ih =>
    obtain ⟨hr, ha⟩ := pairwise_cons.mp ha
    obtain ⟨ih₁, ih₂⟩ := ih ha
    have hfin := h.cursorFinished_iff (σ := σ)
    rw [map_cons, gotoNextLoop]
    simp only [h.cursor]
    by_cases hlt : c + 1 < r.numChunks
    · -- the digit moves up
      rw [next_cons_of_lt hlt, if_neg (by rw [hfin]; exact not_not.mpr hlt)]
      refine ⟨?_, by simp⟩
      rintro cs' ⟨rfl⟩
      have hsize : (OutputNode.fillOutputVectorWithCache σ { n with cursor := c + 1 } (c + 1)).2 =
          update σ r.dataChunk (r.chunk (c + 1)).selSize := by
        rw [← h.dataChunk, ← h.cachedChunk (σ := σ) hlt c.succ_ne_zero]
        rfl
      simp only [hsize]
      refine ⟨trivial, .cons ?_ (hs.fill hr hlt)⟩
      rw [update_self]
      exact h.advance hlt
    rw [next_cons_of_not_lt hlt, if_pos (hfin.mpr hlt)]
    by_cases hnodes : nodes = []
    · subst hnodes
      cases hs
      simp [Odometer.next]
    -- the digit wraps around, and a later one moves up
    rw [if_pos hnodes]
    have hfam : family ≠ [] := by
      rintro rfl
      cases hs
      exact hnodes rfl
    have hσ : (if c + 1 ≠ 1 then OutputNode.fillOutputVectorWithCache σ { n with cursor := c + 1 } 0
        else ({ n with cursor := c + 1 }, σ)).2 = σ := by
      split
      · exact fill_zero_selSizes _
      · rfl
    simp only [hσ]
    refine ⟨fun cs' hcs' => ?_, fun hnone _ => ih₂ (Option.map_eq_none_iff.mp hnone) hfam⟩
    obtain ⟨cs₁, hcs₁, rfl⟩ := Option.map_eq_some_iff.mp hcs'
    obtain ⟨hf, hst⟩ := ih₁ cs₁ hcs₁
    refine ⟨hf, .cons ?_ hst⟩
    rw [anyNonzero_iff.mpr (exists_ne_zero_of_next hcs₁), hs.selSizes_gotoNextLoop hst hr]
    have hwrap := h.wrap hlt
    split at hwrap <;> rename_i h1
    · rwa [if_pos h1]
    · rwa [if_neg h1]

/-! ## Runs -/

theorem anyNonzero_zeros {α : Type} (l : List α) : anyNonzero (l.map fun _ => 0) = false := by
  simp [anyNonzero]

/-- `reset` shows the first vector of every right node. -/
theorem resetLoop_spec
    (h : Forall₂ (fun r n => n.dataChunk = r.dataChunk ∧ n.chunks = r.chunks) family nodes)
    (hσ : ∀ r ∈ family, σ r.dataChunk = (r.chunk 0).selSize) :
    (resetLoop nodes σ).2 = σ ∧
      Stop σ family (resetLoop nodes σ).1 (family.map fun _ => 0) := by
  induction h with
  | nil => exact ⟨rfl, .nil⟩
  | @cons r n family nodes hn _ ih =>
    obtain ⟨hr, hσ⟩ := forall_mem_cons.mp hσ
    obtain ⟨hsame, hstop⟩ := ih hσ
    simp only [resetLoop, fill_zero_selSizes]
    refine ⟨hsame, .cons ⟨rfl, r.numChunks_pos, hn.1, hn.2, ?_, fun p hp => ?_⟩ hstop⟩
    · rw [anyNonzero_zeros, hr, sizeAt, if_neg (by simp)]
    · exact fill_zero_data (n := { n with cursor := 0 }) hn.2 (hn.1 ▸ hp)

/-- From a stop the enumeration goes on through all later readings and ends. -/
theorem stops_spec (hne : family ≠ []) (ha : family.Pairwise Apart) (h : Stop σ family nodes cs) :
    ∃ fuel visited, (IntersectionLoopState.mk nodes σ false).stops fuel = some visited ∧
      Forall₂ (fun s => Stop s.selSizes family s.nodes) visited
        (cs :: after (family.map (·.numChunks)) cs) := by
  have hpos : ∀ k ∈ family.map (·.numChunks), 0 < k := by
    simp only [forall_mem_map]
    exact fun r _ => r.numChunks_pos
  -- induction on the number of readings that are left
  induction hn : (after (family.map (·.numChunks)) cs).length generalizing nodes cs σ with
  | zero =>
    obtain ⟨-, hlast⟩ := gotoNextLoop_spec ha h
    have hnone : Odometer.next (family.map (·.numChunks)) cs = none := by
      by_contra hsome
      obtain ⟨cs', hcs'⟩ := Option.ne_none_iff_exists'.mp hsome
      simp [after_eq_cons hpos hcs'] at hn
    refine ⟨2, [⟨nodes, σ, false⟩], ?_, ?_⟩
    · simp [stops, gotoNext, hlast hnone hne]
    · rw [after_eq_nil hnone]
      exact .cons h .nil
  | succ m ih =>
    obtain ⟨cs', hcs'⟩ : ∃ cs', Odometer.next (family.map (·.numChunks)) cs = some cs' := by
      by_contra hnone
      rw [← Option.isSome_iff_exists, Option.not_isSome_iff_eq_none] at hnone
      simp [after_eq_nil hnone] at hn
    obtain ⟨hf, hst⟩ := (gotoNextLoop_spec ha h).1 cs' hcs'
    have hcons := after_eq_cons hpos hcs'
    rw [hcons, length_cons, Nat.add_right_cancel_iff] at hn
    obtain ⟨fuel, visited, hrun, hall⟩ := ih hst hn
    refine ⟨fuel + 1, ⟨nodes, σ, false⟩ :: visited, ?_, hcons ▸ .cons h hall⟩
    simp [stops, gotoNext, hf, hrun]

/-! ## Exactness -/

/-- At the reading `cs` every output vector has the size of the chosen vector. -/
def SizesOk : List CachedResult → List Nat → Prop
  | r :: family, c :: cs =>
    sizeAt r c (anyNonzero cs) = (r.chunk c).selSize ∧ SizesOk family cs
  | _, _ => True

/-- At a stop the output is right exactly if all sizes are. -/
theorem Stop.exact_iff (h : Stop σ family nodes cs) :
    nodes.map (·.outIds σ) = zipWith (fun r c => (r.chunk c).ids) family cs ↔ SizesOk family cs := by
  induction h with
  | nil => simp [SizesOk]
  | @cons r n c family nodes cs h hs ih =>
    rw [map_cons, zipWith_cons_cons, cons.injEq, ih]
    refine and_congr_left fun _ => ?_
    have hout : n.outIds σ = (range (sizeAt r c (anyNonzero cs))).map (r.chunk c).data := by
      rw [OutputNode.outIds, h.dataChunk, ← h.size]
      exact map_congr_left fun p hp => h.data p (mem_range.mp hp)
    rw [hout, ValueVec.ids]
    constructor
    · intro heq
      simpa using congrArg length heq
    · intro heq
      rw [heq]

/-- The condition for an exact enumeration: of two right nodes with several vectors each, the first
has a last vector as long as its first vector. -/
def LastAsFirst (r r' : CachedResult) : Prop :=
  2 ≤ r.numChunks → 2 ≤ r'.numChunks → (r.chunk (r.numChunks - 1)).selSize = (r.chunk 0).selSize

/-- The combinations of one vector per right node. -/
def readings (family : List CachedResult) : List (List Nat) :=
  (family.map fun r => range r.numChunks).sections

theorem forall_readings_cons {P : List Nat → Prop} : (∀ cs ∈ readings (r :: family), P cs) ↔
      ∀ cs ∈ readings family, ∀ c < r.numChunks, P (c :: cs) := by
  simp only [readings, map_cons, sections, mem_flatMap, mem_map, mem_range]
  constructor
  · exact fun h cs hcs c hc => h _ ⟨cs, hcs, c, hc, rfl⟩
  · rintro h _ ⟨cs, hcs, c, hc, rfl⟩
    exact h cs hcs c hc

theorem zeros_mem_readings (family : List CachedResult) : (family.map fun _ => 0) ∈ readings family := by
  rw [readings, mem_sections, forall₂_map_left_iff, forall₂_map_right_iff, forall₂_same]
  exact fun r _ => mem_range.mpr r.numChunks_pos

/-- Every reading is 0 throughout if and only if no node has two vectors. -/
theorem readings_zero_iff : (∀ cs ∈ readings family, anyNonzero cs = false) ↔ ∀ r ∈ family, r.numChunks < 2 := by
  induction family with
  | nil => simp [readings, anyNonzero]
  | cons r family ih =>
    rw [forall_readings_cons, forall_mem_cons, ← ih]
    constructor
    · intro h
      refine ⟨?_, fun cs hcs => ?_⟩
      · by_contra htwo
        simpa [anyNonzero] using h _ (zeros_mem_readings family) 1 (by omega)
      · simpa [anyNonzero] using h cs hcs 0 r.numChunks_pos
    · rintro ⟨hr, h⟩ cs hcs c hc
      obtain rfl : c = 0 := by omega
      simpa [anyNonzero] using h cs hcs

/-- The sizes at digit `c` are right in all readings if and only if the last vector is as long as
the first wherever that is needed. -/
theorem sizeAt_iff (r : CachedResult) (family : List CachedResult) : (∀ cs ∈ readings family, ∀ c < r.numChunks,
      sizeAt r c (anyNonzero cs) = (r.chunk c).selSize) ↔ ∀ r' ∈ family, LastAsFirst r r' := by
  constructor
  · intro h r' hr' htwo htwo'
    -- some reading has a digit other than 0 behind this node
    have hnz : ¬ ∀ cs ∈ readings family, anyNonzero cs = false := by
      rw [readings_zero_iff]
      exact fun hall => absurd (hall r' hr') (by omega)
    push Not at hnz
    obtain ⟨cs, hcs, hnz⟩ := hnz
    have := h cs hcs 0 r.numChunks_pos
    rwa [sizeAt, if_pos ⟨rfl, htwo, by simpa using hnz⟩] at this
  · intro h cs hcs c hc
    rw [sizeAt]
    split
    · rename_i hw
      obtain ⟨rfl, htwo, hnz⟩ := hw
      have hsome : ¬ ∀ r' ∈ family, r'.numChunks < 2 := by
        rw [← readings_zero_iff]
        exact fun hall => by simp [hall cs hcs] at hnz
      push Not at hsome
      obtain ⟨r', hr', htwo'⟩ := hsome
      exact h r' hr' htwo htwo'
    · rfl

theorem sizesOk_iff : (∀ cs ∈ readings family, SizesOk family cs) ↔ family.Pairwise LastAsFirst := by
  induction family with
  | nil => simp [SizesOk]
  | cons r family ih =>
    rw [pairwise_cons, ← ih, ← sizeAt_iff, forall_readings_cons]
    constructor
    · exact fun h => ⟨fun cs hcs c hc => (h cs hcs c hc).1, fun cs hcs => (h cs hcs 0 r.numChunks_pos).2⟩
    · exact fun h cs hcs c hc => ⟨h.1 cs hcs c hc, h.2 cs hcs⟩

/-- Choosing the vectors of all readings is choosing a vector of every node. -/
theorem readings_map_pick (family : List CachedResult) :
    (readings family).map (zipWith (fun r c => (r.chunk c).ids) family) =
      (family.map fun r => r.filled.map ValueVec.ids).sections := by
  induction family with
  | nil => rfl
  | cons r family ih =>
    have hpick : (range r.numChunks).map (fun c => (r.chunk c).ids) = r.filled.map ValueVec.ids := by
      apply ext_getElem (by simp [CachedResult.numChunks])
      intro i h₁ h₂
      simp only [length_map] at h₂
      simp [CachedResult.chunk, getElem?_eq_getElem h₂]
    simp only [readings, map_cons, sections, map_flatMap, map_map, ← ih, flatMap_map, ← hpick]
    rfl

variable {s : IntersectionLoopState} {visited : List IntersectionLoopState}

/-- If every stop is right, the products of the output vectors make up the product of the complete
results. -/
theorem emitted_perm (hv : (visited.map (·.cursors)).Perm (readings family))
    (hex : ∀ stop ∈ visited, stop.outIds = zipWith (fun r c => (r.chunk c).ids) family stop.cursors) :
    (visited.flatMap (·.outIds.sections)).Perm (family.map fun r => contents r.chunks).sections := by
  have hemit : (visited.flatMap (·.outIds.sections)) =
      ((visited.map (·.cursors)).map (zipWith (fun r c => (r.chunk c).ids) family)).flatMap sections := by
    rw [map_map, flatMap_map]
    exact flatMap_congr fun stop hstop => by rw [hex stop hstop]; rfl
  rw [hemit]
  refine ((hv.map _).flatMap_right _).trans ?_
  rw [readings_map_pick]
  refine ((sections_map_flatten_perm _).symm).trans (Perm.of_eq ?_)
  rw [map_map]
  congr 1
  exact map_congr_left fun r _ => r.contents_chunks.symm

theorem cursors_of_stops {css : List (List Nat)}
    (h : Forall₂ (fun s => Stop s.selSizes family s.nodes) visited css) :
    visited.map (·.cursors) = css ∧
      ∀ stop ∈ visited, Stop stop.selSizes family stop.nodes stop.cursors := by
  induction h with
  | nil => simp
  | cons h _ ih =>
    rw [map_cons, ih.1, forall_mem_cons, cursors, h.cursors]
    exact ⟨rfl, h, ih.2⟩

/-- The whole enumeration stops at every reading, in order. -/
theorem reset_stops_spec (hne : family ≠ []) (ha : family.Pairwise Apart) (h : Holds s family) :
    ∃ fuel visited, s.reset.stops fuel = some visited ∧ visited.map (·.cursors) = readings family ∧
      ∀ stop ∈ visited, Stop stop.selSizes family stop.nodes stop.cursors := by
  obtain ⟨hsame, hstop⟩ := resetLoop_spec h.nodes h.selSizes
  obtain ⟨fuel, visited, hrun, hall⟩ := stops_spec hne ha hstop
  obtain ⟨hcursors, hstops⟩ := cursors_of_stops hall
  refine ⟨fuel, visited, ?_, hcursors.trans ?_, hstops⟩
  · have hreset : s.reset = ⟨(resetLoop s.nodes s.selSizes).1, _, false⟩ := rfl
    rwa [hreset, hsame]
  · have hzeros := zeros_cons_after (family.map (·.numChunks)) (by
      simp only [forall_mem_map]
      exact fun r _ => r.numChunks_pos)
    rw [map_map, map_map] at hzeros
    exact hzeros

/-- The stops do not depend on the fuel. -/
theorem stops_unique {f₁ f₂ : Nat} {v₁ v₂ : List IntersectionLoopState}
    (h₁ : s.stops f₁ = some v₁) (h₂ : s.stops f₂ = some v₂) : v₁ = v₂ := by
  induction f₁ generalizing f₂ s v₁ v₂ with
  | zero => cases h₁
  | succ f₁ ih =>
    cases f₂ with
    | zero => cases h₂
    | succ f₂ =>
      rw [stops] at h₁ h₂
      split at h₁
      · rename_i hf
        rw [if_pos hf] at h₂
        exact Option.some_inj.mp (h₁.symm.trans h₂)
      · rename_i hf
        rw [if_neg hf] at h₂
        obtain ⟨u₁, hu₁, rfl⟩ := Option.map_eq_some_iff.mp h₁
        obtain ⟨u₂, hu₂, rfl⟩ := Option.map_eq_some_iff.mp h₂
        rw [ih hu₁ hu₂]

/-- Without right nodes the enumeration never finishes. -/
theorem stops_nil (σ : Nat → Nat) (fuel : Nat) : (IntersectionLoopState.mk [] σ false).stops fuel = none := by
  induction fuel with
  | zero => rfl
  | succ fuel ih => rw [stops, if_neg (by simp)]; exact congrArg _ ih

/-- A state that holds the results of the family. -/
def ResultFamily.initial (family : ResultFamily) : IntersectionLoopState where
  nodes := family.results.map fun r => ⟨0, r.dataChunk, fun _ => default, r.chunks⟩
  selSizes := fun d =>
    ((family.results.find? (·.dataChunk == d)).map fun r => (r.chunk 0).selSize).getD 0
  finished := true

theorem ResultFamily.holds_initial (family : ResultFamily) : Holds family.initial family.results := by
  refine ⟨?_, fun r hr => ?_⟩
  · rw [initial, forall₂_map_right_iff, forall₂_same]
    exact fun r _ => ⟨rfl, rfl⟩
  · obtain ⟨r', hr'⟩ : ∃ r', family.results.find? (·.dataChunk == r.dataChunk) = some r' := by
      rw [← Option.isSome_iff_exists, find?_isSome]
      exact ⟨r, hr, by simp⟩
    have hd : r'.dataChunk = r.dataChunk := by simpa using find?_some hr'
    simp only [initial, hr']
    exact family.shared r' (mem_of_find?_eq_some hr') r hr hd

/-! ## Rows -/

/-- A choice of positions has one for every data chunk. -/
theorem lookup_of_mem_sections {ds : List Nat} {positions : List (Nat × Nat)} {d : Nat}
    (h : positions ∈ (ds.map fun d => (range (σ d)).map (d, ·)).sections) (hd : d ∈ ds) :
    ∃ p < σ d, positions.lookup d = some p := by
  induction ds generalizing positions with
  | nil => cases hd
  | cons d' ds ih =>
    simp only [map_cons, sections, mem_flatMap, mem_map, mem_range] at h
    obtain ⟨ps, hps, _, ⟨p, hp, rfl⟩, rfl⟩ := h
    by_cases heq : d = d'
    · subst heq
      exact ⟨p, hp, lookup_cons_self⟩
    · rw [lookup_cons, beq_eq_false_iff_ne.mpr heq]
      exact ih hps ((mem_cons.mp hd).resolve_left heq)

/-- If shared data chunks have one position, the tuples are the product of the output vectors. -/
theorem rows_eq_sections (h : s.dataChunks.Pairwise fun d d' => d = d' → s.selSizes d = 1) :
    s.rows = s.outIds.sections := by
  obtain ⟨nodes, σ, finished⟩ := s
  simp only [rows, outIds, dataChunks] at h ⊢
  induction nodes with
  | nil => rfl
  | cons n nodes ih =>
    obtain ⟨hn, h⟩ := pairwise_cons.mp h
    rw [map_cons, map_cons, sections, ← ih h, flatMap_map]
    by_cases hd : n.dataChunk ∈ nodes.map (·.dataChunk)
    · -- the data chunk of the node occurs again: its only position is 0
      have hone : σ n.dataChunk = 1 := hn _ hd rfl
      rw [dedup_cons_of_mem hd, ← flatMap_pure_eq_map]
      refine flatMap_congr fun positions hp => ?_
      obtain ⟨p, hp, hlookup⟩ := lookup_of_mem_sections hp (mem_dedup.mpr hd)
      obtain rfl : p = 0 := by omega
      simp [OutputNode.outIds, hone, hlookup]
    · rw [dedup_cons_of_notMem hd, map_cons, sections, map_flatMap]
      refine flatMap_congr fun positions hp => ?_
      rw [OutputNode.outIds, map_map, map_map, map_map]
      refine map_congr_left fun p _ => ?_
      have hrest : ∀ n' ∈ nodes, ((n.dataChunk, p) :: positions).lookup n'.dataChunk =
          positions.lookup n'.dataChunk := by
        intro n' hn'
        have hne : n'.dataChunk ≠ n.dataChunk := fun heq => hd (heq ▸ mem_map_of_mem hn')
        rw [lookup_cons, beq_eq_false_iff_ne.mpr hne]
      simp only [comp_apply, map_cons, lookup_cons_self, Option.getD_some, cons.injEq, true_and]
      exact map_congr_left fun n' hn' => by rw [hrest n' hn']

theorem length_rows (s : IntersectionLoopState) : s.rows.length = (s.dataChunks.dedup.map s.selSizes).prod := by
  rw [rows, length_map, length_sections, map_map]
  congr 1
  exact map_congr_left fun d _ => by simp

theorem length_sections_outIds (s : IntersectionLoopState) :
    s.outIds.sections.length = (s.dataChunks.map s.selSizes).prod := by
  rw [length_sections, outIds, dataChunks, map_map, map_map]
  congr 1
  exact map_congr_left fun n _ => by simp [OutputNode.outIds]

/-- The nodes stay in their data chunks. -/
theorem stops_dataChunks {fuel : Nat} (h : s.stops fuel = some visited) : ∀ stop ∈ visited, stop.dataChunks = s.dataChunks := by
  induction fuel generalizing s visited with
  | zero => cases h
  | succ fuel ih =>
    rw [stops] at h
    split at h
    · cases h
      simp
    · obtain ⟨visited, hrun, rfl⟩ := Option.map_eq_some_iff.mp h
      refine forall_mem_cons.mpr ⟨rfl, fun stop hstop => (ih hrun stop hstop).trans ?_⟩
      exact gotoNextLoop_dataChunks s.nodes s.selSizes

/-- If the output is right at a reading, the data chunks have the sizes of its vectors. -/
theorem sizes_of_outIds (hcs : cs ∈ readings family)
    (hd : s.dataChunks = family.map (·.dataChunk))
    (hout : s.outIds = zipWith (fun r c => (r.chunk c).ids) family cs) :
    Forall₂ (fun c r => c < r.numChunks ∧ s.selSizes r.dataChunk = (r.chunk c).selSize) cs family := by
  rw [readings, mem_sections, forall₂_map_right_iff] at hcs
  have hlen : (family.map (·.dataChunk)).map s.selSizes = (zipWith (fun r c => (r.chunk c).ids) family cs).map length := by
    rw [← hd, ← hout, dataChunks, outIds, map_map, map_map]
    exact map_congr_left fun n _ => by simp [OutputNode.outIds]
  clear hd hout
  induction hcs with
  | nil => exact .nil
  | cons hc _ ih =>
    simp only [map_cons, zipWith_cons_cons, cons.injEq] at hlen
    exact .cons ⟨mem_range.mp hc, by simpa [ValueVec.ids] using hlen.1⟩ (ih hlen.2)

theorem selSizes_pos (h : Forall₂ (fun c r => c < r.numChunks ∧ σ r.dataChunk = (r.chunk c).selSize) cs family)
    (hr : r ∈ family) : 0 < σ r.dataChunk := by
  induction h with
  | nil => cases hr
  | cons h _ ih =>
    rcases mem_cons.mp hr with rfl | hr
    · exact h.2 ▸ CachedResult.chunk_pos _ h.1
    · exact ih hr

/-- Some reading has a given digit at a given node. -/
theorem exists_reading (hr : r ∈ family) (hc : c < r.numChunks) :
    ∃ cs ∈ readings family, ∀ P : Nat → CachedResult → Prop, Forall₂ P cs family → P c r := by
  induction family with
  | nil => cases hr
  | cons r' family ih =>
    rw [readings, map_cons, sections]
    simp only [mem_flatMap, mem_map, mem_range]
    rcases mem_cons.mp hr with rfl | hr
    · exact ⟨_, ⟨_, zeros_mem_readings family, c, hc, rfl⟩, fun P h => (forall₂_cons.mp h).1⟩
    · obtain ⟨cs, hcs, hP⟩ := ih hr
      exact ⟨_, ⟨cs, hcs, 0, r'.numChunks_pos, rfl⟩, fun P h => hP P (forall₂_cons.mp h).2⟩

/-- If at every reading the vectors have the size of their data chunk, and shared data chunks have
one position, then nodes in one data chunk have single IDs. -/
theorem pairwise_apart (h : ∀ cs ∈ readings family, ∃ σ : Nat → Nat,
      Forall₂ (fun c r => σ r.dataChunk = (r.chunk c).selSize) cs family ∧
      (family.map (·.dataChunk)).Pairwise fun d d' => d = d' → σ d = 1) :
    family.Pairwise Apart := by
  induction family with
  | nil => exact .nil
  | cons r family ih =>
    rw [forall_readings_cons] at h
    refine .cons (fun r' hr' hd => ⟨fun c hc => ?_, fun c hc => ?_⟩) (ih fun cs hcs => ?_)
    · obtain ⟨σ, hsize, hone⟩ := h _ (zeros_mem_readings family) c hc
      rw [← (forall₂_cons.mp hsize).1]
      exact (pairwise_cons.mp hone).1 _ (mem_map_of_mem hr') hd
    · obtain ⟨cs, hcs, hread⟩ := exists_reading hr' hc
      obtain ⟨σ, hsize, hone⟩ := h cs hcs 0 r.numChunks_pos
      rw [← hread _ (forall₂_cons.mp hsize).2, ← hd]
      exact (pairwise_cons.mp hone).1 _ (mem_map_of_mem hr') hd
    · obtain ⟨σ, hsize, hone⟩ := h cs hcs 0 r.numChunks_pos
      exact ⟨σ, (forall₂_cons.mp hsize).2, (pairwise_cons.mp hone).2⟩

/-! ## When the enumeration is exact -/

variable {family : ResultFamily}

theorem EnumeratesExactly.ne_nil (h : EnumeratesExactly family) : family.results ≠ [] := by
  intro hnil
  obtain ⟨fuel, visited, hrun, -⟩ := h family.initial family.holds_initial
  have hreset : family.initial.reset = ⟨[], family.initial.selSizes, false⟩ := by
    simp [reset, ResultFamily.initial, hnil, resetLoop]
  rw [hreset, stops_nil] at hrun
  cases hrun

/-- Fewer tuples than in the product of the output vectors are emitted otherwise. -/
theorem EnumeratesExactly.apart (h : EnumeratesExactly family) : family.results.Pairwise Apart := by
  obtain ⟨fuel, visited, hrun, hcursors, hout, hrows⟩ := h family.initial family.holds_initial
  have hd : ∀ stop ∈ visited, stop.dataChunks = family.results.map (·.dataChunk) := by
    intro stop hstop
    have hinit := family.holds_initial
    exact (stops_dataChunks hrun stop hstop).trans (resetLoop_spec hinit.nodes hinit.selSizes).2.dataChunks
  have hsizes : ∀ stop ∈ visited, Forall₂ (fun c r => c < r.numChunks ∧
      stop.selSizes r.dataChunk = (r.chunk c).selSize) stop.cursors family.results := fun stop hstop =>
    sizes_of_outIds (hcursors.mem_iff.mp (mem_map_of_mem hstop)) (hd stop hstop) (hout stop hstop)
  have hpos : ∀ stop ∈ visited, ∀ d ∈ stop.dataChunks, 0 < stop.selSizes d := by
    intro stop hstop d hmem
    rw [hd stop hstop] at hmem
    obtain ⟨r, hr, rfl⟩ := mem_map.mp hmem
    exact selSizes_pos (hsizes stop hstop) hr
  have hle : ∀ stop ∈ visited, stop.rows.length ≤ stop.outIds.sections.length := by
    intro stop hstop
    rw [length_rows, length_sections_outIds]
    exact prod_dedup_le (hpos stop hstop)
  have hsum := (hrows.trans (emitted_perm hcursors hout).symm).length_eq
  rw [length_flatMap, length_flatMap] at hsum
  refine pairwise_apart fun cs hcs => ?_
  obtain ⟨stop, hstop, rfl⟩ := mem_map.mp (hcursors.mem_iff.mpr hcs)
  refine ⟨stop.selSizes, (hsizes stop hstop).imp fun _ _ => And.right, ?_⟩
  rw [← hd stop hstop]
  refine pairwise_of_prod_dedup (hpos stop hstop) ?_
  rw [← length_rows, ← length_sections_outIds]
  by_contra hne
  exact absurd hsum (sum_lt_sum _ _ hle ⟨stop, hstop, lt_of_le_of_ne (hle stop hstop) hne⟩).ne

/-- The stop at the reading where a later digit has just moved shows the wrong size otherwise. -/
theorem EnumeratesExactly.lastAsFirst (h : EnumeratesExactly family) : family.results.Pairwise LastAsFirst := by
  rw [← sizesOk_iff]
  intro cs hcs
  obtain ⟨fuel, visited, hrun, -, hout, -⟩ := h family.initial family.holds_initial
  obtain ⟨fuel', visited', hrun', hcursors, hstops⟩ := reset_stops_spec h.ne_nil h.apart family.holds_initial
  obtain rfl := stops_unique hrun hrun'
  rw [← hcursors] at hcs
  obtain ⟨stop, hstop, rfl⟩ := mem_map.mp hcs
  exact (hstops stop hstop).exact_iff.mp (hout stop hstop)

/-- At a stop of nodes that are apart, shared data chunks have one position. -/
theorem Stop.pairwise_selSizes {family : List CachedResult} (ha : family.Pairwise Apart)
    (h : Stop σ family nodes cs) :
    (nodes.map (·.dataChunk)).Pairwise fun d d' => d = d' → σ d = 1 := by
  rw [h.dataChunks, pairwise_map]
  refine ha.imp_of_mem fun hr _ hapart hd => ?_
  exact h.size_of_single hr (hapart hd).1

/-- The enumeration of the results of the right nodes is exact if and only if there is a right node,
right nodes in one data chunk have vectors of one ID only and, of any two nodes with several vectors,
the earlier has a last vector as long as its first. -/
theorem enumeratesExactly_iff (family : ResultFamily) :
    EnumeratesExactly family ↔ family.results ≠ [] ∧ family.results.Pairwise Apart ∧
      family.results.Pairwise LastAsFirst := by
  refine ⟨fun h => ⟨h.ne_nil, h.apart, h.lastAsFirst⟩, ?_⟩
  rintro ⟨hne, ha, hpair⟩ s hs
  have hsizes := sizesOk_iff.mpr hpair
  obtain ⟨fuel, visited, hrun, hcursors, hstops⟩ := reset_stops_spec hne ha hs
  have hout : ∀ stop ∈ visited, stop.outIds =
      zipWith (fun r c => (r.chunk c).ids) family.results stop.cursors := by
    intro stop hstop
    refine (hstops stop hstop).exact_iff.mpr (hsizes _ ?_)
    rw [← hcursors]
    exact mem_map_of_mem hstop
  have hrows : visited.flatMap (·.rows) = visited.flatMap (·.outIds.sections) :=
    flatMap_congr fun stop hstop => rows_eq_sections ((hstops stop hstop).pairwise_selSizes ha)
  exact ⟨fuel, visited, hrun, .of_eq hcursors, hout, hrows ▸ emitted_perm (.of_eq hcursors) hout⟩

/-- A result of two IDs in one vector. -/
def twoIds : CachedResult where
  dataChunk := 0
  filled := [⟨fun p => ⟨p, 0⟩, 2⟩]
  stale := []
  filled_ne_nil := by simp
  filled_pos := by simp
  stale_zero := by simp

/-- A result of 2049 IDs: a full vector and a vector with one ID. -/
def fullAndOne (dataChunk : Nat) : CachedResult where
  dataChunk := dataChunk
  filled := [⟨fun p => ⟨p, 0⟩, defaultVectorCapacity⟩, ⟨fun _ => ⟨defaultVectorCapacity, 0⟩, 1⟩]
  stale := []
  filled_ne_nil := by simp
  filled_pos := by simp [defaultVectorCapacity]
  stale_zero := by simp

/-- Two right nodes with two IDs each in one data chunk: two tuples are emitted, not four. And two
right nodes with 2049 IDs each, even in data chunks of their own: when the second cursor moves, the
first output vector shows one ID of its first vector. -/
theorem enumeration_loses_tuples :
    ¬ EnumeratesExactly ⟨[twoIds, twoIds], by simp⟩ ∧
      ¬ EnumeratesExactly ⟨[fullAndOne 0, fullAndOne 1], by simp [fullAndOne]⟩ := by
  constructor
  · intro h
    obtain ⟨hapart, -⟩ := pairwise_cons.mp h.apart
    exact absurd ((hapart twoIds mem_cons_self rfl).1 0 (by decide)) (by decide)
  · intro h
    obtain ⟨hlast, -⟩ := pairwise_cons.mp h.lastAsFirst
    have := hlast (fullAndOne 1) mem_cons_self (by decide) (by decide)
    exact absurd this (by decide)

end IntersectMultiway
end CycleJoin
