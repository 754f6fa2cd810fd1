import CycleJoin.Processor.SharedBuild.Run

/-!
# The index that stands for an exhausted column

`IntersectMultiwayBuild::dumpCachedKeyPayloads` zips the cached vectors of the payload columns. The index
of a column that has no more vectors is `-1u`, which is `2 ^ 32 - 1` in a vector of `size_t`, and it is
incremented in each round like the others (`processor/operator/intersect/intersect_multiway_build.h`).
`dumpLoop` of the shared build keeps that index apart from the indices of vectors; here they are the same
numbers.

* `DumpColumn.iterate_short`, `DumpColumn.iterate_long`: the index of a column in each round.
* `dumpCachedKeyPayloads_once_iff`: every cached vector is appended once iff no column has `2 ^ 32`
  vectors.
* `foldl_appendCached_filled`: caching keeps the order, and only the last vector is not full.

`κ` is the type of the key, `α` that of the payload values.
-/

namespace CycleJoin

open List

namespace SharedBuild

variable {n : Nat} {κ α : Type}

/-! ## dumpCachedKeyPayloads -/

/-- The index `-1u`. -/
def exhausted : Nat := 2 ^ 32 - 1

/-- `indices[i]` and the values that are selected in `cachedPayloadVectors[i]`. -/
structure DumpColumn (α : Type) where
  index : Nat
  vectors : List (List α)

namespace DumpColumn

variable (c : DumpColumn α)

/-- The vector that `append_payloads[i]` points to. -/
def appended : Nat := if c.index = exhausted then 0 else c.index

/-- The list that is stored for the column. -/
def payload : List α := c.vectors.getD c.appended []

/-- `indices[i]++`, and whether the column is unfinished. The first vector of a column that is exhausted
is emptied. -/
def advance : DumpColumn α × Bool :=
  let index := (c.index + 1) % 2 ^ 64
  if index ≥ c.vectors.length ∨ (c.vectors.getD index []).length = 0 then
    (⟨exhausted, c.vectors.set 0 []⟩, false)
  else (⟨index, c.vectors⟩, true)

/-- The column after a number of rounds. -/
def iterate (rounds : Nat) : DumpColumn α := (fun c => c.advance.1)^[rounds] c

end DumpColumn

/-- A tuple that is appended to the hash table, with the cached vectors that it is read from. -/
structure DumpTuple (κ : Type) (n : Nat) (α : Type) where
  key : κ
  vectors : Fin n → Nat
  payloads : Fin n → List α

/-- The arguments of `appendVectors`. -/
def dumpTuple (key : κ) (columns : Fin n → DumpColumn α) : DumpTuple κ n α :=
  ⟨key, fun i => (columns i).appended, fun i => (columns i).payload⟩

/-- The `do … while` loop: the appended tuples and the cached vectors after it, or `none` without enough
fuel. -/
def dumpRounds (key : κ) : Nat → (Fin n → DumpColumn α) →
    Option (List (DumpTuple κ n α) × (Fin n → List (List α)))
  | 0, _ => none
  | fuel + 1, columns =>
    let next := fun i => (columns i).advance
    if ∃ i, (next i).2 = true then
      (dumpRounds key fuel fun i => (next i).1).map fun r => (dumpTuple key columns :: r.1, r.2)
    else some ([dumpTuple key columns], fun i => (next i).1.vectors)

/-- `dumpCachedKeyPayloads`: the appended tuples, the cached key and the cached vectors. -/
def dumpCachedKeyPayloads (fuel : Nat) (key : Option κ) (cache : Fin n → List (List α)) :
    Option (List (DumpTuple κ n α) × Option κ × (Fin n → List (List α))) :=
  let clean (r : List (DumpTuple κ n α) × (Fin n → List (List α))) :
      List (DumpTuple κ n α) × Option κ × (Fin n → List (List α)) :=
    (r.1, none, fun i => (r.2 i).map fun _ => [])
  match key with
  | none => some (clean ([], cache))
  | some key =>
    if ∃ i, ((cache i).getD 0 []).length = 0 then some (clean ([], cache))
    else (dumpRounds key fuel fun i => ⟨0, cache i⟩).map clean

/-! ## The cached vectors of a column -/

/-- The vectors are full up to one, and those after it are empty. -/
def Filled (vectors : List (List α)) : Prop :=
  vectors.Pairwise fun u v => u.length < defaultVectorCapacity → v = []

/-- The cached vectors of a column. There is at least one. -/
structure CachedColumn (α : Type) where
  vectors : List (List α)
  ne_nil : vectors ≠ []
  filled : Filled vectors

namespace CachedColumn

variable (c : CachedColumn α)

/-- How many vectors hold a value. -/
def numVectors : Nat := c.vectors.countP (·.length > 0)

end CachedColumn

/-- The vectors that hold a value come first. -/
theorem lt_countP_iff {vectors : List (List α)} (h : Filled vectors) (k : Nat) :
    k < vectors.countP (·.length > 0) ↔ vectors.getD k [] ≠ [] := by
  induction vectors generalizing k with
  | nil => simp
  | cons v vectors ih =>
    obtain ⟨hv, hrest⟩ := pairwise_cons.mp h
    by_cases hnil : v = []
    · subst hnil
      have hcount : vectors.countP (·.length > 0) = 0 := by
        rw [countP_eq_zero]
        intro u hu
        simp [hv u hu (Nat.two_pow_pos 11)]
      rw [countP_cons_of_neg (by simp), hcount]
      cases k with
      | zero => simp
      | succ k =>
        rw [getD_cons_succ, ← ih hrest k]
        omega
    · have hpos : v.length > 0 := length_pos_iff.mpr hnil
      rw [countP_cons_of_pos (by simpa using hpos)]
      cases k with
      | zero => simpa using hnil
      | succ k =>
        rw [Nat.add_lt_add_iff_right, ih hrest k]
        rfl

theorem CachedColumn.getD_eq_nil_iff {c : CachedColumn α} {k : Nat} :
    c.vectors.getD k [] = [] ↔ c.numVectors ≤ k := by
  rw [← not_lt, numVectors, lt_countP_iff c.filled, not_not]

namespace DumpColumn

variable {c : CachedColumn α}

/-- A round goes to the next vector if that one holds a value. -/
theorem advance_lt {t : Nat} (ht : t < 2 ^ 32) (h : t + 1 < c.numVectors) :
    (⟨t, c.vectors⟩ : DumpColumn α).advance = (⟨t + 1, c.vectors⟩, true) := by
  have hmod : (t + 1) % 2 ^ 64 = t + 1 := Nat.mod_eq_of_lt (by omega)
  have hne := (lt_countP_iff c.filled (t + 1)).mp h
  have hlength : ¬ t + 1 ≥ c.vectors.length := fun hge => hne (getD_eq_default _ _ hge)
  have hsome : ¬ (c.vectors.getD (t + 1) []).length = 0 := fun h0 => hne (length_eq_zero_iff.mp h0)
  simp only [advance, hmod]
  rw [if_neg (not_or.mpr ⟨hlength, hsome⟩)]

/-- A round that finds no further vector empties the first one. -/
theorem advance_last {t : Nat} (ht : t < 2 ^ 32) (h : c.numVectors = t + 1) :
    (⟨t, c.vectors⟩ : DumpColumn α).advance = (⟨exhausted, c.vectors.set 0 []⟩, false) := by
  have hmod : (t + 1) % 2 ^ 64 = t + 1 := Nat.mod_eq_of_lt (by omega)
  have hnil := c.getD_eq_nil_iff.mpr h.le
  simp only [advance, hmod]
  rw [if_pos (.inr (by rw [hnil]; rfl))]

/-- An exhausted column stays exhausted if it has fewer than `2 ^ 32` vectors. -/
theorem advance_exhausted (h : c.numVectors < 2 ^ 32) : (⟨exhausted, c.vectors.set 0 []⟩ : DumpColumn α).advance =
      (⟨exhausted, c.vectors.set 0 []⟩, false) := by
  have hnil := c.getD_eq_nil_iff.mpr h.le
  have hmod : (exhausted + 1) % 2 ^ 64 = 2 ^ 32 := rfl
  have hset : (c.vectors.set 0 []).getD (2 ^ 32) [] = c.vectors.getD (2 ^ 32) [] := by
    rw [getD_eq_getElem?_getD, getD_eq_getElem?_getD, getElem?_set_ne (by decide)]
  simp only [advance, hmod]
  rw [if_pos (.inr (by rw [hset, hnil]; rfl)), set_set]

theorem iterate_short (h : c.numVectors < 2 ^ 32) (hpos : 0 < c.numVectors) (t : Nat) :
    (⟨0, c.vectors⟩ : DumpColumn α).iterate t =
      if t < c.numVectors then ⟨t, c.vectors⟩ else ⟨exhausted, c.vectors.set 0 []⟩ := by
  induction t with
  | zero => rw [if_pos hpos]; rfl
  | succ t ih =>
    have hstep : (⟨0, c.vectors⟩ : DumpColumn α).iterate (t + 1) =
        ((⟨0, c.vectors⟩ : DumpColumn α).iterate t).advance.1 := Function.iterate_succ_apply' ..
    rw [hstep, ih]
    by_cases hlt : t + 1 < c.numVectors
    · rw [if_pos (by omega), if_pos hlt, advance_lt (by omega) hlt]
    · rw [if_neg hlt]
      by_cases hlast : t < c.numVectors
      · rw [if_pos hlast, advance_last (by omega) (by omega)]
      · rw [if_neg hlast, advance_exhausted h]

theorem iterate_long {t : Nat} (ht : t < 2 ^ 32) (h : t < c.numVectors) :
    (⟨0, c.vectors⟩ : DumpColumn α).iterate t = ⟨t, c.vectors⟩ := by
  induction t with
  | zero => rfl
  | succ t ih =>
    have hstep : (⟨0, c.vectors⟩ : DumpColumn α).iterate (t + 1) =
        ((⟨0, c.vectors⟩ : DumpColumn α).iterate t).advance.1 := Function.iterate_succ_apply' ..
    rw [hstep, ih (by omega) (by omega), advance_lt (by omega) h]

end DumpColumn

/-! ## The rounds -/

section Rounds

variable {key : κ} {columns : Fin n → DumpColumn α}

/-- A column is unfinished after the round. -/
def Unfinished (columns : Fin n → DumpColumn α) (t : Nat) : Prop :=
  ∃ i, ((columns i).iterate t).advance.2 = true

/-- The tuple of a round. -/
def tupleAt (key : κ) (columns : Fin n → DumpColumn α) (t : Nat) : DumpTuple κ n α :=
  dumpTuple key fun i => (columns i).iterate t

/-- The loop ends after the first round that leaves no column unfinished. -/
theorem dumpRounds_of_last {last : Nat} (h : ∀ t < last, Unfinished columns t) (hlast : ¬ Unfinished columns last) :
    dumpRounds key (last + 1) columns = some ((range (last + 1)).map (tupleAt key columns),
      fun i => ((columns i).iterate (last + 1)).vectors) := by
  induction last generalizing columns with
  | zero =>
    have hnone : ¬ ∃ i, ((columns i).advance).2 = true := hlast
    rw [dumpRounds, if_neg hnone]
    rfl
  | succ last ih =>
    have hsome : ∃ i, ((columns i).advance).2 = true := h 0 (by omega)
    rw [dumpRounds, if_pos hsome, ih (fun t ht => h (t + 1) (by omega)) hlast,
      range_succ_eq_map (n := last + 1), map_cons, map_map]
    rfl

/-- A loop that ends has gone through the rounds up to one that leaves no column unfinished. -/
theorem dumpRounds_some {fuel : Nat} {r : List (DumpTuple κ n α) × (Fin n → List (List α))}
    (h : dumpRounds key fuel columns = some r) :
    ∃ last, ¬ Unfinished columns last ∧ r.1 = (range (last + 1)).map (tupleAt key columns) := by
  induction fuel generalizing columns r with
  | zero => cases h
  | succ fuel ih =>
    rw [dumpRounds] at h
    split at h
    · obtain ⟨r', hr', rfl⟩ := Option.map_eq_some_iff.mp h
      obtain ⟨last, hlast, htuples⟩ := ih hr'
      refine ⟨last + 1, hlast, ?_⟩
      rw [htuples, range_succ_eq_map (n := last + 1), map_cons, map_map]
      rfl
    · next hnone =>
      cases h
      exact ⟨0, hnone, rfl⟩

end Rounds

/-! ## Every vector once -/

/-- `dumpCachedKeyPayloads` ends and empties the cache. If no column is empty, the lists that it appends for
a column are together the cached values of that column; no cached vector is appended twice, and after the
vectors of a column come empty lists. If a column is empty, nothing is appended. -/
def DumpsOnce (key : κ) (cache : Fin n → CachedColumn α) : Prop :=
  ∃ fuel tuples vectors,
    dumpCachedKeyPayloads fuel (some key) (fun i => (cache i).vectors) = some (tuples, none, vectors) ∧
    (∀ i, ∀ v ∈ vectors i, v = []) ∧
    (∀ tuple ∈ tuples, tuple.key = key) ∧
    ((∃ i, (cache i).vectors.flatten = []) → tuples = []) ∧
    ((∀ i, (cache i).vectors.flatten ≠ []) → ∀ i,
      tuples.flatMap (·.payloads i) = (cache i).vectors.flatten ∧
      ((tuples.filter fun tuple => (tuple.payloads i).length > 0).map (·.vectors i)).Nodup ∧
      (tuples.map (·.payloads i)).Pairwise fun u v => u = [] → v = [])

namespace CachedColumn

variable (c : CachedColumn α)

theorem numVectors_eq_zero_iff : c.numVectors = 0 ↔ c.vectors.flatten = [] := by
  rw [numVectors]
  simp

/-- A column is empty iff its first vector is. -/
theorem first_iff : (c.vectors.getD 0 []).length = 0 ↔ c.vectors.flatten = [] := by
  rw [length_eq_zero_iff, ← numVectors_eq_zero_iff, ← not_iff_not, ← Ne, ← lt_countP_iff c.filled 0, numVectors]
  omega

theorem not_exists_first {cache : Fin n → CachedColumn α} (hne : ∀ i, (cache i).vectors.flatten ≠ []) :
    ¬ ∃ i, ((cache i).vectors.getD 0 []).length = 0 := by
  simp only [first_iff]
  exact fun ⟨i, hi⟩ => hne i hi

end CachedColumn

/-- The vectors one by one, up to one from which on all are empty. -/
theorem flatMap_getD_range {vectors : List (List α)} {len : Nat} (h : ∀ k ≥ len, vectors.getD k [] = []) :
    (range len).flatMap (fun t => vectors.getD t []) = vectors.flatten := by
  induction vectors generalizing len with
  | nil => simp
  | cons v vectors ih =>
    cases len with
    | zero =>
      have hv : v = [] := h 0 le_rfl
      have hrest := ih fun k (_ : k ≥ 0) => h (k + 1) (by omega)
      rw [flatten_cons, hv, ← hrest]
      rfl
    | succ len =>
      have hrest := ih fun k (hk : k ≥ len) => h (k + 1) (by omega)
      rw [range_succ_eq_map, flatMap_cons, flatMap_map, flatten_cons, ← hrest]
      rfl

/-! ### Columns with fewer than `2 ^ 32` vectors -/

section Short

variable {c : CachedColumn α}

theorem payload_short (h : c.numVectors < 2 ^ 32) (hpos : 0 < c.numVectors) (t : Nat) :
    ((⟨0, c.vectors⟩ : DumpColumn α).iterate t).payload = c.vectors.getD t [] := by
  rw [DumpColumn.iterate_short h hpos]
  by_cases hlt : t < c.numVectors
  · have hne : t ≠ exhausted := by unfold exhausted; omega
    rw [if_pos hlt, DumpColumn.payload, DumpColumn.appended, if_neg hne]
  · have hnil := c.getD_eq_nil_iff.mpr (not_lt.mp hlt)
    rw [if_neg hlt, hnil]
    obtain ⟨v, vectors, hcons⟩ := exists_cons_of_ne_nil c.ne_nil
    rw [hcons]
    rfl

theorem appended_short (h : c.numVectors < 2 ^ 32) {t : Nat} (ht : c.vectors.getD t [] ≠ []) :
    ((⟨0, c.vectors⟩ : DumpColumn α).iterate t).appended = t := by
  have hlt : t < c.numVectors := (lt_countP_iff c.filled t).mpr ht
  have hne : t ≠ exhausted := by unfold exhausted; omega
  rw [DumpColumn.iterate_short h (by omega), if_pos hlt, DumpColumn.appended, if_neg hne]

theorem unfinished_short (h : c.numVectors < 2 ^ 32) (hpos : 0 < c.numVectors) (t : Nat) :
    ((⟨0, c.vectors⟩ : DumpColumn α).iterate t).advance.2 = true ↔ t + 1 < c.numVectors := by
  rw [DumpColumn.iterate_short h hpos]
  by_cases hlt : t + 1 < c.numVectors
  · rw [if_pos (by omega), DumpColumn.advance_lt (by omega) hlt]
    simp [hlt]
  · by_cases hlast : t < c.numVectors
    · rw [if_pos hlast, DumpColumn.advance_last (by omega) (by omega)]
      simp [hlt]
    · rw [if_neg hlast, DumpColumn.advance_exhausted h]
      simp [hlt]

end Short

section Once

variable {key : κ} {cache : Fin n → CachedColumn α}

theorem dumpsOnce_of_empty (h : ∃ i, (cache i).vectors.flatten = []) : DumpsOnce key cache := by
  have hskip : ∃ i, ((cache i).vectors.getD 0 []).length = 0 := by
    simpa only [CachedColumn.first_iff] using h
  refine ⟨0, [], fun i => (cache i).vectors.map fun _ => [], ?_, ?_, ?_, fun _ => rfl, fun hne => ?_⟩
  · simp only [dumpCachedKeyPayloads]
    rw [if_pos hskip]
  · intro i v hv
    obtain ⟨-, -, rfl⟩ := mem_map.mp hv
    rfl
  · exact fun tuple htuple => nomatch htuple
  · obtain ⟨i, hi⟩ := h
    exact absurd hi (hne i)

/-- What a column with fewer than `2 ^ 32` vectors has stored after enough rounds. -/
theorem stored_short {columns : Fin n → DumpColumn α} {i : Fin n} {len : Nat}
    (hcolumn : columns i = ⟨0, (cache i).vectors⟩) (hshort : (cache i).numVectors < 2 ^ 32)
    (hpos : 0 < (cache i).numVectors) (hlen : (cache i).numVectors ≤ len) :
    let tuples := (range len).map (tupleAt key columns)
    tuples.flatMap (·.payloads i) = (cache i).vectors.flatten ∧
      ((tuples.filter fun tuple => (tuple.payloads i).length > 0).map (·.vectors i)).Nodup ∧
      (tuples.map (·.payloads i)).Pairwise fun u v => u = [] → v = [] := by
  intro tuples
  have hpayload (t : Nat) : (tupleAt key columns t).payloads i = (cache i).vectors.getD t [] := by
    rw [← payload_short hshort hpos t, ← hcolumn]
    rfl
  refine ⟨?_, ?_, ?_⟩
  · simp only [tuples, flatMap_map, hpayload]
    exact flatMap_getD_range fun k hk => (cache i).getD_eq_nil_iff.mpr (by omega)
  · -- The vector of a round that stores a value is that of the round.
    have hvectors : (tuples.filter fun tuple => (tuple.payloads i).length > 0).map (·.vectors i) =
        (range len).filter fun t => ((cache i).vectors.getD t []).length > 0 := by
      simp only [tuples, filter_map, map_map, Function.comp_def, hpayload]
      refine (map_congr_left fun t ht => ?_).trans (map_id _)
      have hpos := of_decide_eq_true (mem_filter.mp ht).2
      have happended := appended_short hshort (length_pos_iff.mp hpos)
      rw [← hcolumn] at happended
      exact happended
    rw [hvectors]
    exact nodup_range.filter _
  · simp only [tuples, map_map, Function.comp_def, hpayload]
    rw [pairwise_map]
    refine Pairwise.imp (fun {t t'} hlt => ?_) pairwise_lt_range
    intro hzero
    rw [CachedColumn.getD_eq_nil_iff] at hzero ⊢
    omega

/-- The round in which the longest column comes to its end. -/
def lastRound (cache : Fin n → CachedColumn α) : Nat :=
  Finset.univ.sup (fun i => (cache i).numVectors) - 1

theorem lt_lastRound_iff (cache : Fin n → CachedColumn α) (t : Nat) : t < lastRound cache ↔ ∃ i, t + 1 < (cache i).numVectors := by
  have hsup : t < lastRound cache ↔ t + 1 < Finset.univ.sup fun i => (cache i).numVectors := by
    unfold lastRound
    omega
  rw [hsup]
  simp

theorem dumpRounds_short (hpos : ∀ i, 0 < (cache i).numVectors) (hshort : ∀ i, (cache i).numVectors < 2 ^ 32) :
    let columns (i : Fin n) : DumpColumn α := ⟨0, (cache i).vectors⟩
    dumpRounds key (lastRound cache + 1) columns = some ((range (lastRound cache + 1)).map (tupleAt key columns),
        fun i => ((columns i).iterate (lastRound cache + 1)).vectors) := by
  intro columns
  have hunfinished (t : Nat) : Unfinished columns t ↔ t < lastRound cache := by
    rw [lt_lastRound_iff]
    exact exists_congr fun i => unfinished_short (hshort i) (hpos i) t
  exact dumpRounds_of_last (fun t ht => (hunfinished t).mpr ht) (mt (hunfinished _).mp (lt_irrefl _))

theorem dumpsOnce_of_short (hne : ∀ i, (cache i).vectors.flatten ≠ [])
    (hshort : ∀ i, (cache i).numVectors < 2 ^ 32) : DumpsOnce key cache := by
  have hpos (i : Fin n) : 0 < (cache i).numVectors := pos_of_ne_zero (mt (cache i).numVectors_eq_zero_iff.mp (hne i))
  have hskip := CachedColumn.not_exists_first hne
  let columns (i : Fin n) : DumpColumn α := ⟨0, (cache i).vectors⟩
  refine ⟨lastRound cache + 1, (range (lastRound cache + 1)).map (tupleAt key columns),
    fun i => ((columns i).iterate (lastRound cache + 1)).vectors.map fun _ => [], ?_, ?_, ?_,
    fun ⟨i, hi⟩ => absurd hi (hne i), fun _ i => ?_⟩
  · simp only [dumpCachedKeyPayloads]
    rw [if_neg hskip, dumpRounds_short hpos hshort]
    rfl
  · intro i v hv
    obtain ⟨-, -, rfl⟩ := mem_map.mp hv
    rfl
  · intro tuple htuple
    obtain ⟨t, -, rfl⟩ := mem_map.mp htuple
    rfl
  · have hlast : (cache i).numVectors ≤ lastRound cache + 1 := by
      refine not_lt.mp fun hlt => lt_irrefl (lastRound cache) ?_
      exact (lt_lastRound_iff cache _).mpr ⟨i, hlt⟩
    exact stored_short rfl (hshort i) (hpos i) hlast

/-! ### A column with `2 ^ 32` vectors -/

theorem not_nodup_of_repeated {columns : Fin n → DumpColumn α} {i : Fin n} {t t' last : Nat}
    (hlt : t < t') (hle : t' ≤ last) (hpos : ((tupleAt key columns t).payloads i).length > 0)
    (hpos' : ((tupleAt key columns t').payloads i).length > 0)
    (heq : (tupleAt key columns t).vectors i = (tupleAt key columns t').vectors i) :
    ¬ ((((range (last + 1)).map (tupleAt key columns)).filter fun tuple =>
      (tuple.payloads i).length > 0).map (·.vectors i)).Nodup := by
  rw [filter_map, map_map, nodup_map_iff_inj_on (nodup_range.filter _)]
  intro hinj
  have hmem (t : Nat) (hle : t ≤ last) (hpos : ((tupleAt key columns t).payloads i).length > 0) :
      t ∈ (range (last + 1)).filter ((fun tuple => decide ((tuple.payloads i).length > 0)) ∘ tupleAt key columns) :=
    mem_filter.mpr ⟨mem_range.mpr (by omega), decide_eq_true hpos⟩
  have := hinj t (hmem t (by omega) hpos) t' (hmem t' hle hpos') heq
  omega

/-- In the round in which the index of a column is `-1u`, its first vector is appended again. -/
theorem not_dumpsOnce (hne : ∀ i, (cache i).vectors.flatten ≠ []) {i : Fin n}
    (hlong : 2 ^ 32 ≤ (cache i).numVectors) : ¬ DumpsOnce key cache := by
  rintro ⟨fuel, tuples, vectors, hdump, -, -, -, honce⟩
  obtain ⟨-, hnodup, -⟩ := honce hne i
  have hskip := CachedColumn.not_exists_first hne
  let columns (i : Fin n) : DumpColumn α := ⟨0, (cache i).vectors⟩
  -- The loop has come to the round.
  obtain ⟨last, hlast, rfl⟩ : ∃ last, ¬ Unfinished columns last ∧
      tuples = (range (last + 1)).map (tupleAt key columns) := by
    simp only [dumpCachedKeyPayloads] at hdump
    rw [if_neg hskip] at hdump
    obtain ⟨r, hr, heq⟩ := Option.map_eq_some_iff.mp hdump
    obtain ⟨last, hlast, htuples⟩ := dumpRounds_some hr
    exact ⟨last, hlast, (congrArg Prod.fst heq).symm.trans htuples⟩
  have hround : exhausted ≤ last := by
    refine not_lt.mp fun hlt => hlast ⟨i, ?_⟩
    unfold exhausted at hlt
    have hiterate : (columns i).iterate last = ⟨last, (cache i).vectors⟩ :=
      DumpColumn.iterate_long (by omega) (by omega)
    rw [hiterate, DumpColumn.advance_lt (by omega) (by omega)]
  -- Both in the first round and in this one, the first vector is appended.
  have hfirst (t : Nat) (ht : t = 0 ∨ t = exhausted) :
      (tupleAt key columns t).vectors i = 0 ∧ ((tupleAt key columns t).payloads i).length > 0 := by
    have hiterate : (columns i).iterate t = ⟨t, (cache i).vectors⟩ :=
      DumpColumn.iterate_long (by unfold exhausted at ht; omega) (by unfold exhausted at ht; omega)
    have happended : ((columns i).iterate t).appended = 0 := by
      rw [hiterate, DumpColumn.appended]
      split
      · rfl
      · next hne => exact ht.resolve_right hne
    refine ⟨happended, ?_⟩
    have hpayload : (tupleAt key columns t).payloads i = (cache i).vectors.getD 0 [] := by
      have hdef : (tupleAt key columns t).payloads i =
          ((columns i).iterate t).vectors.getD ((columns i).iterate t).appended [] := rfl
      rw [hdef, happended, hiterate]
    rw [hpayload]
    exact pos_of_ne_zero (mt (cache i).first_iff.mp (hne i))
  obtain ⟨hfirst₀, hpos₀⟩ := hfirst 0 (.inl rfl)
  obtain ⟨hfirst₁, hpos₁⟩ := hfirst exhausted (.inr rfl)
  generalize hround' : exhausted = round at hround hfirst₁ hpos₁
  have hlt : 0 < round := by
    rw [← hround', exhausted]
    omega
  exact not_nodup_of_repeated hlt hround hpos₀ hpos₁ (hfirst₀.trans hfirst₁.symm) hnodup

end Once

/-- `dumpCachedKeyPayloads` stores every cached value once iff a column is empty or every column has fewer
than `2 ^ 32` vectors that hold a value. -/
theorem dumpCachedKeyPayloads_once_iff (key : κ) (cache : Fin n → CachedColumn α) :
    DumpsOnce key cache ↔
      (∃ i, (cache i).vectors.flatten = []) ∨ ∀ i, (cache i).numVectors < 2 ^ 32 := by
  constructor
  · intro h
    by_contra hnot
    push Not at hnot
    obtain ⟨hne, i, hlong⟩ := hnot
    exact not_dumpsOnce hne hlong h
  · rintro (hempty | hshort)
    · exact dumpsOnce_of_empty hempty
    · by_cases hempty : ∃ i, (cache i).vectors.flatten = []
      · exact dumpsOnce_of_empty hempty
      · push Not at hempty
        exact dumpsOnce_of_short hempty hshort

/-- A column of full vectors. -/
def fullVectors (value : α) (numVectors : Nat) (h : numVectors ≠ 0) : CachedColumn α where
  vectors := replicate numVectors (replicate defaultVectorCapacity value)
  ne_nil := by simpa using h
  filled := pairwise_of_forall_mem_list fun u hu v _ hlt => by
    rw [eq_of_mem_replicate hu, length_replicate] at hlt
    exact absurd hlt (Nat.lt_irrefl _)

theorem numVectors_fullVectors (value : α) (numVectors : Nat) (h : numVectors ≠ 0) :
    (fullVectors value numVectors h).numVectors = numVectors := by
  rw [fullVectors, CachedColumn.numVectors, countP_replicate, if_pos]
  rw [length_replicate]
  decide

/-- One column of `2 ^ 32` full vectors is not stored. -/
theorem dumpCachedKeyPayloads_long :
    ¬ DumpsOnce (n := 1) () fun _ => fullVectors () (2 ^ 32) (by decide) := by
  have hlength (i : Fin 1) : (fullVectors () (2 ^ 32) (by decide)).numVectors = 2 ^ 32 :=
    numVectors_fullVectors () (2 ^ 32) (by decide)
  refine not_dumpsOnce (i := 0) (fun i hnil => ?_) (Nat.le_of_eq (hlength 0).symm)
  have := (CachedColumn.numVectors_eq_zero_iff _).mpr hnil
  rw [hlength i] at this
  exact absurd this (by decide)

/-! ## Caching, and the loop that keeps the index apart -/

/-- Caching a value keeps the vectors filled and appends the value. -/
theorem appendCached_filled {vectors : List (List InternalID)} (h : Filled vectors) (x : InternalID) :
    Filled (appendCached x vectors) ∧ (appendCached x vectors).flatten = vectors.flatten ++ [x] := by
  induction vectors with
  | nil => exact ⟨pairwise_singleton _ _, rfl⟩
  | cons v vectors ih =>
    obtain ⟨hv, hrest⟩ := pairwise_cons.mp h
    rw [appendCached]
    split
    · next hroom =>
      have hnil : vectors.flatten = [] := flatten_eq_nil_iff.mpr fun u hu => hv u hu hroom
      refine ⟨pairwise_cons.mpr ⟨fun u hu _ => hv u hu hroom, hrest⟩, ?_⟩
      simp [hnil]
    · next hfull =>
      obtain ⟨hfilled, hflatten⟩ := ih hrest
      refine ⟨pairwise_cons.mpr ⟨fun u _ hlt => absurd hlt hfull, hfilled⟩, ?_⟩
      rw [flatten_cons, hflatten, flatten_cons, append_assoc]

theorem foldl_appendCached_filled {vectors : List (List InternalID)} (h : Filled vectors) (xs : List InternalID) :
    Filled (xs.foldl (fun cache x => appendCached x cache) vectors) ∧
      (xs.foldl (fun cache x => appendCached x cache) vectors).flatten = vectors.flatten ++ xs := by
  induction xs generalizing vectors with
  | nil => exact ⟨h, (append_nil _).symm⟩
  | cons x xs ih =>
    obtain ⟨hfilled, hflatten⟩ := appendCached_filled h x
    obtain ⟨hfilled', hflatten'⟩ := ih hfilled
    refine ⟨hfilled', ?_⟩
    rw [foldl_cons, hflatten', hflatten, append_assoc]
    rfl

section Refine

variable {c : CachedColumn InternalID}

/-- The index of `dumpLoop` in a round. -/
def indexAt (c : CachedColumn InternalID) (t : Nat) : Option Nat :=
  if t < c.numVectors then some t else none

/-- The vectors of `dumpLoop` in a round. -/
def vectorsAt (c : CachedColumn InternalID) (t : Nat) : List (List InternalID) :=
  if t < c.numVectors then c.vectors else c.vectors.set 0 []

theorem nextIndex_indexAt (t : Nat) : nextIndex (indexAt c t) (vectorsAt c t) = indexAt c (t + 1) := by
  unfold indexAt vectorsAt
  by_cases hlt : t < c.numVectors
  · simp only [if_pos hlt, nextIndex]
    by_cases hnext : t + 1 < c.numVectors
    · have hne := (lt_countP_iff c.filled (t + 1)).mp hnext
      have hlength : ¬ t + 1 ≥ c.vectors.length := fun hge => hne (getD_eq_default _ _ hge)
      rw [if_pos hnext, if_neg (not_or.mpr ⟨hlength, mt length_eq_zero_iff.mp hne⟩)]
    · have hnil := c.getD_eq_nil_iff.mpr (not_lt.mp hnext)
      rw [if_neg hnext, if_pos (.inr (by rw [hnil]; rfl))]
  · have hnext : ¬ t + 1 < c.numVectors := by omega
    rw [if_neg hlt, if_neg hnext]
    rfl

theorem vectorsAt_succ (t : Nat) : (if (indexAt c (t + 1)).isSome then vectorsAt c t else (vectorsAt c t).set 0 []) =
      vectorsAt c (t + 1) := by
  unfold indexAt vectorsAt
  by_cases hnext : t + 1 < c.numVectors
  · simp [(by omega : t < c.numVectors)]
  · by_cases hlt : t < c.numVectors <;> simp [hnext, hlt]

theorem getD_vectorsAt (t : Nat) : (vectorsAt c t).getD ((indexAt c t).getD 0) [] = c.vectors.getD t [] := by
  unfold indexAt vectorsAt
  by_cases hlt : t < c.numVectors
  · simp [hlt]
  · have hnil := c.getD_eq_nil_iff.mpr (not_lt.mp hlt)
    obtain ⟨v, vectors, hcons⟩ := exists_cons_of_ne_nil c.ne_nil
    rw [if_neg hlt, if_neg hlt, hnil, hcons]
    rfl

theorem dumpLoop_eq {cache : Fin n → CachedColumn InternalID} (key : InternalID) (rest t fuel : Nat)
    (hrest : t + rest = lastRound cache) (hfuel : rest < fuel) :
    dumpLoop key fuel (fun i => indexAt (cache i) t) (fun i => vectorsAt (cache i) t) =
      (range' t (rest + 1)).map fun t => ⟨key, fun i => (cache i).vectors.getD t []⟩ := by
  induction rest generalizing t fuel with
  | zero =>
    obtain ⟨fuel, rfl⟩ := Nat.exists_eq_add_of_lt hfuel
    have hend : ¬ ∃ i, (indexAt (cache i) (t + 1)).isSome := by
      rintro ⟨i, hi⟩
      have hlt : t + 1 < (cache i).numVectors := by simpa [indexAt] using hi
      have := (lt_lastRound_iff cache t).mpr ⟨i, hlt⟩
      omega
    simp only [dumpLoop, nextIndex_indexAt, getD_vectorsAt]
    rw [if_neg hend]
    rfl
  | succ rest ih =>
    obtain ⟨fuel, rfl⟩ : ∃ fuel', fuel = fuel' + 1 := ⟨fuel - 1, by omega⟩
    have hgoon : ∃ i, (indexAt (cache i) (t + 1)).isSome := by
      obtain ⟨i, hi⟩ := (lt_lastRound_iff cache t).mp (by omega)
      exact ⟨i, by simp [indexAt, hi]⟩
    simp only [dumpLoop, nextIndex_indexAt, getD_vectorsAt, vectorsAt_succ]
    rw [if_pos hgoon, ih (t + 1) fuel (by omega) (by omega)]
    rfl

/-- With fewer than `2 ^ 32` vectors in each column the loop stores what the shared build stores. -/
theorem dumpRounds_refines {key : InternalID} {cache : Fin n → CachedColumn InternalID}
    (hne : ∀ i, (cache i).vectors.flatten ≠ []) (hshort : ∀ i, (cache i).numVectors < 2 ^ 32) :
    (dumpRounds key (lastRound cache + 1) fun i => ⟨0, (cache i).vectors⟩).map
        (fun r => r.1.map fun tuple => (⟨tuple.key, tuple.payloads⟩ : SharedTuple n)) =
      some (dumpedTuples ⟨some key, fun i => (cache i).vectors⟩) := by
  have hpos (i : Fin n) : 0 < (cache i).numVectors :=
    pos_of_ne_zero (mt (cache i).numVectors_eq_zero_iff.mp (hne i))
  have hskip := CachedColumn.not_exists_first hne
  have hindex : (fun i => indexAt (cache i) 0) = fun _ => some 0 := funext fun i => if_pos (hpos i)
  have hvectors : (fun i => vectorsAt (cache i) 0) = fun i => (cache i).vectors :=
    funext fun i => if_pos (hpos i)
  -- The fuel of the shared build is the number of all vectors.
  have hfuel : lastRound cache < ∑ i, (cache i).vectors.length + 1 := by
    refine Nat.lt_succ_of_le ((Nat.sub_le _ 1).trans (Finset.sup_le fun i _ => ?_))
    exact countP_le_length.trans
      (Finset.single_le_sum (f := fun i => (cache i).vectors.length) (fun _ _ => Nat.zero_le _)
        (Finset.mem_univ i))
  have hloop := dumpLoop_eq key (lastRound cache) 0 _ (zero_add _) hfuel
  rw [hindex, hvectors] at hloop
  simp only [dumpedTuples]
  rw [if_neg hskip, hloop, dumpRounds_short hpos hshort, ← range_eq_range']
  simp only [Option.map_some, map_map]
  refine congrArg some (map_congr_left fun t _ => ?_)
  have hpayload : (fun i => ((⟨0, (cache i).vectors⟩ : DumpColumn InternalID).iterate t).payload) =
      fun i => (cache i).vectors.getD t [] := funext fun i => payload_short (hshort i) (hpos i) t
  exact congrArg (HTTuple.mk key) hpayload

/-- Two columns, one of a single full vector and one of three: the first column is exhausted after the
first of three rounds, and its index is incremented past `-1u` in both later ones. -/
theorem dumpRounds_refines_uneven :
    let cache (i : Fin 2) : CachedColumn InternalID := fullVectors ⟨i, 0⟩ (2 * i + 1) (by omega)
    lastRound cache = 2 ∧
      (dumpRounds (⟨0, 0⟩ : InternalID) (lastRound cache + 1) fun i => ⟨0, (cache i).vectors⟩).map
          (fun r => r.1.map fun tuple => (⟨tuple.key, tuple.payloads⟩ : SharedTuple 2)) =
        some (dumpedTuples ⟨some ⟨0, 0⟩, fun i => (cache i).vectors⟩) := by
  intro cache
  have hlength (i : Fin 2) : (cache i).numVectors = 2 * i + 1 := numVectors_fullVectors ..
  refine ⟨?_, dumpRounds_refines (fun i hnil => ?_) fun i => ?_⟩
  · simp only [lastRound, hlength]
    decide
  · have := (CachedColumn.numVectors_eq_zero_iff _).mpr hnil
    rw [hlength] at this
    omega
  · rw [hlength]
    omega

end Refine

end SharedBuild
end CycleJoin
