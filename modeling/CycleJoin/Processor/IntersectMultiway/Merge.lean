import CycleJoin.Lib.Leapfrog
import CycleJoin.Processor.IntersectMultiway.Cursor

/-!
# The merge is a leapfrog intersection

`multiway_intersect_on_sorted_tuples` for one right node. Its cursors stand for lists
(`TupleCursor.rest`), its rounds are the rounds of `Leapfrog.Run` on these lists, and the result
cache receives the hits in order.

* `forwardCursors_cases`, `consumeCursors_spec`: one pass over the cursors.
* `fillResultCache_spec`: writing an ID `n` times appends `n` copies to the contents of the cache.
* `mergeLoop_spec`: the loop ends within its fuel, and its hits are those of a `Run`.
* `mergeLoop_initMerge_spec`, `multiwayIntersectOnSortedTuples_spec`: the same for the whole
  function.
-/

namespace CycleJoin

open List Leapfrog ValueVec

namespace IntersectMultiway

open TupleCursor

/-! ## Passes over the cursors -/

/-- The cursors stand on IDs. -/
def Live (cs : List TupleCursor) : Prop := ∀ c ∈ cs, c.Valid ∧ c.finished = false

variable {cs : List TupleCursor} {c : TupleCursor}

theorem live_cons : Live (c :: cs) ↔ (c.Valid ∧ c.finished = false) ∧ Live cs := by simp [Live]

/-- The lists that the cursors stand for. -/
def rests (cs : List TupleCursor) : List (List InternalID) := cs.map rest

/-- One cursor in `forwardCursors`: it drops the IDs smaller than the target. -/
theorem forward_one {t : InternalID} (hv : c.Valid) (hf : c.finished = false) :
    (if c.getCurrentID < t then c.goUtil t else c).Valid ∧
    (if c.getCurrentID < t then c.goUtil t else c).rest = c.rest.dropWhile (· < t) := by
  split
  · rename_i hlt
    exact goUtil_spec hv hf hlt
  · rename_i hlt
    refine ⟨hv, ?_⟩
    rw [rest_eq_cons hv hf, dropWhile_cons_of_neg (by simpa using hlt)]

/-- The three ways a pass over the cursors ends are those of `Leapfrog.forward`. -/
theorem forwardCursors_cases (t : InternalID) (hl : Live cs) :
    ((forwardCursors t cs).finished = true ∧ forward t (rests cs) = .exhausted) ∨
    ((forwardCursors t cs).finished = false ∧ Live (forwardCursors t cs).cursors ∧
      ((forwardCursors t cs).targetChanged = true ∧ forward t (rests cs) =
            .missed (forwardCursors t cs).target (rests (forwardCursors t cs).cursors) ∨
        (forwardCursors t cs).targetChanged = false ∧ (forwardCursors t cs).target = t ∧
          forward t (rests cs) = .found (rests (forwardCursors t cs).cursors))) := by
  induction cs with
  | nil => exact .inr ⟨rfl, by simp [forwardCursors, Live], .inr ⟨rfl, rfl, rfl⟩⟩
  | cons c cs ih =>
    obtain ⟨⟨hv, hf⟩, hl'⟩ := live_cons.mp hl
    obtain ⟨hv', hr⟩ := forward_one (t := t) hv hf
    rw [forwardCursors]
    generalize (if c.getCurrentID < t then c.goUtil t else c) = c' at hv' hr
    simp only [rests, map_cons, forward, ← hr]
    cases hf' : c'.finished with
    | true => exact .inl ⟨by simp, by simp [rest_of_finished hf']⟩
    | false =>
      have hcons := rest_eq_cons hv' hf'
      rw [hcons]
      simp only [Bool.false_eq_true]
      by_cases hgt : t < c'.getCurrentID
      · rw [if_pos hgt, if_pos hgt]
        exact .inr ⟨rfl, live_cons.mpr ⟨⟨hv', hf'⟩, hl'⟩, .inl ⟨rfl, by simp [hcons]⟩⟩
      · simp only [if_neg hgt]
        rcases ih hl' with ⟨h1, h2⟩ | ⟨h1, h2, ⟨h3, h4⟩ | ⟨h3, h4, h5⟩⟩
        · rw [rests] at h2
          exact .inl ⟨h1, by rw [h2]⟩
        · rw [rests] at h4
          exact .inr ⟨h1, live_cons.mpr ⟨⟨hv', hf'⟩, h2⟩, .inl ⟨h3, by rw [h4]; simp [rests, hcons]⟩⟩
        · rw [rests] at h5
          exact .inr ⟨h1, live_cons.mpr ⟨⟨hv', hf'⟩, h2⟩, .inr ⟨h3, h4, by rw [h5]; simp [rests, hcons]⟩⟩

theorem consumeCursor_spec {v : InternalID} (hv : c.Valid) (hhd : c.rest.head? = some v) (s : Consumed) :
    (∃ c', c'.Valid ∧ c'.rest = c.rest.dropWhile (· = v) ∧ (consumeCursor v s c).cursors = s.cursors ++ [c']) ∧
    (consumeCursor v s c).multipliedCount = s.multipliedCount * (c.rest.takeWhile (· = v)).length % 2 ^ 64 ∧
    (consumeCursor v s c).target = nextTarget s.target [c.rest.dropWhile (· = v)] ∧
    ((consumeCursor v s c).finished = true ↔ s.finished = true ∨ c.rest.dropWhile (· = v) = []) := by
  obtain ⟨hcount, hv', hr⟩ := gotoNext_countRun_spec hv hhd
  unfold consumeCursor
  generalize c.gotoNext.countRun v c.numElements 1 = p at hcount hv' hr
  obtain ⟨count, c'⟩ := p
  simp only at hcount hv' hr ⊢
  rw [← hcount, ← hr]
  cases hf : c'.finished with
  | true =>
    simp only [if_true]
    exact ⟨⟨c', hv', rfl, rfl⟩, trivial, by simp [nextTarget, rest_of_finished hf], by simp [rest_of_finished hf]⟩
  | false =>
    have hcons := rest_eq_cons hv' hf
    have hne : c'.rest ≠ [] := by rw [hcons]; exact cons_ne_nil _ _
    simp only [Bool.false_eq_true, if_false]
    by_cases hlt : s.target < c'.getCurrentID
    · simp only [if_pos hlt]
      exact ⟨⟨c', hv', rfl, rfl⟩, trivial, by simp [nextTarget, hcons, hlt.le], by simp [hne]⟩
    · simp only [if_neg hlt]
      refine ⟨⟨c', hv', rfl, rfl⟩, trivial, ?_, by simp [hne]⟩
      simp [nextTarget, hcons, not_lt.mp hlt]

theorem consumeCursors_spec {v : InternalID} (hv : ∀ c ∈ cs, c.Valid)
    (hhd : ∀ c ∈ cs, c.rest.head? = some v) (s : Consumed) (hs : ∀ c ∈ s.cursors, c.Valid)
    (hm : s.multipliedCount < 2 ^ 64) :
    (∀ c ∈ (consumeCursors v cs s).cursors, c.Valid) ∧
    rests (consumeCursors v cs s).cursors = rests s.cursors ++ skipRuns v (rests cs) ∧
    (consumeCursors v cs s).multipliedCount = s.multipliedCount * (counts v (rests cs)).prod % 2 ^ 64 ∧
    (consumeCursors v cs s).target = nextTarget s.target (skipRuns v (rests cs)) ∧
    ((consumeCursors v cs s).finished = true ↔ s.finished = true ∨ [] ∈ skipRuns v (rests cs)) := by
  induction cs generalizing s with
  | nil =>
    refine ⟨hs, by simp [consumeCursors, rests, skipRuns], ?_, rfl, ?_⟩
    · simp only [rests, counts, map_nil, prod_nil, mul_one]
      exact (Nat.mod_eq_of_lt hm).symm
    · simp [consumeCursors, rests, skipRuns]
  | cons c cs ih =>
    obtain ⟨⟨c', hv', hr, hcs⟩, hcount, ht, hf⟩ := consumeCursor_spec (hv c mem_cons_self) (hhd c mem_cons_self) s
    have hs' : ∀ d ∈ (consumeCursor v s c).cursors, d.Valid := by
      rw [hcs]
      simpa [or_imp, forall_and] using ⟨hs, hv'⟩
    obtain ⟨h1, h2, h3, h4, h5⟩ := ih (fun d hd => hv d (mem_cons_of_mem _ hd))
      (fun d hd => hhd d (mem_cons_of_mem _ hd)) _ hs' (hcount ▸ Nat.mod_lt _ (by norm_num))
    refine ⟨h1, ?_, ?_, ?_, ?_⟩
    · refine h2.trans ?_
      rw [hcs]
      simp [rests, skipRuns, hr]
    · refine h3.trans ?_
      rw [hcount]
      simp [rests, counts, mul_assoc]
    · exact h4.trans (by rw [ht]; rfl)
    · refine h5.trans ?_
      rw [hf, or_assoc]
      simp only [rests, skipRuns, map_cons, mem_cons]
      rw [eq_comm (a := [])]

/-! ## The result cache -/

/-- The IDs in the vectors of a result cache. -/
def contents (resultCache : List ValueVec) : List InternalID := resultCache.flatMap ids

/-- The vectors before `cur` are full and the vectors after `cur` are empty. -/
def Packed (cur : Nat) (resultCache : List ValueVec) : Prop :=
  ∃ full c stale, resultCache = full ++ c :: stale ∧ full.length = cur ∧
    (∀ d ∈ full, d.selSize = defaultVectorCapacity) ∧ c.selSize ≤ defaultVectorCapacity ∧
    ∀ d ∈ stale, d.selSize = 0

theorem ids_fillN (c : ValueVec) (n : Nat) (v : InternalID) :
    (c.fillN n v (c.selSize + n)).ids = c.ids ++ replicate n v := by
  simp only [ids, fillN, range_add, map_append, map_map]
  congr 1
  · apply map_congr_left
    intro p hp
    rw [if_neg]
    simp only [mem_range] at hp
    omega
  · apply eq_replicate_iff.mpr
    refine ⟨by simp, fun x hx => ?_⟩
    obtain ⟨p, hp, rfl⟩ := mem_map.mp hx
    simp only [mem_range] at hp
    exact if_pos ⟨Nat.le_add_right _ _, Nat.add_lt_add_left hp _⟩

theorem ids_fillN_full {c : ValueVec} (v : InternalID) (hc : c.selSize ≤ defaultVectorCapacity) :
    (c.fillN (defaultVectorCapacity - c.selSize) v defaultVectorCapacity).ids =
      c.ids ++ replicate (defaultVectorCapacity - c.selSize) v := by
  have h := ids_fillN c (defaultVectorCapacity - c.selSize) v
  rwa [Nat.add_sub_cancel' hc] at h

theorem contents_of_stale {stale : List ValueVec} (h : ∀ d ∈ stale, d.selSize = 0) : contents stale = [] := by
  rw [contents, flatMap_eq_nil_iff]
  intro d hd
  simp [ids, h d hd]

theorem contents_split {full stale : List ValueVec} (c : ValueVec) (h : ∀ d ∈ stale, d.selSize = 0) :
    contents (full ++ c :: stale) = contents full ++ c.ids := by
  have hstale := contents_of_stale h
  simp only [contents, flatMap_append, flatMap_cons] at hstale ⊢
  rw [hstale, append_nil]

@[simp] theorem fillResultCache_zero (v : InternalID) (fuel cur : Nat) (cache : List ValueVec) :
    fillResultCache v fuel 0 cur cache = (cur, cache) := by
  cases fuel <;> rfl

/-- The vector after the current one, made by the source when there is none. -/
theorem exists_next_stale (full : List ValueVec) (c : ValueVec) {stale : List ValueVec}
    (h : ∀ d ∈ stale, d.selSize = 0) :
    ∃ c' stale', (if full.length + 1 = (full ++ c :: stale).length then
        full ++ c :: stale ++ [default] else full ++ c :: stale) = (full ++ [c]) ++ c' :: stale' ∧
      c'.selSize = 0 ∧ ∀ d ∈ stale', d.selSize = 0 := by
  cases stale with
  | nil => exact ⟨default, [], by simp, rfl, by simp⟩
  | cons d stale =>
    exact ⟨d, stale, by simp, h d mem_cons_self, fun e he => h e (mem_cons_of_mem _ he)⟩

/-- Writing `v` `n` times appends `n` copies of it. A full current vector costs a round. -/
theorem fillResultCache_split (v : InternalID) (fuel n : Nat) {full stale : List ValueVec}
    {c : ValueVec} (hfull : ∀ d ∈ full, d.selSize = defaultVectorCapacity)
    (hc : c.selSize ≤ defaultVectorCapacity) (hstale : ∀ d ∈ stale, d.selSize = 0)
    (hfuel : n + (if c.selSize = defaultVectorCapacity then 1 else 0) ≤ fuel) :
    Packed (fillResultCache v fuel n full.length (full ++ c :: stale)).1
      (fillResultCache v fuel n full.length (full ++ c :: stale)).2 ∧
    contents (fillResultCache v fuel n full.length (full ++ c :: stale)).2 =
      contents (full ++ c :: stale) ++ replicate n v := by
  induction fuel generalizing n full c stale with
  | zero =>
    obtain rfl : n = 0 := by omega
    simp only [fillResultCache_zero, replicate_zero, append_nil, and_true]
    exact ⟨full, c, stale, rfl, rfl, hfull, hc, hstale⟩
  | succ fuel ih =>
    rw [fillResultCache]
    split
    · rename_i hn
      subst hn
      exact ⟨⟨full, c, stale, rfl, rfl, hfull, hc, hstale⟩, by simp⟩
    · have hget : (full ++ c :: stale).getD full.length default = c := by simp
      have hset (d : ValueVec) : (full ++ c :: stale).set full.length d = full ++ d :: stale := by
        simp
      simp only [hget, hset]
      split
      · rw [fillResultCache_zero]
        refine ⟨⟨full, _, stale, rfl, rfl, hfull, ?_, hstale⟩, ?_⟩
        · simp only [fillN]
          omega
        · rw [contents_split _ hstale, contents_split _ hstale, ids_fillN, append_assoc]
      · obtain ⟨c', stale', hnext, hc', hstale'⟩ := exists_next_stale full
          (c.fillN (defaultVectorCapacity - c.selSize) v defaultVectorCapacity) hstale
        have hfull' : ∀ d ∈ full ++ [c.fillN (defaultVectorCapacity - c.selSize) v defaultVectorCapacity],
            d.selSize = defaultVectorCapacity := by
          simp only [mem_append, mem_singleton]
          rintro d (hd | rfl)
          · exact hfull d hd
          · rfl
        have hcap : 0 < defaultVectorCapacity := by decide
        rw [hnext]
        obtain ⟨hp, hcont⟩ := ih (n - (defaultVectorCapacity - c.selSize)) hfull' (hc' ▸ Nat.zero_le _) hstale' (by
            rw [if_neg (by omega)]
            split at hfuel <;> omega)
        rw [length_append] at hp hcont
        refine ⟨hp, hcont.trans ?_⟩
        have hids : c'.ids = [] := by simp [ids, hc']
        rw [contents_split _ hstale', hids, contents_split _ (by simp), ids_fillN_full v hc, contents_split _ hstale]
        have hn' : n = (defaultVectorCapacity - c.selSize) + (n - (defaultVectorCapacity - c.selSize)) := by omega
        conv_rhs => rw [hn']
        simp [append_assoc]

variable {cache : List ValueVec} {cur : Nat}

theorem fillResultCache_spec (v : InternalID) (n : Nat) (h : Packed cur cache) :
    Packed (fillResultCache v (n + 2) n cur cache).1 (fillResultCache v (n + 2) n cur cache).2 ∧
    contents (fillResultCache v (n + 2) n cur cache).2 = contents cache ++ replicate n v := by
  obtain ⟨full, c, stale, rfl, rfl, hfull, hc, hstale⟩ := h
  exact fillResultCache_split v (n + 2) n hfull hc hstale (by split <;> omega)

/-- Setting all sizes to 0 empties a cache. -/
theorem packed_clear (h : cache ≠ []) : Packed 0 (cache.map fun c => { c with selSize := 0 }) := by
  obtain ⟨c, cache, rfl⟩ := exists_cons_of_ne_nil h
  exact ⟨[], _, _, rfl, rfl, by simp, Nat.zero_le _, by simp⟩

theorem contents_clear (cache : List ValueVec) : contents (cache.map fun c => { c with selSize := 0 }) = [] :=
  contents_of_stale (by simp)

/-! ## The loop -/

/-- What `size_t` keeps of a count. -/
def wrap (n : Nat) : Nat := n % 2 ^ 64

/-- The variables of the merge loop between two rounds. -/
structure MergeState.Ok (s : MergeState) : Prop where
  live : Live s.cursors
  ne_nil : s.cursors ≠ []
  packed : Packed s.currentResultCacheId s.resultCache

/-- Vector 0 of a packed cache holds all its IDs, or as many as fit. -/
theorem Packed.headSize (h : Packed cur cache) :
    headSize cache = min (contents cache).length defaultVectorCapacity := by
  obtain ⟨full, c, stale, rfl, rfl, hfull, hc, hstale⟩ := h
  rw [contents_split c hstale]
  cases full with
  | nil => simpa [IntersectMultiway.headSize, contents, ids] using hc
  | cons d full =>
    have hd := hfull d mem_cons_self
    simp [IntersectMultiway.headSize, contents, ids, hd]

theorem Packed.ne_nil (h : Packed cur cache) : cache ≠ [] := by
  obtain ⟨full, c, stale, rfl, -⟩ := h
  simp

theorem rests_ne_nil : rests cs ≠ [] ↔ cs ≠ [] := by simp [rests]

/-- A round that ends in a hit: the state after it, and whether a cursor finished. -/
theorem consume_fill_spec {s : MergeState} {t : InternalID}
    (hp : Packed s.currentResultCacheId s.resultCache) (hl : Live cs) (hne : cs ≠ [])
    (hhd : ∀ r ∈ rests cs, r.head? = some t) {d : Consumed}
    (hd : consumeCursors t cs ⟨[], t, 1, false⟩ = d)
    (hfill : fillResultCache t (d.multipliedCount + 2) d.multipliedCount s.currentResultCacheId
      s.resultCache = (cur, cache)) :
    Packed cur cache ∧
    contents cache = contents s.resultCache ++ replicate (wrap (counts t (rests cs)).prod) t ∧
    rests d.cursors = skipRuns t (rests cs) ∧
    d.target = nextTarget t (skipRuns t (rests cs)) ∧
    (d.finished = true ↔ [] ∈ skipRuns t (rests cs)) ∧
    (d.finished = false → (MergeState.mk d.cursors d.target false cur cache).Ok) := by
  obtain ⟨hv, hr, hm, ht, hf⟩ := consumeCursors_spec (fun c hc => (hl c hc).1)
    (fun c hc => hhd _ (mem_map_of_mem hc)) ⟨[], t, 1, false⟩ (by simp) (by norm_num)
  rw [hd] at hv hr hm ht hf
  simp only [rests, map_nil, nil_append, one_mul, Bool.false_eq_true, false_or] at hr hm hf
  obtain ⟨hp', hc'⟩ := fillResultCache_spec t d.multipliedCount hp
  rw [hfill] at hp' hc'
  refine ⟨hp', ?_, hr, ht, hf, fun hfin => ⟨fun c hc => ⟨hv c hc, ?_⟩, ?_, hp'⟩⟩
  · rw [hc', hm]
    rfl
  · -- no list has ended, so no cursor has
    by_contra hcf
    have hnil := rest_of_finished (Bool.not_eq_false _ ▸ hcf)
    have : [] ∈ skipRuns t (rests cs) := hr ▸ hnil ▸ mem_map_of_mem hc
    rw [hf.mpr this] at hfin
    cases hfin
  · rw [← rests_ne_nil, rests, hr]
    simpa [skipRuns] using hne

theorem mergeLoop_spec (fuel : Nat) {s : MergeState} (hs : s.Ok) (hfuel : rank s.target (rests s.cursors) < fuel) :
    ∃ s' out, mergeLoop fuel s = some s' ∧ Run s.target (rests s.cursors) out ∧
      contents s'.resultCache = contents s.resultCache ++ hits wrap out ∧
      (s'.emptyIntersect = true ↔ s.emptyIntersect = true ∧ out = []) ∧
      Packed s'.currentResultCacheId s'.resultCache := by
  induction fuel generalizing s with
  | zero => omega
  | succ fuel ih =>
    have hne := rests_ne_nil.mpr hs.ne_nil
    rw [mergeLoop]
    have hcases := forwardCursors_cases s.target hs.live
    generalize forwardCursors s.target s.cursors = p at hcases
    rcases hcases with ⟨hf, hx⟩ | ⟨hf, hl, ⟨hch, hx⟩ | ⟨hch, ht, hx⟩⟩
    · simp only [hf]
      exact ⟨_, [], rfl, .exhausted hx, by simp [hits], by simp, hs.packed⟩
    · have hcs := ne_nil_of_skips (forward_missed hx).2.1 hne
      have hrank := rank_missed hx
      obtain ⟨s', out, h1, h2, h3⟩ := ih (s := { s with cursors := p.cursors, target := p.target })
        ⟨hl, rests_ne_nil.mp hcs, hs.packed⟩ (by simp only; omega)
      simp only [hf, hch]
      exact ⟨s', out, h1, .missed hx h2, h3⟩
    · obtain ⟨hsk, hhd⟩ := forward_found hx
      have hcs := ne_nil_of_skips hsk hne
      simp only [hf, hch, ht]
      generalize hd : consumeCursors s.target p.cursors ⟨[], s.target, 1, false⟩ = d
      generalize hfill : fillResultCache s.target (d.multipliedCount + 2) d.multipliedCount
        s.currentResultCacheId s.resultCache = r
      obtain ⟨hp, hc, hr, htgt, hfin, hok⟩ := consume_fill_spec hs.packed hl (rests_ne_nil.mp hcs) hhd hd hfill
      cases hdf : d.finished with
      | true =>
        refine ⟨_, [(s.target, counts s.target (rests p.cursors))], rfl, .last hx (hfin.mp hdf), ?_, by simp, hp⟩
        simpa [hits] using hc
      | false =>
        have hrank := rank_found hx hne (le_nextTarget _ (skipRuns s.target (rests p.cursors)))
        rw [← htgt, ← hr] at hrank
        obtain ⟨s', out, h1, h2, h3, h4, h5⟩ := ih (hok hdf) (by simp only; omega)
        rw [hr, htgt] at h2
        have hnot : [] ∉ skipRuns s.target (rests p.cursors) := by
          rw [← hfin, hdf]
          simp
        refine ⟨s', _, h1, .next hx hnot h2, ?_, ?_, h5⟩
        · rw [h3, hc, hits_cons, append_assoc]
        · rw [h4]
          simp

/-! ## The whole merge -/

theorem rank_lt_mergeFuel (t : InternalID) (cs : List TupleCursor) : rank t (rests cs) < mergeFuel cs := by
  refine Nat.lt_succ_of_le ?_
  induction cs with
  | nil => exact Nat.zero_le _
  | cons c cs ih =>
    have hlen := c.length_rest_le
    have hcount := countP_le_length (p := fun x => decide (t < x)) (l := c.rest)
    simp only [rests, rank, map_cons, sum_cons] at ih ⊢
    omega

/-- The merge over cursors that stand on IDs ends. Its result are the hits of an intersection of
their lists that starts at the head of one of them, and `emptyIntersect` says that there is no
hit. -/
theorem mergeLoop_initMerge_spec (hlive : Live cs) (hne : cs ≠ []) (hc : cache ≠ []) :
    ∃ s' t out, mergeLoop (mergeFuel cs) (initMerge cs cache) = some s' ∧
      (∃ l ∈ rests cs, l.head? = some t) ∧ Run t (rests cs) out ∧
      contents s'.resultCache = hits wrap out ∧ (s'.emptyIntersect = true ↔ out = []) ∧
      Packed s'.currentResultCacheId s'.resultCache := by
  obtain ⟨s', out, h1, h2, h3, h4, h5⟩ := mergeLoop_spec (mergeFuel cs)
    (s := initMerge cs cache) ⟨hlive, hne, packed_clear hc⟩ (rank_lt_mergeFuel _ _)
  refine ⟨s', _, out, h1, ?_, h2, ?_, ?_, h5⟩
  · obtain ⟨c, cs', rfl⟩ := exists_cons_of_ne_nil hne
    obtain ⟨hv, hf⟩ := hlive c mem_cons_self
    exact ⟨c.rest, mem_cons_self, head_rest hv hf⟩
  · rw [h3, initMerge, contents_clear, nil_append]
  · simpa [initMerge] using h4

/-- The lists probed for right node `j`, one per connected left node. -/
def listsFor (info : IntersectMultiwayDataInfo) (ids : ProbedIds) (j : Nat) : List (List InternalID) :=
  (info.right2leftIdx j).map fun i => (ids i j).flatten

/-- The lists of every left node connected to `j` are as `probeHTs` leaves them: there is one, and
none is empty. -/
def Probed (info : IntersectMultiwayDataInfo) (ids : ProbedIds) (j : Nat) : Prop :=
  ∀ i ∈ info.right2leftIdx j, ids i j ≠ [] ∧ ∀ l ∈ ids i j, l ≠ []

variable {info : IntersectMultiwayDataInfo} {ids : ProbedIds} {j : Nat}

theorem live_cursorsFor (h : Probed info ids j) : Live (cursorsFor info ids j) := by
  intro c hc
  obtain ⟨i, hi, rfl⟩ := mem_map.mp hc
  exact ⟨valid_new (h i hi).2 (h i hi).1, rfl⟩

theorem rests_cursorsFor (h : Probed info ids j) : rests (cursorsFor info ids j) = listsFor info ids j := by
  rw [rests, cursorsFor, map_map]
  exact map_congr_left fun i hi => rest_new (h i hi).1

/-- The merge for one right node ends. Its result are the hits of an intersection of the probed
lists that starts at the head of one of them, and `emptyIntersect` says that there is no hit. -/
theorem multiwayIntersectOnSortedTuples_spec (hj : info.right2leftIdx j ≠ [])
    (h : Probed info ids j) (hc : cache ≠ []) :
    ∃ e cache' t out, multiwayIntersectOnSortedTuples info ids j cache = some (e, cache') ∧
      (∃ l ∈ listsFor info ids j, l.head? = some t) ∧
      Run t (listsFor info ids j) out ∧
      contents cache' = hits wrap out ∧ (e = true ↔ out = []) ∧ ∃ cur, Packed cur cache' := by
  have hne : cursorsFor info ids j ≠ [] := by simpa [cursorsFor] using hj
  obtain ⟨s', t, out, h1, h2, h3, h4, h5, h6⟩ := mergeLoop_initMerge_spec (live_cursorsFor h) hne hc
  rw [rests_cursorsFor h] at h2 h3
  refine ⟨s'.emptyIntersect, s'.resultCache, t, out, ?_, h2, h3, h4, h5, _, h6⟩
  rw [multiwayIntersectOnSortedTuples, h1]
  rfl

end IntersectMultiway
end CycleJoin
