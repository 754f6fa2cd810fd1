import CycleJoin.Processor.SharedBuild.Pull

/-!
# A bound node in the shared build

What the pipeline ships for one bound node, and what the build stores for it.

* `bound_run`: the calls for a bound node end, and ship for each step of the scan what the chain
  makes of the items of that step.
* `appendCached_spec`, `dumpLoop_spec`: the cached vectors hold what was shipped, and all of it is
  stored.
* `execute_spec`: the whole run ends and stores for each bound node what was shipped for it, or
  nothing if a path shipped nothing.
-/

namespace CycleJoin

open List

namespace SharedBuild

variable {n : Nat} {pl : Pipeline n}

/-! ## What is shipped -/

/-- What the calls write into the payload vector of path `j`, when it is emptied after each call. -/
def collect (j : Fin n) (ws : List (Writes n)) : List InternalID := ws.flatMap fun w => (w j).getD []

theorem collect_append (j : Fin n) (ws ws' : List (Writes n)) :
    collect j (ws ++ ws') = collect j ws ++ collect j ws' := flatMap_append

theorem collect_map_only (i j : Fin n) (outs : List (List InternalID)) :
    collect j (outs.map (only i)) = if j = i then outs.flatten else [] := by
  induction outs with
  | nil => simp [collect]
  | cons out outs ih =>
    rw [map_cons, collect, flatMap_cons, ← collect, ih]
    by_cases hj : j = i
    · subst hj
      simp [only]
    · simp [only, hj]

theorem collect_expand {i j : Fin n} {outs : List (List InternalID)} (hne : outs ≠ []) (w : Writes n) :
    collect j (expand i outs w) = if j = i then outs.flatten else (w j).getD [] := by
  obtain ⟨out, outs, rfl⟩ := exists_cons_of_ne_nil hne
  rw [expand, collect, flatMap_cons, ← collect, collect_map_only]
  by_cases hj : j = i
  · subst hj
    simp
  · simp [hj]

theorem probeEmissions_ne_nil (ht : JoinHashTable (List InternalID)) (sel : List InternalID) :
    probeEmissions ht sel ≠ [] := by
  unfold probeEmissions
  split
  · exact emissions_ne_nil _ _
  · simp

theorem length_expand {i : Fin n} (outs : List (List InternalID)) (w : Writes n) :
    (expand i outs w).length = outs.length := by
  cases outs <;> simp [expand]

section Chain

variable (pl) (sel : Fin n → List InternalID) (w : Writes n)

section
variable (chain : List (Fin n))

/-- How often a chain ships for one step of the scan. -/
def copies : Nat := (chain.map fun i => (outsOf pl sel i).length).prod

theorem copies_pos : 0 < copies pl sel chain := by
  refine prod_pos fun len hlen => ?_
  obtain ⟨i, -, rfl⟩ := mem_map.mp hlen
  exact length_pos_iff.mpr (probeEmissions_ne_nil _ _)

theorem copies_eq_one_iff : copies pl sel chain = 1 ↔ ∀ i ∈ chain, (outsOf pl sel i).length = 1 := by
  induction chain with
  | nil => simp [copies]
  | cons i below ih =>
    rw [forall_mem_cons, ← ih, copies, map_cons, prod_cons, mul_eq_one]
    rfl

theorem length_chainWrites : (chainWrites pl sel w chain).length = copies pl sel chain := by
  induction chain with
  | nil => rfl
  | cons i below ih =>
    rw [chainWrites, length_flatMap]
    simp only [length_expand, map_const', sum_replicate, ih, smul_eq_mul]
    rw [copies, copies, map_cons, prod_cons, mul_comm]

end

theorem collect_chainWrites_cons (i j : Fin n) (below : List (Fin n)) :
    collect j (chainWrites pl sel w (i :: below)) =
      if j = i then (chainWrites pl sel w below).flatMap fun _ => (outsOf pl sel i).flatten
      else collect j (chainWrites pl sel w below) := by
  rw [chainWrites, collect, flatMap_assoc]
  have hexp (w' : Writes n) : (expand i (outsOf pl sel i) w').flatMap (fun w => (w j).getD []) =
      if j = i then (outsOf pl sel i).flatten else (w' j).getD [] :=
    collect_expand (probeEmissions_ne_nil _ _) w'
  simp only [hexp]
  split <;> rfl

/-- A path without a probe ships what the scan wrote, once. -/
theorem collect_chainWrites_of_not_mem {chain : List (Fin n)} {j : Fin n} (hj : j ∉ chain) :
    collect j (chainWrites pl sel w chain) = (w j).getD [] := by
  induction chain with
  | nil => simp [chainWrites, collect]
  | cons i below ih =>
    obtain ⟨hne, hj⟩ : j ≠ i ∧ j ∉ below := by simpa using hj
    rw [collect_chainWrites_cons, if_neg hne, ih hj]

/-- A path with a probe ships its end nodes once for every call of the chain below. -/
theorem count_chainWrites_of_mem {above below : List (Fin n)} {j : Fin n} (hj : j ∉ above) (x : InternalID) :
    (collect j (chainWrites pl sel w (above ++ j :: below))).count x =
      copies pl sel below * (outsOf pl sel j).flatten.count x := by
  induction above with
  | nil =>
    rw [nil_append, collect_chainWrites_cons, if_pos rfl, count_flatMap]
    simp [Function.comp_def, length_chainWrites]
  | cons i above ih =>
    obtain ⟨hne, hj⟩ : j ≠ i ∧ j ∉ above := by simpa using hj
    rw [cons_append, collect_chainWrites_cons, if_neg hne, ih hj]

/-- All that is shipped for one step of the scan, by its selections. -/
def stepWrites : List (Writes n) :=
  chainWrites pl sel (fun i => if pl.flattenScans i then none else some (sel i)) pl.probes

end Chain

/-! ## The steps of a bound node -/

section Steps

variable {s : State n}

/-- The items of all scans. -/
def State.items (pl : Pipeline n) (s : State n) (i : Fin n) : List (List InternalID) :=
  (s.scan i).items (pl.flattenScans i)

/-- The scans are valid and the probes are idle: the next call is one of the scan. -/
structure Boundary (pl : Pipeline n) (s : State n) : Prop where
  valid : ∀ i, (s.scan i).Valid (pl.flattenScans i)
  idle : ∀ i ∈ pl.probes, (s.probe i).Idle

/-- What is shipped for path `j` in the first `m` steps over the items. -/
def shippedIn (pl : Pipeline n) (items : Fin n → List (List InternalID)) (m : Nat) (j : Fin n) :
    List InternalID :=
  (List.range m).flatMap fun t => collect j (stepWrites pl fun i => (items i).getD t [])

theorem shippedIn_succ (items : Fin n → List (List InternalID)) (m : Nat) (j : Fin n) :
    shippedIn pl items (m + 1) j = collect j (stepWrites pl fun i => (items i).headD []) ++
        shippedIn pl (fun i => (items i).tail) m j := by
  rw [shippedIn, range_succ_eq_map, flatMap_cons, flatMap_map]
  have hhead (i : Fin n) : (items i).getD 0 [] = (items i).headD [] := by cases items i <;> rfl
  have htail (t : Nat) (i : Fin n) : (items i).getD (t + 1) [] = (items i).tail.getD t [] := by
    cases items i <;> simp
  simp only [hhead, htail]
  rfl

/-- From a call of the scan on, all steps of a bound node are taken. -/
theorem run_after (s₀ : State n) (hidle : ∀ i ∈ pl.probes, (s.probe i).Idle)
    (hvalid : ∀ i, (s₀.scan i).Valid (pl.flattenScans i))
    (h : scanNext pl s = some (s₀.advance pl, scanWrites pl (s₀.advance pl))) :
    ∃ ws s', Pulls pl pl.probes (fun t => t.key = s₀.key) s ws s' ∧ ws ≠ [] ∧ Boundary pl s' ∧
      (∀ i, (s'.scan i).stateFinished = true) ∧ s'.child = s₀.child ∧
      ∃ m, (∀ i, (s₀.items pl i).length ≤ m) ∧ ∀ j, collect j ws = shippedIn pl (s₀.items pl) m j := by
  induction hm : ∑ i, (s₀.items pl i).length using Nat.strongRecOn generalizing s s₀ with
  | _ k ih =>
    obtain ⟨s₂, hpulls, ⟨hscan, hkey, hchild⟩, hidle₂, -⟩ := chain_step pl.nodup hidle h
    have hadv (i : Fin n) : ScanPath.Advanced (pl.flattenScans i) (s₀.items pl i) (s₂.scan i) := by
      rw [hscan]
      exact ScanPath.advance_spec (hvalid i)
    have hsel : (fun i => ((s₀.advance pl).scan i).sel) = fun i => (s₀.items pl i).headD [] := by
      funext i
      rw [← hscan]
      exact (hadv i).2.1
    have hwrites : chainWrites pl (fun i => ((s₀.advance pl).scan i).sel) (scanWrites pl (s₀.advance pl)) pl.probes =
          stepWrites pl fun i => (s₀.items pl i).headD [] := by
      rw [← hsel]
      rfl
    rw [hwrites] at hpulls
    have hpulls : Pulls pl pl.probes (fun t => t.key = s₀.key) s _ s₂ := hpulls.mono fun t ht => ht.2.1
    have hne : stepWrites pl (fun i => (s₀.items pl i).headD []) ≠ [] := by
      rw [← length_pos_iff, stepWrites, length_chainWrites]
      exact copies_pos pl _ _
    by_cases hall : ∀ i, (s₂.scan i).stateFinished = true
    · refine ⟨_, s₂, hpulls, hne, ⟨fun i => (hadv i).1, hidle₂⟩, hall, hchild, 1, fun i => ?_, fun j => ?_⟩
      · rw [(hadv i).2.2.2.mp (hall i)]
        simp
      · rw [shippedIn_succ]
        simp [shippedIn]
    · have hitems : s₂.items pl = fun i => (s₀.items pl i).tail := funext fun i => (hadv i).2.2.1
      -- a path that is not finished had an item
      have hlt : ∑ i, (s₂.items pl i).length < k := by
        rw [← hm, hitems]
        push Not at hall
        obtain ⟨i, hi⟩ := hall
        refine Finset.sum_lt_sum (fun j _ => by simp) ⟨i, Finset.mem_univ i, ?_⟩
        have hitem : s₀.items pl i ≠ [] := mt (hadv i).2.2.2.mpr hi
        have := length_pos_iff.mpr hitem
        rw [length_tail]
        omega
      obtain ⟨ws, s', hrest, -, hb, hfin, hc, m, hlen, hcollect⟩ :=
        ih _ hlt s₂ hidle₂ (fun i => (hadv i).1) (scanNext_step hall) rfl
      have hk : s₂.key = s₀.key := hkey
      rw [hk] at hrest
      refine ⟨_, s', hpulls.append hrest, append_ne_nil_of_left_ne_nil hne _, hb, hfin, hc.trans hchild, m + 1,
        fun i => ?_, fun j => ?_⟩
      · have := hlen i
        rw [hitems, length_tail] at this
        omega
      · rw [collect_append, hcollect j, shippedIn_succ, hitems]

theorem bound_run {bound : BoundNode n} {child : List (BoundNode n)} (hb : Boundary pl s)
    (hfin : ∀ i, (s.scan i).stateFinished = true) (hc : s.child = bound :: child) :
    ∃ ws s', Pulls pl pl.probes (fun t => t.key = some bound.key) s ws s' ∧ ws ≠ [] ∧
      Boundary pl s' ∧ (∀ i, (s'.scan i).stateFinished = true) ∧ s'.child = child ∧
      ∃ m, (∀ i, (itemsOf (pl.flattenScans i) (bound.batches i)).length ≤ m) ∧ ∀ j, collect j ws =
          shippedIn pl (fun i => itemsOf (pl.flattenScans i) (bound.batches i)) m j := by
  have hinit (i : Fin n) := (hb.valid i).initScanState (hfin i) (bound.batches i)
  have hitems : (s.bind bound child).items pl =
      fun i => itemsOf (pl.flattenScans i) (bound.batches i) := funext fun i => (hinit i).2
  have hrun := run_after (s.bind bound child) hb.idle (fun i => (hinit i).1) (scanNext_cons hfin hc)
  rw [hitems] at hrun
  exact hrun

end Steps

/-! ## The cached vectors -/

section Cached

variable {cache : List (List InternalID)}

/-- No vector after an empty one holds anything. -/
def Tight (cache : List (List InternalID)) : Prop := cache.Pairwise fun u v => u = [] → v = []

theorem flatten_eq_nil_of_tight (h : Tight cache) (h0 : cache.getD 0 [] = []) : cache.flatten = [] := by
  cases cache with
  | nil => rfl
  | cons v cache =>
    have hv : v = [] := h0
    subst hv
    rw [flatten_cons, nil_append, flatten_eq_nil_iff]
    exact fun u hu => (pairwise_cons.mp h).1 u hu rfl

theorem appendCached_spec (h : Tight cache) (x : InternalID) :
    Tight (appendCached x cache) ∧ (appendCached x cache).flatten.Perm (x :: cache.flatten) := by
  induction cache with
  | nil => exact ⟨pairwise_singleton _ _, .refl _⟩
  | cons v cache ih =>
    obtain ⟨hv, h⟩ := pairwise_cons.mp h
    rw [appendCached]
    split
    · refine ⟨pairwise_cons.mpr ⟨fun u _ hnil => by simp at hnil, h⟩, ?_⟩
      rw [flatten_cons, append_assoc]
      exact perm_middle
    · rename_i hfull
      obtain ⟨ht, hperm⟩ := ih h
      refine ⟨pairwise_cons.mpr ⟨fun u _ hnil => ?_, ht⟩, ?_⟩
      · rw [hnil] at hfull
        exact absurd (by decide) hfull
      · exact (hperm.append_left v).trans perm_middle

theorem foldl_appendCached_spec (h : Tight cache) (xs : List InternalID) :
    Tight (xs.foldl (fun cache x => appendCached x cache) cache) ∧
      (xs.foldl (fun cache x => appendCached x cache) cache).flatten.Perm (cache.flatten ++ xs) := by
  induction xs generalizing cache with
  | nil => exact ⟨h, by simp⟩
  | cons x xs ih =>
    obtain ⟨ht, hperm⟩ := appendCached_spec h x
    obtain ⟨ht', hperm'⟩ := ih ht
    refine ⟨ht', hperm'.trans ((hperm.append_right xs).trans ?_)⟩
    exact perm_middle.symm

theorem tight_cleared (cache : List (List InternalID)) : Tight (cache.map fun _ => []) := by
  rw [Tight, pairwise_map]
  exact pairwise_of_forall fun _ _ _ => rfl

theorem flatten_cleared (cache : List (List InternalID)) :
    (cache.map fun _ => ([] : List InternalID)).flatten = [] := by
  simp

end Cached

/-! ## Storing -/

section Dump

variable {key : InternalID} {indices : Fin n → Option Nat} {payloads : Fin n → List (List InternalID)}

/-- The vectors of a path that are still to be stored. -/
def undumped (index : Option Nat) (cache : List (List InternalID)) : List (List InternalID) :=
  match index with
  | some k => cache.drop k
  | none => []

/-- The index is at a vector, or past the end with the first vector emptied. -/
def IndexValid (index : Option Nat) (cache : List (List InternalID)) : Prop :=
  match index with
  | some k => Tight cache ∧ k < cache.length
  | none => cache.getD 0 [] = []

/-- A round stores the vector at the index and goes to the next one. -/
theorem nextIndex_spec {index : Option Nat} {cache : List (List InternalID)} (h : IndexValid index cache) :
    IndexValid (nextIndex index cache) (if (nextIndex index cache).isSome then cache else cache.set 0 []) ∧
    (undumped index cache).flatten = cache.getD (index.getD 0) [] ++ (undumped (nextIndex index cache)
        (if (nextIndex index cache).isSome then cache else cache.set 0 [])).flatten ∧
    (undumped (nextIndex index cache) (if (nextIndex index cache).isSome then cache else cache.set 0 [])).length ≤
        (undumped index cache).length ∧
    ((nextIndex index cache).isSome = true → (undumped (nextIndex index cache)
      (if (nextIndex index cache).isSome then cache else cache.set 0 [])).length <
        (undumped index cache).length) := by
  have hset : (cache.set 0 []).getD 0 [] = [] := by cases cache <;> rfl
  cases index with
  | none =>
    have h0 : cache.getD 0 [] = [] := h
    exact ⟨hset, by simpa [undumped, nextIndex] using h0.symm, le_rfl, fun hsome => by cases hsome⟩
  | some k =>
    obtain ⟨htight, hk⟩ := h
    have hdrop : cache.drop k = cache[k] :: cache.drop (k + 1) := drop_eq_getElem_cons hk
    have hget : cache.getD k [] = cache[k] := getD_eq_getElem _ _ hk
    by_cases hend : k + 1 ≥ cache.length ∨ (cache.getD (k + 1) []).length = 0
    · have hnext : nextIndex (some k) cache = none := if_pos hend
      -- nothing comes after an empty vector
      have hrest : (cache.drop (k + 1)).flatten = [] := by
        refine flatten_eq_nil_of_tight (htight.drop) ?_
        rw [getD_eq_getElem?_getD, getElem?_drop]
        rcases hend with hend | hend
        · exact getD_eq_default _ _ hend
        · exact length_eq_zero_iff.mp hend
      rw [hnext]
      refine ⟨hset, ?_, Nat.zero_le _, fun hsome => by cases hsome⟩
      simp only [undumped, hdrop, flatten_cons, hrest, Option.getD_some, hget, flatten_nil]
    · have hnext : nextIndex (some k) cache = some (k + 1) := if_neg hend
      push Not at hend
      simp only [hnext, undumped, Option.isSome_some, if_true, Option.getD_some, hget,
        hdrop, flatten_cons, length_cons]
      exact ⟨⟨htight, hend.1⟩, trivial, by omega, fun _ => by omega⟩

theorem dumpLoop_spec (key : InternalID) (fuel : Nat) (h : ∀ i, IndexValid (indices i) (payloads i))
    (hfuel : ∑ i, (undumped (indices i) (payloads i)).length < fuel) :
    (∀ t ∈ dumpLoop key fuel indices payloads, t.key = key) ∧
      ∀ i, (dumpLoop key fuel indices payloads).flatMap (·.payload i) =
        (undumped (indices i) (payloads i)).flatten := by
  induction fuel generalizing indices payloads with
  | zero => omega
  | succ fuel ih =>
    have hspec (i : Fin n) := nextIndex_spec (h i)
    simp only [dumpLoop]
    split
    · rename_i hsome
      obtain ⟨i₀, hi₀⟩ := hsome
      obtain ⟨hkey, hstored⟩ := ih (fun i => (hspec i).1) (by
        refine lt_of_lt_of_le (Finset.sum_lt_sum (fun i _ => (hspec i).2.2.1)
          ⟨i₀, Finset.mem_univ i₀, (hspec i₀).2.2.2 hi₀⟩) (by omega))
      refine ⟨forall_mem_cons.mpr ⟨rfl, hkey⟩, fun i => ?_⟩
      rw [flatMap_cons, hstored i, (hspec i).2.1]
    · rename_i hnone
      push Not at hnone
      refine ⟨forall_mem_singleton.mpr rfl, fun i => ?_⟩
      have hnil : nextIndex (indices i) (payloads i) = none := by simpa using hnone i
      have := (hspec i).2.1
      rw [hnil] at this
      simpa [undumped] using this.symm

/-- The tuples hold what was collected for the key; if a path has nothing, there are none. -/
def Stores (key : InternalID) (total : Fin n → List InternalID) (tuples : List (SharedTuple n)) : Prop :=
  (∀ t ∈ tuples, t.key = key) ∧ ((∃ i, total i = []) → tuples = []) ∧
    ((∀ i, total i ≠ []) → ∀ i, (tuples.flatMap (·.payload i)).Perm (total i))

theorem dumpedTuples_spec {cache : Cache n} (hkey : cache.key = some key) (ht : ∀ i, Tight (cache.payloads i)) :
    Stores key (fun i => (cache.payloads i).flatten) (dumpedTuples cache) := by
  have hfirst (i : Fin n) : ((cache.payloads i).getD 0 []).length = 0 ↔ (cache.payloads i).flatten = [] := by
    rw [length_eq_zero_iff]
    refine ⟨flatten_eq_nil_of_tight (ht i), fun hnil => ?_⟩
    cases hc : cache.payloads i with
    | nil => rfl
    | cons v rest =>
      rw [hc, flatten_eq_nil_iff] at hnil
      exact hnil v mem_cons_self
  simp only [dumpedTuples, hkey, hfirst]
  by_cases hskip : ∃ i, (cache.payloads i).flatten = []
  · rw [if_pos hskip]
    refine ⟨by simp, fun _ => rfl, fun hall => ?_⟩
    obtain ⟨i, hi⟩ := hskip
    exact absurd hi (hall i)
  · rw [if_neg hskip]
    have hvalid (i : Fin n) : IndexValid (some 0) (cache.payloads i) := by
      refine ⟨ht i, length_pos_iff.mpr fun hnil => hskip ⟨i, by rw [hnil]; rfl⟩⟩
    obtain ⟨hkeys, hstored⟩ := dumpLoop_spec key (∑ i, (cache.payloads i).length + 1) hvalid (by simp [undumped])
    refine ⟨hkeys, fun h => absurd h hskip, fun _ i => ?_⟩
    rw [hstored i]
    simp [undumped]

end Dump

/-! ## The whole run -/

section Execute

variable {b : BuildState n} {s s' : State n} {w : Writes n} {ws : List (Writes n)} {k : InternalID}

/-- The payload vectors are empty and the cached vectors tight. -/
structure Ready (b : BuildState n) : Prop where
  vectors : ∀ i, b.vectors i = []
  tight : ∀ i, Tight (b.cache.payloads i)

/-- The build has cached `total` for the key, and the hash table holds `stored`. -/
structure Cached (b : BuildState n) (s : State n) (k : InternalID) (total : Fin n → List InternalID)
    (stored : List (SharedTuple n)) : Prop where
  ready : Ready b
  state : b.state = s
  key : b.cache.key = some k
  hashTable : b.hashTable = stored
  payloads : ∀ i, (b.cache.payloads i).flatten.Perm (total i)

theorem step_same {total : Fin n → List InternalID} {stored : List (SharedTuple n)}
    (h : Cached b s k total stored) (hk : s'.key = some k) :
    Cached (b.step s' w) s' k (fun i => total i ++ (w i).getD []) stored := by
  have hstep : b.step s' w = ⟨s', fun _ => [], cacheKeyPayloads b.cache.key
      (fun i => (w i).getD []) b.cache, b.hashTable⟩ := by
    rw [BuildState.step, if_neg (by rw [h.key, hk]; simp)]
    simp [h.ready.vectors]
  rw [hstep]
  have hfold (i : Fin n) := foldl_appendCached_spec (h.ready.tight i) ((w i).getD [])
  exact ⟨⟨fun _ => rfl, fun i => (hfold i).1⟩, rfl, h.key, h.hashTable,
    fun i => (hfold i).2.trans ((h.payloads i).append_right _)⟩

theorem step_new (h : Ready b) (hne : b.cache.key ≠ some k) (hk : s'.key = some k) :
    Cached (b.step s' w) s' k (fun i => (w i).getD []) (b.hashTable ++ dumpedTuples b.cache) := by
  have hstep : b.step s' w = ⟨s', fun _ => [], cacheKeyPayloads s'.key
      (fun i => (w i).getD []) b.cache.cleared, b.hashTable ++ dumpedTuples b.cache⟩ := by
    rw [BuildState.step, if_pos (by rw [hk]; exact .inr hne)]
    simp [h.vectors]
  rw [hstep]
  have hfold (i : Fin n) := foldl_appendCached_spec (tight_cleared (b.cache.payloads i)) ((w i).getD [])
  refine ⟨⟨fun _ => rfl, fun i => (hfold i).1⟩, rfl, hk, rfl, fun i => ?_⟩
  have := (hfold i).2
  rwa [flatten_cleared] at this

theorem execute_cons (h : getNextTuple pl pl.probes b.state = some (s', w)) (fuel : Nat) :
    executeInternal pl (fuel + 1) b = executeInternal pl fuel (b.step s' w) := by
  rw [executeInternal, h]

/-- Calls with the same key add to the cache. -/
theorem execute_pulls (h : Pulls pl pl.probes (fun t => t.key = some k) s ws s')
    {total : Fin n → List InternalID} {stored : List (SharedTuple n)} (hb : Cached b s k total stored) :
    ∃ b', (∀ fuel, executeInternal pl (fuel + ws.length) b = executeInternal pl fuel b') ∧
      Cached b' s' k (fun i => total i ++ collect i ws) stored := by
  induction h generalizing b total with
  | nil s => exact ⟨b, fun _ => rfl, by simpa [collect] using hb⟩
  | @cons s s₁ s₂ w ws hnext hP _ ih =>
    obtain ⟨b', hexec, hcached⟩ := ih (step_same (w := w) hb hP)
    refine ⟨b', fun fuel => ?_, ?_⟩
    · rw [length_cons, ← add_assoc, execute_cons (by rw [hb.state, hnext]), hexec]
    · simpa [collect] using hcached

/-- The calls for a new key first store what is cached. -/
theorem execute_bound (h : Pulls pl pl.probes (fun t => t.key = some k) s ws s') (hne : ws ≠ [])
    (hb : Ready b) (hs : b.state = s) (hk : b.cache.key ≠ some k) :
    ∃ b', (∀ fuel, executeInternal pl (fuel + ws.length) b = executeInternal pl fuel b') ∧
      Cached b' s' k (fun i => collect i ws) (b.hashTable ++ dumpedTuples b.cache) := by
  cases h with
  | nil => exact absurd rfl hne
  | @cons _ s₁ _ w ws hnext hP hrest =>
    obtain ⟨b', hexec, hcached⟩ := execute_pulls hrest (step_new (w := w) hb hk hP)
    refine ⟨b', fun fuel => ?_, hcached⟩
    rw [length_cons, ← add_assoc, execute_cons (by rw [hs, hnext]), hexec]

theorem getNextTuple_end {chain : List (Fin n)} (hidle : ∀ i ∈ chain, (s.probe i).Idle)
    (h : scanNext pl s = none) : getNextTuple pl chain s = none := by
  induction chain with
  | nil => exact h
  | cons i below ih =>
    obtain ⟨hi, hidle⟩ := forall_mem_cons.mp hidle
    rw [getNextTuple, if_neg (not_lt.mpr hi.1), if_pos (by rw [hi.2]; rfl), ih hidle]

/-- What is shipped for a bound node, in enough steps. -/
def Total (pl : Pipeline n) (bound : BoundNode n) (total : Fin n → List InternalID) : Prop :=
  ∃ m, (∀ i, (itemsOf (pl.flattenScans i) (bound.batches i)).length ≤ m) ∧
    total = shippedIn pl (fun i => itemsOf (pl.flattenScans i) (bound.batches i)) m

/-- The tuples are stored for the bound node. -/
def StoredFor (pl : Pipeline n) (bound : BoundNode n) (tuples : List (SharedTuple n)) : Prop :=
  ∃ total, Total pl bound total ∧ Stores bound.key total tuples

theorem Stores.perm {total total' : Fin n → List InternalID} {tuples : List (SharedTuple n)}
    (h : Stores k total tuples) (hperm : ∀ i, (total i).Perm (total' i)) : Stores k total' tuples := by
  have hnil (i : Fin n) : total i = [] ↔ total' i = [] := by
    constructor
    · intro h
      exact (h ▸ hperm i).nil_eq.symm
    · intro h
      exact (h ▸ hperm i).eq_nil
  refine ⟨h.1, fun ⟨i, hi⟩ => h.2.1 ⟨i, (hnil i).mpr hi⟩, fun hall i => ?_⟩
  exact (h.2.2 (fun i hi => hall i ((hnil i).mp hi)) i).trans (hperm i)

/-- From a boundary the run stores what is cached, and then the tuples of each bound node. -/
theorem execute_from (pl : Pipeline n) {child : List (BoundNode n)} (hb : Ready b) (hbound : Boundary pl b.state)
    (hfin : ∀ i, (b.state.scan i).stateFinished = true) (hchild : b.state.child = child)
    (hnd : (child.map (·.key)).Nodup) (hkey : ∀ bound ∈ child, b.cache.key ≠ some bound.key) :
    ∃ fuel tss, executeInternal pl fuel b = some (b.hashTable ++ dumpedTuples b.cache ++ tss.flatten) ∧
      List.Forall₂ (StoredFor pl) child tss := by
  induction child generalizing b with
  | nil =>
    have hend := getNextTuple_end hbound.idle (scanNext_nil pl hfin hchild)
    exact ⟨1, [], by rw [executeInternal, hend]; simp, .nil⟩
  | cons bound child ih =>
    obtain ⟨hfresh, hnd⟩ := nodup_cons.mp hnd
    obtain ⟨ws, s', hpulls, hne, hbound', hfin', hchild', m, hlen, hcollect⟩ := bound_run hbound hfin hchild
    obtain ⟨b', hexec, hcached⟩ := execute_bound hpulls hne hb rfl (hkey bound mem_cons_self)
    obtain ⟨fuel, tss, hrun, htss⟩ := ih hcached.ready (by rwa [hcached.state])
      (by rwa [hcached.state]) (by rw [hcached.state, hchild']) hnd (by
        intro other hother heq
        rw [hcached.key, Option.some.injEq] at heq
        exact hfresh (mem_map.mpr ⟨other, hother, heq.symm⟩))
    have hstores : StoredFor pl bound (dumpedTuples b'.cache) := by
      refine ⟨_, ⟨m, hlen, rfl⟩, ?_⟩
      refine (dumpedTuples_spec hcached.key hcached.ready.tight).perm fun i => ?_
      rw [← hcollect i]
      exact hcached.payloads i
    refine ⟨fuel + ws.length, dumpedTuples b'.cache :: tss, ?_, .cons hstores htss⟩
    rw [hexec, hrun, hcached.hashTable]
    simp

theorem execute_spec (pl : Pipeline n) {child : List (BoundNode n)} (hnd : (child.map (·.key)).Nodup) :
    ∃ fuel tss, executeInternal pl fuel (.init child) = some tss.flatten ∧ List.Forall₂ (StoredFor pl) child tss := by
  have hready : Ready (BuildState.init child) := ⟨fun _ => rfl, fun _ => pairwise_singleton _ _⟩
  obtain ⟨fuel, tss, hrun, htss⟩ := execute_from pl hready
    ⟨fun _ => ScanPath.valid_init, fun _ _ => ⟨le_rfl, rfl⟩⟩ (fun _ => rfl) rfl hnd
    (by simp [BuildState.init, Cache.init])
  refine ⟨fuel, tss, hrun.trans ?_, htss⟩
  simp [BuildState.init, Cache.init, dumpedTuples]

end Execute

end SharedBuild
end CycleJoin
