import CycleJoin.Processor.SharedBuild.Basic

/-!
# Pulling from the shared scan

What one step of the shared scan makes the chain of probes ship.

* `ScanPath.advance_spec`: a scan goes through its items, one for each step: the neighbours of a path
  of two hops one by one, the batches of a path of one hop.
* `emissions`: what one probe ships for a key. `flatten_emissions`: all end nodes of the key.
  `length_emissions_eq_one_iff`: once if the key has at most one tuple.
* `chain_step`: a step of the scan makes the chain ship `chainWrites`. A probe ships all its matches
  again for each call of the probe below that ships something.
-/

namespace CycleJoin

open List Function
namespace SharedBuild

variable {n : Nat}

/-! ## The items of a scan -/

/-- What the scan of a path hands out step by step. -/
def itemsOf (flatten : Bool) (batches : List (List InternalID)) : List (List InternalID) :=
  if flatten then batches.flatten.map fun x => [x] else batches.filter (·.length > 0)

theorem scanBatch_none {pending : List (List InternalID)} (h : scanBatch pending = none)
    (flatten : Bool) : itemsOf flatten pending = [] := by
  induction pending with
  | nil => cases flatten <;> rfl
  | cons batch pending ih =>
    rw [scanBatch] at h
    split at h
    · cases h
    · have hnil : batch = [] := length_eq_zero_iff.mp (by omega)
      subst hnil
      simpa [itemsOf] using ih h

theorem scanBatch_some {pending rest : List (List InternalID)} {batch : List InternalID}
    (h : scanBatch pending = some (batch, rest)) :
    batch ≠ [] ∧ pending.flatten = batch ++ rest.flatten ∧ itemsOf false pending = batch :: itemsOf false rest := by
  induction pending with
  | nil => cases h
  | cons first pending ih =>
    rw [scanBatch] at h
    split at h
    · rename_i hlen
      cases h
      refine ⟨fun hnil => ?_, rfl, ?_⟩
      · rw [hnil] at hlen
        simp at hlen
      · simp [itemsOf, hlen]
    · have hnil : first = [] := length_eq_zero_iff.mp (by omega)
      subst hnil
      simpa [itemsOf] using ih h

namespace ScanPath

variable {p : ScanPath} {flatten : Bool}

/-- The rest of the batch that a flat scan goes through. -/
def restOfBatch (p : ScanPath) : List InternalID :=
  if p.flattenScanIndex + 1 < p.flattenScanSize then p.batch.drop (p.flattenScanIndex + 1) else []

/-- What the scan has still to hand out. -/
def items (flatten : Bool) (p : ScanPath) : List (List InternalID) :=
  if p.stateFinished then []
  else if flatten then (p.restOfBatch ++ p.pending.flatten).map fun x => [x]
  else itemsOf false p.pending

/-- The sizes fit the batch. Only a flat scan is ever inside a batch, and not when it is finished. -/
structure Valid (flatten : Bool) (p : ScanPath) : Prop where
  size : p.flattenScanIndex + 1 < p.flattenScanSize →
    flatten = true ∧ p.flattenScanSize = p.batch.length
  finished : p.stateFinished = true → ¬ p.flattenScanIndex + 1 < p.flattenScanSize

theorem valid_init : init.Valid flatten := ⟨by simp [init], by simp [init]⟩

theorem Valid.initScanState (h : p.Valid flatten) (hfin : p.stateFinished = true) (batches : List (List InternalID)) :
    (p.initScanState batches).Valid flatten ∧ (p.initScanState batches).items flatten = itemsOf flatten batches := by
  refine ⟨⟨h.size, by simp [ScanPath.initScanState]⟩, ?_⟩
  cases flatten <;> simp [items, ScanPath.initScanState, restOfBatch, h.finished hfin, itemsOf]

/-- The scan has handed out the first of the items, if there is one. -/
def Advanced (flatten : Bool) (items : List (List InternalID)) (p : ScanPath) : Prop :=
  p.Valid flatten ∧ p.sel = items.headD [] ∧ p.items flatten = items.tail ∧
    (p.stateFinished = true ↔ items = [])

theorem advance_spec (h : p.Valid flatten) : Advanced flatten (p.items flatten) (p.advance flatten) := by
  unfold advance
  split
  · rename_i hfin
    refine ⟨⟨h.size, h.finished⟩, ?_⟩
    simp [items, hfin]
  rename_i hfin
  cases flatten with
  | false =>
    have hout : ¬ p.flattenScanIndex + 1 < p.flattenScanSize := fun hlt => by
      simpa using (h.size hlt).1
    simp only [Bool.false_eq_true, if_false]
    split
    · rename_i batch rest hscan
      obtain ⟨hne, -, hitems⟩ := scanBatch_some hscan
      refine ⟨⟨h.size, fun hf => absurd hf hfin⟩, ?_⟩
      simp [items, hfin, hitems]
    · rename_i hscan
      have hnil := scanBatch_none hscan false
      refine ⟨⟨h.size, fun _ => hout⟩, ?_⟩
      simp [items, hnil]
  | true =>
    simp only [if_true]
    split
    · -- the next neighbour of the batch
      rename_i hlt
      obtain ⟨-, hsize⟩ := h.size hlt
      have hdrop : p.batch.drop (p.flattenScanIndex + 1) =
          p.batch[p.flattenScanIndex + 1] :: p.batch.drop (p.flattenScanIndex + 1 + 1) :=
        drop_eq_getElem_cons (by omega)
      have hrest : (if p.flattenScanIndex + 1 + 1 < p.flattenScanSize then
          p.batch.drop (p.flattenScanIndex + 1 + 1) else []) = p.batch.drop (p.flattenScanIndex + 1 + 1) := by
        split
        · rfl
        · rw [drop_eq_nil_of_le (by omega)]
      have hitems : p.items true = [p.batch[p.flattenScanIndex + 1]] ::
          (p.batch.drop (p.flattenScanIndex + 1 + 1) ++ p.pending.flatten).map fun x => [x] := by
        rw [items, if_neg hfin, restOfBatch, if_pos hlt, hdrop]
        rfl
      rw [hitems]
      refine ⟨⟨fun _ => ⟨rfl, hsize⟩, fun hf => absurd hf hfin⟩, ?_, ?_, ?_⟩
      · rw [getElem?_eq_getElem (by omega)]
        rfl
      · simp only [items, restOfBatch, hfin, hrest]
        rfl
      · simp [hfin]
    · rename_i hlt
      split
      · -- the first neighbour of the next batch
        rename_i batch rest hscan
        obtain ⟨hne, hflat, -⟩ := scanBatch_some hscan
        obtain ⟨x, batch, rfl⟩ := exists_cons_of_ne_nil hne
        have hrest : (if 0 + 1 < (x :: batch).length then (x :: batch).drop (0 + 1) else []) =
            batch := by
          cases batch <;> simp
        refine ⟨⟨fun _ => ⟨rfl, rfl⟩, by simp⟩, ?_⟩
        simp only [items, restOfBatch, hfin, hlt, hflat, hrest]
        simp
      · rename_i hscan
        have hnil := scanBatch_none hscan true
        refine ⟨⟨by simp, by simp⟩, ?_⟩
        simp only [itemsOf, if_true] at hnil
        simp [items, restOfBatch, hlt, hnil]

end ScanPath

/-! ## What a probe ships for a key -/

section Emissions

variable {key : InternalID} {chain : List (HTTuple (List InternalID))}

theorem matchFlatKeys_spec (key : InternalID) (room : Nat) (chain : List (HTTuple (List InternalID))) :
    (matchFlatKeys key room chain).1 ++ (matchFlatKeys key room chain).2.filter (·.key = key) =
      chain.filter (·.key = key) ∧
    (matchFlatKeys key room chain).1.length ≤ room ∧
    ((matchFlatKeys key room chain).2 ≠ [] → (matchFlatKeys key room chain).1.length = room) ∧
    (matchFlatKeys key room chain).1.length + (matchFlatKeys key room chain).2.length ≤ chain.length := by
  fun_induction matchFlatKeys key room chain with
  | case1 => simp
  | case2 => simp
  | case3 room tuple chain hkey matched rest heq ih =>
    rw [heq] at ih
    obtain ⟨hsplit, hle, hfull, hlen⟩ := ih
    refine ⟨?_, ?_, fun hne => ?_, ?_⟩
    · rw [filter_cons_of_pos (by simpa using hkey), ← hsplit]
      rfl
    · simpa using hle
    · simpa using hfull hne
    · simp only [length_cons] at hlen ⊢
      omega
  | case4 room tuple chain hkey ih =>
    obtain ⟨hsplit, hle, hfull, hlen⟩ := ih
    refine ⟨?_, hle, hfull, ?_⟩
    · rw [filter_cons_of_neg (by simpa using hkey), ← hsplit]
    · rw [length_cons]
      omega

/-- The rest of a chain is shorter when there is room for a match. -/
theorem length_rest_lt (key : InternalID) {room : Nat} (hroom : 0 < room)
    (chain : List (HTTuple (List InternalID))) (hne : (matchFlatKeys key room chain).2 ≠ []) :
    (matchFlatKeys key room chain).2.length < chain.length := by
  obtain ⟨-, -, hfull, hlen⟩ := matchFlatKeys_spec key room chain
  have := hfull hne
  omega

/-- The payload vectors of the matches of one call of `matchFlatKeys`. Without a match the probe
ships an empty vector. -/
def shipped (matched : List (HTTuple (List InternalID))) : List (List InternalID) :=
  if matched = [] then [[]] else matched.map (·.payload)

/-- What a probe ships for a key that leads to the chain. -/
def emissions (key : InternalID) (chain : List (HTTuple (List InternalID))) : List (List InternalID) :=
  if _h : (matchFlatKeys key defaultVectorCapacity chain).2 = [] then
    shipped (matchFlatKeys key defaultVectorCapacity chain).1
  else
    shipped (matchFlatKeys key defaultVectorCapacity chain).1 ++
      emissions key (matchFlatKeys key defaultVectorCapacity chain).2
  termination_by chain.length
  decreasing_by exact length_rest_lt key (by decide) chain ‹_›

theorem shipped_ne_nil (matched : List (HTTuple (List InternalID))) : shipped matched ≠ [] := by
  unfold shipped
  split
  · simp
  · simpa

theorem flatten_shipped (matched : List (HTTuple (List InternalID))) :
    (shipped matched).flatten = matched.flatMap (·.payload) := by
  unfold shipped
  split
  · rename_i h
    simp [h]
  · rw [flatMap_def]

section
variable (key : InternalID) (chain : List (HTTuple (List InternalID)))

theorem emissions_ne_nil : emissions key chain ≠ [] := by
  rw [emissions]
  split
  · exact shipped_ne_nil _
  · simp [shipped_ne_nil]

theorem flatten_emissions : (emissions key chain).flatten = (chain.filter (·.key = key)).flatMap (·.payload) := by
  fun_induction emissions key chain with
  | case1 chain h =>
    obtain ⟨hsplit, -⟩ := matchFlatKeys_spec key defaultVectorCapacity chain
    rw [flatten_shipped, ← hsplit, h, filter_nil, append_nil]
  | case2 chain h ih =>
    obtain ⟨hsplit, -⟩ := matchFlatKeys_spec key defaultVectorCapacity chain
    rw [flatten_append, flatten_shipped, ih, ← hsplit, flatMap_append]

/-- A probe ships at most once if the key has at most one tuple. -/
theorem length_emissions_eq_one_iff : (emissions key chain).length = 1 ↔ (chain.filter (·.key = key)).length ≤ 1 := by
  obtain ⟨hsplit, hle, hfull, -⟩ := matchFlatKeys_spec key defaultVectorCapacity chain
  rw [emissions, ← hsplit]
  split
  · rename_i h
    rw [h, filter_nil, append_nil, shipped]
    split
    · rename_i hnil
      simp [hnil]
    · rename_i hne
      have := length_pos_iff.mpr hne
      rw [length_map]
      omega
  · rename_i h
    have hcap := hfull h
    have htwo : 2 ≤ (matchFlatKeys key defaultVectorCapacity chain).1.length := by
      rw [hcap]
      decide
    have hship : (shipped (matchFlatKeys key defaultVectorCapacity chain).1).length =
        (matchFlatKeys key defaultVectorCapacity chain).1.length := by
      rw [shipped, if_neg (by rintro hnil; simp [hnil] at htwo), length_map]
    rw [length_append, length_append]
    omega

end

/-- What the probe of a path ships for the neighbour that the scan has left. -/
def probeEmissions (ht : JoinHashTable (List InternalID)) (sel : List InternalID) :
    List (List InternalID) :=
  match sel with
  | key :: _ => emissions key (probe ht sel)
  | [] => [[]]

theorem probe_cons (ht : JoinHashTable (List InternalID)) (key : InternalID) (sel : List InternalID) :
    (probe ht (key :: sel)).filter (·.key = key) = (ht.tuplesOf key).reverse := by
  unfold probe
  split
  · rename_i h
    have hnil : ht.tuples = [] := length_eq_zero_iff.mp h
    simp [JoinHashTable.tuplesOf, hnil]
  · exact ht.filter_getTupleForHash key

end Emissions

/-! ## Sequences of calls -/

section Pulls

variable {pl : Pipeline n} {P : State n → Prop} {chain below : List (Fin n)} {i j : Fin n}
  {s s₁ s₂ s₃ : State n} {w : Writes n} {ws ws' : List (Writes n)} {p : ProbeState}

/-- Calls of the top operator of a chain that write `ws`; the state after each call has `P`. -/
inductive Pulls (pl : Pipeline n) (chain : List (Fin n)) (P : State n → Prop) :
    State n → List (Writes n) → State n → Prop where
  | nil (s : State n) : Pulls pl chain P s [] s
  | cons {s s₁ s₂ : State n} {w : Writes n} {ws : List (Writes n)}
      (h : getNextTuple pl chain s = some (s₁, w)) (hP : P s₁) (hs : Pulls pl chain P s₁ ws s₂) :
      Pulls pl chain P s (w :: ws) s₂

theorem Pulls.append (h : Pulls pl chain P s ws s₁) (h' : Pulls pl chain P s₁ ws' s₂) :
    Pulls pl chain P s (ws ++ ws') s₂ := by
  induction h with
  | nil => exact h'
  | cons hnext hP _ ih => exact .cons hnext hP (ih h')

theorem Pulls.mono {P' : State n → Prop} (h : Pulls pl chain P s ws s₁) (hP : ∀ s, P s → P' s) :
    Pulls pl chain P' s ws s₁ := by
  induction h with
  | nil => exact .nil _
  | cons hnext hPs _ ih => exact .cons hnext (hP _ hPs) ih

/-- The state with another probe of path `i`. -/
def State.setProbe (s : State n) (i : Fin n) (p : ProbeState) : State n :=
  { s with probe := update s.probe i p }

@[simp] theorem setProbe_setProbe (s : State n) (i : Fin n) (p p' : ProbeState) :
    (s.setProbe i p).setProbe i p' = s.setProbe i p' := by
  simp [State.setProbe]

theorem setProbe_comm (s : State n) {i j : Fin n} (hne : i ≠ j) (p p' : ProbeState) :
    (s.setProbe i p).setProbe j p' = (s.setProbe j p').setProbe i p := by
  simp only [State.setProbe, State.mk.injEq, true_and]
  exact update_comm hne p p' s.probe

@[simp] theorem probe_setProbe_self : (s.setProbe i p).probe i = p := by simp [State.setProbe]

theorem probe_setProbe_ne (hne : j ≠ i) : (s.setProbe i p).probe j = s.probe j := by
  simp [State.setProbe, hne]

@[simp] theorem scan_setProbe : (s.setProbe i p).scan = s.scan := rfl

@[simp] theorem key_setProbe : (s.setProbe i p).key = s.key := rfl

@[simp] theorem child_setProbe : (s.setProbe i p).child = s.child := rfl

theorem ship_eq (i : Fin n) (s : State n) (w : Writes n) : ship i s w = (s.setProbe i (s.probe i).getJoinResult.1,
      update w i (some (s.probe i).getJoinResult.2)) := rfl

theorem matchAndShip_eq (i : Fin n) (s : State n) (w : Writes n) : matchAndShip i s w =
      (s.setProbe i ((s.probe i).matchKeys (s.scan i).sel).getJoinResult.1,
        update w i (some ((s.probe i).matchKeys (s.scan i).sel).getJoinResult.2)) := by
  rw [matchAndShip, ship_eq]
  simp [State.setProbe]

theorem lookUp_eq (i : Fin n) (s : State n) : lookUp pl i s =
    s.setProbe i { s.probe i with probedTuples := probe (pl.hashTable i) (s.scan i).sel } := rfl

/-- The state after a step of the scan. -/
def State.advance (pl : Pipeline n) (s : State n) : State n :=
  { s with scan := fun i => (s.scan i).advance (pl.flattenScans i) }

/-- The state with the next bound node. -/
def State.bind (s : State n) (bound : BoundNode n) (child : List (BoundNode n)) : State n :=
  ⟨child, some bound.key, fun i => (s.scan i).initScanState (bound.batches i), s.probe⟩

theorem scanNext_nil (pl : Pipeline n) (h : ∀ i, (s.scan i).stateFinished = true) (hc : s.child = []) :
    scanNext pl s = none := by
  rw [scanNext, if_pos h, hc]

theorem scanNext_cons {bound : BoundNode n} {child : List (BoundNode n)}
    (h : ∀ i, (s.scan i).stateFinished = true) (hc : s.child = bound :: child) :
    scanNext pl s = some ((s.bind bound child).advance pl, scanWrites pl ((s.bind bound child).advance pl)) := by
  rw [scanNext, if_pos h, hc]
  rfl

theorem scanNext_step (h : ¬ ∀ i, (s.scan i).stateFinished = true) :
    scanNext pl s = some (s.advance pl, scanWrites pl (s.advance pl)) := by
  rw [scanNext, if_neg h]
  rfl

theorem scanNext_setProbe (s : State n) (i : Fin n) (p : ProbeState) :
    scanNext pl (s.setProbe i p) = (scanNext pl s).map fun (s, w) => (s.setProbe i p, w) := by
  by_cases h : ∀ i, (s.scan i).stateFinished = true
  · cases hc : s.child with
    | nil => rw [scanNext_nil pl h hc, scanNext_nil pl (s := s.setProbe i p) h hc]; rfl
    | cons bound child =>
      rw [scanNext_cons h hc, scanNext_cons (s := s.setProbe i p) h hc]
      rfl
  · rw [scanNext_step h, scanNext_step (s := s.setProbe i p) h]
    rfl

/-- A chain of probes neither reads nor changes the probe of a path above it. -/
theorem getNextTuple_setProbe (pl : Pipeline n) (hi : i ∉ chain) (s : State n) (p : ProbeState) :
    getNextTuple pl chain (s.setProbe i p) = (getNextTuple pl chain s).map fun (s, w) => (s.setProbe i p, w) := by
  induction chain generalizing s with
  | nil => exact scanNext_setProbe s i p
  | cons j below ih =>
    obtain ⟨hne, hi⟩ : i ≠ j ∧ i ∉ below := by simpa using hi
    have hj : (s.setProbe i p).probe j = s.probe j := probe_setProbe_ne (Ne.symm hne)
    simp only [getNextTuple, hj, ship_eq, matchAndShip_eq, lookUp_eq, scan_setProbe]
    split
    · rw [Option.map_some, setProbe_comm s hne]
    split
    · rw [ih hi]
      cases getNextTuple pl below s with
      | none => rfl
      | some r => simp [probe_setProbe_ne (Ne.symm hne), setProbe_comm _ hne]
    · rw [Option.map_some, setProbe_comm s hne]

/-! ## A step of the scan -/

/-- The probe has shipped all matches of its key. -/
def ProbeState.Idle (p : ProbeState) : Prop :=
  p.matchedTuples.length ≤ p.nextMatchedTupleIdx ∧ p.probedTuples = []

/-- The scan is in the same state. -/
def SameScan (t s : State n) : Prop := s.scan = t.scan ∧ s.key = t.key ∧ s.child = t.child

/-- A call that writes the payload vector of path `i` only. -/
def only (i : Fin n) (out : List InternalID) : Writes n :=
  update (fun _ => none) i (some out)

variable {t : State n}

theorem pulls_matched (pl : Pipeline n) (i : Fin n) (below : List (Fin n)) (hs : SameScan t s) (k : Nat)
    (hk : (s.probe i).nextMatchedTupleIdx + k = (s.probe i).matchedTuples.length) :
    Pulls pl (i :: below) (SameScan t) s
      (((s.probe i).matchedTuples.drop (s.probe i).nextMatchedTupleIdx).map fun tuple =>
        only i tuple.payload)
      (s.setProbe i ⟨(s.probe i).probedTuples, (s.probe i).matchedTuples, (s.probe i).matchedTuples.length⟩) := by
  induction k generalizing s with
  | zero =>
    rw [drop_eq_nil_of_le (by omega), ← hk]
    have hself : s.setProbe i ⟨(s.probe i).probedTuples, (s.probe i).matchedTuples,
        (s.probe i).nextMatchedTupleIdx + 0⟩ = s := by
      simp [State.setProbe]
    rw [hself]
    exact .nil s
  | succ k ih =>
    have hlt : (s.probe i).nextMatchedTupleIdx < (s.probe i).matchedTuples.length := by omega
    have hnext : getNextTuple pl (i :: below) s = some (s.setProbe i ⟨(s.probe i).probedTuples,
        (s.probe i).matchedTuples, (s.probe i).nextMatchedTupleIdx + 1⟩,
          only i (s.probe i).matchedTuples[(s.probe i).nextMatchedTupleIdx].payload) := by
      rw [getNextTuple, if_pos hlt, ship_eq]
      simp only [ProbeState.getJoinResult, getElem?_eq_getElem hlt]
      rfl
    rw [drop_eq_getElem_cons hlt]
    refine .cons hnext hs ?_
    have h := ih (s := s.setProbe i ⟨(s.probe i).probedTuples, (s.probe i).matchedTuples,
      (s.probe i).nextMatchedTupleIdx + 1⟩) hs (by simp only [probe_setProbe_self]; omega)
    simpa only [probe_setProbe_self, setProbe_setProbe] using h

variable {rest : List InternalID} {key : InternalID}

theorem matchAndShip_nil
    {chain : List (HTTuple (List InternalID))} (hsel : (s.scan i).sel = key :: rest)
    (hm : matchFlatKeys key defaultVectorCapacity (s.probe i).probedTuples = ([], chain))
    (w : Writes n) : matchAndShip i s w = (s.setProbe i ⟨chain, [], 0⟩, update w i (some [])) := by
  rw [matchAndShip_eq, hsel]
  simp only [ProbeState.matchKeys, hm]
  rfl

theorem matchAndShip_cons
    {tuple : HTTuple (List InternalID)} {matched chain : List (HTTuple (List InternalID))}
    (hsel : (s.scan i).sel = key :: rest)
    (hm : matchFlatKeys key defaultVectorCapacity (s.probe i).probedTuples =
      (tuple :: matched, chain)) (w : Writes n) : matchAndShip i s w =
      (s.setProbe i ⟨chain, tuple :: matched, 1⟩, update w i (some tuple.payload)) := by
  rw [matchAndShip_eq, hsel]
  simp only [ProbeState.matchKeys, hm]
  rfl

theorem pulls_rest (pl : Pipeline n) (i : Fin n) (below : List (Fin n))
    (hs : SameScan t s) (tuple : HTTuple (List InternalID))
    (matched chain : List (HTTuple (List InternalID))) :
    Pulls pl (i :: below) (SameScan t) (s.setProbe i ⟨chain, tuple :: matched, 1⟩)
      ((matched.map (·.payload)).map (only i))
      (s.setProbe i ⟨chain, tuple :: matched, matched.length + 1⟩) := by
  have hs' : SameScan t (s.setProbe i ⟨chain, tuple :: matched, 1⟩) := hs
  have h := pulls_matched pl i below hs' matched.length (by simp [Nat.add_comm])
  simpa [comp_def] using h

/-- After a look-up the probe of path `i` ships the emissions of its key. The first one comes with
what the call of the probe below wrote. -/
theorem drain (pl : Pipeline n) (below : List (Fin n)) (hs : SameScan t s)
    (hsel : (s.scan i).sel = key :: rest) (chain : List (HTTuple (List InternalID)))
    (hchain : (s.probe i).probedTuples = chain) (w : Writes n) :
    ∃ out outs p s₁, emissions key chain = out :: outs ∧ p.Idle ∧
      matchAndShip i s w = (s₁, update w i (some out)) ∧ SameScan t s₁ ∧
      Pulls pl (i :: below) (SameScan t) s₁ (outs.map (only i)) (s.setProbe i p) := by
  induction hlen : chain.length using Nat.strongRecOn generalizing s w chain with
  | _ len ih =>
    obtain ⟨-, -, hfull, -⟩ := matchFlatKeys_spec key defaultVectorCapacity chain
    have hshort := length_rest_lt key (by decide : 0 < defaultVectorCapacity) chain
    rw [emissions]
    rcases hm : matchFlatKeys key defaultVectorCapacity chain with ⟨matched, chain'⟩
    rw [← hchain] at hm
    simp only [hchain ▸ hm] at hfull hshort ⊢
    cases matched with
    | nil =>
      -- nothing matches, so the whole chain has been walked
      have hnil : chain' = [] := by
        by_contra hne
        exact absurd (hfull hne) (by decide)
      subst hnil
      exact ⟨[], [], ⟨[], [], 0⟩, _, rfl, ⟨le_rfl, rfl⟩, matchAndShip_nil hsel hm w, hs, .nil _⟩
    | cons tuple matched =>
      have hrest := pulls_rest pl i below hs tuple matched chain'
      have hfirst := matchAndShip_cons hsel hm w
      by_cases hnil : chain' = []
      · subst hnil
        refine ⟨tuple.payload, matched.map (·.payload), ⟨[], tuple :: matched, matched.length + 1⟩, _,
          ?_, ⟨le_rfl, rfl⟩, hfirst, hs, hrest⟩
        simp [shipped]
      · -- the chain goes on after a full batch of matches
        have hs' : SameScan t (s.setProbe i ⟨chain', tuple :: matched, matched.length + 1⟩) := hs
        obtain ⟨out, outs, p, s₁, hem, hidle, hship, hs₁, hpulls⟩ :=
          ih chain'.length (by rw [← hlen]; exact hshort hnil) hs' hsel chain' (by simp) (fun _ => none) rfl
        refine ⟨tuple.payload, matched.map (·.payload) ++ out :: outs, p, _, ?_, hidle, hfirst, hs, ?_⟩
        · simp [shipped, hnil, hem]
        · rw [map_append]
          refine hrest.append (.cons ?_ hs₁ (by simpa using hpulls))
          rw [getNextTuple, if_neg (by simp), if_neg (by simpa using hnil)]
          exact congrArg some hship

/-- The calls of a probe on top of a call that writes `w`. -/
def expand (i : Fin n) (outs : List (List InternalID)) (w : Writes n) : List (Writes n) :=
  match outs with
  | [] => []
  | out :: outs => update w i (some out) :: outs.map (only i)

/-- What the probe of path `i` ships, by the selection of its scan. -/
def outsOf (pl : Pipeline n) (sel : Fin n → List InternalID) (i : Fin n) : List (List InternalID) :=
  probeEmissions (pl.hashTable i) (sel i)

/-- An idle probe on a call of the probe below: it looks up the key and ships its emissions. -/
theorem expand_pulls (hi : i ∉ below) (hidle : p.Idle)
    (h : getNextTuple pl below s = some (s₁, w)) (hs : SameScan t s₁) :
    ∃ p' : ProbeState, p'.Idle ∧ Pulls pl (i :: below) (SameScan t) (s.setProbe i p)
      (expand i (outsOf pl (fun i => (t.scan i).sel) i) w) (s₁.setProbe i p') := by
  have hpull : getNextTuple pl (i :: below) (s.setProbe i p) =
      some (matchAndShip i (lookUp pl i (s₁.setProbe i p)) w) := by
    rw [getNextTuple, if_neg (by rw [probe_setProbe_self]; exact not_lt.mpr hidle.1),
      if_pos (by rw [probe_setProbe_self, hidle.2]; rfl), getNextTuple_setProbe pl hi, h]
    rfl
  have hlook : lookUp pl i (s₁.setProbe i p) =
      s₁.setProbe i { p with probedTuples := probe (pl.hashTable i) (s₁.scan i).sel } := by
    rw [lookUp_eq]
    simp
  rw [hlook] at hpull
  have hscan : (t.scan i).sel = (s₁.scan i).sel := by rw [hs.1]
  simp only [outsOf, hscan]
  cases hsel : (s₁.scan i).sel with
  | nil =>
    -- no neighbour: the chain is empty
    have hprobe : probe (pl.hashTable i) [] = [] := by simp [probe]
    have hs' : SameScan t (s₁.setProbe i ⟨[], [], 0⟩) := hs
    refine ⟨⟨[], [], 0⟩, ⟨le_rfl, rfl⟩, .cons (hpull.trans ?_) hs' (.nil _)⟩
    rw [matchAndShip_eq]
    simp [hsel, hprobe, ProbeState.matchKeys, ProbeState.getJoinResult]
  | cons key rest =>
    have hs' : SameScan t (s₁.setProbe i { p with probedTuples := probe (pl.hashTable i) (s₁.scan i).sel }) := hs
    obtain ⟨out, outs, p', s₂, hem, hidle', hship, hs₂, hpulls⟩ :=
      drain pl below hs' hsel _ (by rw [probe_setProbe_self]) w
    rw [hsel] at hem
    refine ⟨p', hidle', ?_⟩
    rw [probeEmissions, hem]
    exact .cons (by rw [hpull, hship]) hs₂ (by simpa using hpulls)

/-- An idle probe on several calls of the probe below. -/
theorem lift_pulls (hi : i ∉ below) (h : Pulls pl below (SameScan t) s ws s₁) (hidle : p.Idle) :
    ∃ p' : ProbeState, p'.Idle ∧ Pulls pl (i :: below) (SameScan t) (s.setProbe i p)
      (ws.flatMap (expand i (outsOf pl (fun i => (t.scan i).sel) i))) (s₁.setProbe i p') := by
  induction h generalizing p with
  | nil s => exact ⟨p, hidle, .nil _⟩
  | cons hnext hP _ ih =>
    obtain ⟨p₁, hidle₁, hfirst⟩ := expand_pulls hi hidle hnext hP
    obtain ⟨p', hidle', hrest⟩ := ih hidle₁
    exact ⟨p', hidle', hfirst.append hrest⟩

/-- All that a chain ships for one step of the scan. -/
def chainWrites (pl : Pipeline n) (sel : Fin n → List InternalID) (w : Writes n) :
    List (Fin n) → List (Writes n)
  | [] => [w]
  | i :: below => (chainWrites pl sel w below).flatMap (expand i (outsOf pl sel i))

theorem chain_step (hnd : chain.Nodup) (hidle : ∀ i ∈ chain, (s.probe i).Idle) (h : scanNext pl s = some (s₁, w)) :
    ∃ s₂, Pulls pl chain (SameScan s₁) s (chainWrites pl (fun i => (s₁.scan i).sel) w chain) s₂ ∧
      SameScan s₁ s₂ ∧ (∀ i ∈ chain, (s₂.probe i).Idle) ∧ ∀ i ∉ chain, s₂.probe i = s₁.probe i := by
  induction chain with
  | nil => exact ⟨s₁, .cons h ⟨rfl, rfl, rfl⟩ (.nil _), ⟨rfl, rfl, rfl⟩, by simp, by simp⟩
  | cons i below ih =>
    obtain ⟨hi, hnd⟩ := nodup_cons.mp hnd
    obtain ⟨hidle_i, hidle⟩ := forall_mem_cons.mp hidle
    obtain ⟨s₂, hpulls, hsame, hidle₂, hother⟩ := ih hnd hidle
    obtain ⟨p', hidle', hlift⟩ := lift_pulls hi hpulls hidle_i
    have hself : s.setProbe i (s.probe i) = s := by simp [State.setProbe]
    rw [hself] at hlift
    refine ⟨s₂.setProbe i p', hlift, hsame, forall_mem_cons.mpr ⟨by simpa using hidle', ?_⟩, ?_⟩
    · intro j hj
      rw [probe_setProbe_ne (by rintro rfl; exact hi hj)]
      exact hidle₂ j hj
    · intro j hj
      obtain ⟨hne, hj⟩ : j ≠ i ∧ j ∉ below := by simpa using hj
      rw [probe_setProbe_ne hne]
      exact hother j hj

end Pulls

end SharedBuild
end CycleJoin
