import CycleJoin.Common.SelectionVector
import CycleJoin.Processor.SharedBuild.Pull

/-!
# The selections of the shared scan

`SharedScanRelTable::getNextTuplesInternal` with the selection vectors that it reads and overwrites
(`processor/operator/scan/shared_scan_rel_table.cpp`, `common/data_chunk/sel_vector.h`). A flat scan
keeps the positions of its batch in the buffer of the selection vector and moves the next one to the
front. `ScanPath` of the shared build leaves the buffer out; `ScanState.advance_refines` connects the
two.

* `ScanState.advance_spec`: a step of a scan presents its next item.
* `getNextTuples_calls`: all calls of a run.

`α` is a row of the out vectors of a scan: the neighbour, the rel and the properties.
-/

namespace CycleJoin

open List SelectionVector

namespace SharedBuild

variable {n : Nat} {α : Type}

/-! ## One scan -/

/-- What a call of `table->scan` leaves in the out vectors and in their selection. -/
structure Batch (α : Type) where
  values : Nat → α
  selVector : SelectionVector

/-- The selected rows of a batch. -/
def Batch.rows (batch : Batch α) : List α := batch.selVector.getSelectedPositions.map batch.values

/-- The state of one scan. -/
structure ScanState (α : Type) where
  /-- What `table->scan` has still to return. -/
  pending : List (Batch α)
  outVector : Nat → α
  selVector : SelectionVector
  /-- `outState->isFlat()`. -/
  isFlat : Bool
  stateFinished : Bool
  flattenScanIndex : Nat
  flattenScanSize : Nat

namespace ScanState

variable (s : ScanState α) (flatten : Bool)

/-- The selected rows of the out vectors. -/
def presented : List α := s.selVector.getSelectedPositions.map s.outVector

/-- The `while` loop that scans for a batch that is not empty. -/
def scanLoop : List (Batch α) → ScanState α → Bool × ScanState α
  | [], s => (false, { s with pending := [] })
  | batch :: pending, s =>
    let s := { s with pending := pending, outVector := batch.values, selVector := batch.selVector }
    if s.selVector.selectedSize > 0 then (true, s) else scanLoop pending s

/-- The branch of a flat scan. -/
def nextFlat : ScanState α :=
  if s.flattenScanIndex + 1 < s.flattenScanSize then
    let index := s.flattenScanIndex + 1
    let s := { s with
      flattenScanIndex := index
      selVector := s.selVector.set 0 (s.selVector.get index) }
    if index + 1 ≤ s.flattenScanSize then { s with stateFinished := false }
    else { s with isFlat := false }
  else
    -- The batch has been finished: scan for the next one.
    match scanLoop s.pending s with
    | (true, s) =>
      let size := s.selVector.selectedSize
      let selVector := if s.selVector.isStatic then s.selVector.setRange 0 size else s.selVector
      { s with
        stateFinished := false
        flattenScanSize := size
        flattenScanIndex := 0
        selVector := selVector.setToFiltered 1
        isFlat := true }
    | (false, s) =>
      { s with flattenScanSize := 0, flattenScanIndex := 0, selVector := s.selVector.setSelSize 0 }

/-- The branch of a scan that is not flat. -/
def nextBatch : ScanState α :=
  match scanLoop s.pending s with
  | (true, s) => { s with stateFinished := false }
  | (false, s) => s

/-- The body of the loop of `getNextTuplesInternal` over the scans. -/
def advance : ScanState α :=
  if s.stateFinished then { s with selVector := s.selVector.setSelSize 0 }
  else
    let s := { s with stateFinished := true }
    let s := if flatten then s.nextFlat else s.nextBatch
    if s.stateFinished then { s with selVector := s.selVector.setSelSize 0 } else s

/-- `table->initScanState`. -/
def initScanState (batches : List (Batch α)) : ScanState α :=
  { s with pending := batches, stateFinished := false }

/-- The scan is at a position of a batch that is not the last one. -/
def Inside : Prop := s.flattenScanIndex + 1 < s.flattenScanSize

instance : Decidable s.Inside := inferInstanceAs (Decidable (_ < _))

/-- The rows at the positions of the batch that the scan has still to go through. -/
def restOfBatch : List α :=
  (range' (s.flattenScanIndex + 1) (s.flattenScanSize - (s.flattenScanIndex + 1))).map fun i =>
    s.outVector (s.selVector.get i)

end ScanState

/-- What a scan presents for a bound node, call by call. -/
def presentations (flatten : Bool) (batches : List (Batch α)) : List (List α) :=
  if flatten then (batches.flatMap Batch.rows).map fun row => [row]
  else (batches.map Batch.rows).filter (·.length > 0)

namespace ScanState

variable {s : ScanState α} {flatten : Bool}

/-- What the scan has still to present. -/
def items (flatten : Bool) (s : ScanState α) : List (List α) :=
  if s.stateFinished then []
  else if flatten then (s.restOfBatch ++ s.pending.flatMap Batch.rows).map fun row => [row]
  else presentations false s.pending

/-- Only a flat scan is ever inside a batch, with one position selected, and not when it is finished. -/
structure Valid (flatten : Bool) (s : ScanState α) : Prop where
  inside : s.Inside → flatten = true ∧ s.selVector.isStatic = false ∧ s.selVector.selectedSize = 1
  finished : s.stateFinished = true → ¬ s.Inside

theorem restOfBatch_eq_nil (h : ¬ s.Inside) : s.restOfBatch = [] := by
  unfold Inside at h
  rw [restOfBatch, Nat.sub_eq_zero_of_le (by omega)]
  rfl

theorem Valid.initScanState (h : s.Valid flatten) (hfin : s.stateFinished = true) (batches : List (Batch α)) :
    (s.initScanState batches).Valid flatten ∧
      (s.initScanState batches).items flatten = presentations flatten batches := by
  refine ⟨⟨h.inside, fun hf => nomatch hf⟩, ?_⟩
  have hrest : (s.initScanState batches).restOfBatch = [] := restOfBatch_eq_nil (h.finished hfin)
  rw [items, hrest]
  cases flatten <;> simp [presentations, initScanState]

/-- The loop either finds a batch, after batches without rows, or it goes through all of them. -/
theorem scanLoop_spec (pending : List (Batch α)) (s : ScanState α) :
    (∃ (batch : Batch α) (rest : List (Batch α)), batch.selVector.selectedSize > 0 ∧ scanLoop pending s =
        (true, { s with pending := rest, outVector := batch.values, selVector := batch.selVector }) ∧
      pending.flatMap Batch.rows = batch.rows ++ rest.flatMap Batch.rows ∧
      presentations false pending = batch.rows :: presentations false rest) ∨
    (∃ outVector selVector, scanLoop pending s =
        (false, { s with pending := [], outVector := outVector, selVector := selVector }) ∧
      ∀ flatten, presentations flatten pending = []) := by
  induction pending generalizing s with
  | nil => exact .inr ⟨s.outVector, s.selVector, rfl, fun flatten => by cases flatten <;> rfl⟩
  | cons batch pending ih =>
    have hlength : batch.rows.length = batch.selVector.selectedSize := by
      simp [Batch.rows, getSelectedPositions]
    by_cases hsize : batch.selVector.selectedSize > 0
    · refine .inl ⟨batch, pending, hsize, ?_, flatMap_cons, ?_⟩
      · simp [scanLoop, hsize]
      · simp [presentations, hlength, hsize]
    · have hnil : batch.rows = [] := length_eq_zero_iff.mp (by omega)
      have hloop : scanLoop (batch :: pending) s = scanLoop pending { s with
          pending := pending, outVector := batch.values, selVector := batch.selVector } := by
        simp [scanLoop, hsize]
      obtain ⟨found, rest, hpos, heq, hflat, hitems⟩ | ⟨outVector, selVector, heq, hitems⟩ := ih { s with
        pending := pending, outVector := batch.values, selVector := batch.selVector }
      · refine .inl ⟨found, rest, hpos, hloop.trans heq, ?_, ?_⟩
        · rw [flatMap_cons, hnil, nil_append, hflat]
        · rw [← hitems]
          simp [presentations, hnil]
      · refine .inr ⟨outVector, selVector, hloop.trans heq, fun flatten => ?_⟩
        rw [← hitems flatten]
        simp [presentations, hnil]

/-- The scan has presented the first of the items, if there is one. -/
structure Advanced (flatten : Bool) (expected : List (List α)) (s : ScanState α) : Prop where
  valid : s.Valid flatten
  presented : s.presented = expected.headD []
  items : s.items flatten = expected.tail
  finished : s.stateFinished = true ↔ expected = []

/-- A scan that is finished and not inside a batch presents nothing. -/
theorem advanced_finished (hfin : s.stateFinished = true) (hout : ¬ s.Inside) :
    Advanced flatten [] { s with selVector := s.selVector.setSelSize 0 } where
  valid := ⟨fun h => absurd h hout, fun _ => hout⟩
  presented := rfl
  items := by simp [items, hfin]
  finished := by simp [hfin]

/-- A batch that is not flat is presented as a whole. -/
theorem nextBatch_spec (hfin : s.stateFinished = true) (hout : ¬ s.Inside) :
    (s.nextBatch.stateFinished = false ∧ Advanced false (presentations false s.pending) s.nextBatch) ∨
    (s.nextBatch.stateFinished = true ∧ ¬ s.nextBatch.Inside ∧ presentations false s.pending = []) := by
  unfold nextBatch
  obtain ⟨batch, rest, -, heq, -, hitems⟩ | ⟨_, _, heq, hitems⟩ := scanLoop_spec s.pending s
  · rw [heq]
    refine .inl ⟨rfl, ⟨fun h => absurd h hout, fun hf => nomatch hf⟩, ?_, ?_, ?_⟩
    · rw [hitems]
      rfl
    · rw [hitems]
      rfl
    · simp [hitems]
  · rw [heq]
    exact .inr ⟨hfin, hout, hitems false⟩

/-- The next position of a batch moves to the front of the buffer, and the positions after it stay. -/
theorem nextFlat_inside (hin : s.Inside) (hdynamic : s.selVector.isStatic = false)
    (hone : s.selVector.selectedSize = 1) :
    s.nextFlat.stateFinished = false ∧
      Advanced true ((s.restOfBatch ++ s.pending.flatMap Batch.rows).map fun row => [row]) s.nextFlat := by
  have hlt : s.flattenScanIndex + 1 < s.flattenScanSize := hin
  have hnext : s.nextFlat = { s with
      flattenScanIndex := s.flattenScanIndex + 1
      selVector := s.selVector.set 0 (s.selVector.get (s.flattenScanIndex + 1))
      stateFinished := false } := by
    have hle : s.flattenScanIndex + 1 + 1 ≤ s.flattenScanSize := hlt
    simp [nextFlat, hlt]
  have hset (i : Nat) : (s.selVector.set 0 (s.selVector.get (s.flattenScanIndex + 1))).get i =
      if i = 0 then s.selVector.get (s.flattenScanIndex + 1) else s.selVector.get i := by
    by_cases hi : i = 0 <;> simp [SelectionVector.set, SelectionVector.get, hdynamic, hi]
  have hrest : s.restOfBatch = s.outVector (s.selVector.get (s.flattenScanIndex + 1)) :: s.nextFlat.restOfBatch := by
    rw [restOfBatch, hnext]
    have hsize : s.flattenScanSize - (s.flattenScanIndex + 1) =
        s.flattenScanSize - (s.flattenScanIndex + 1 + 1) + 1 := by omega
    rw [hsize]
    refine congrArg _ (map_congr_left fun i hi => ?_)
    have : i ≠ 0 := by
      have := (mem_range'_1.mp hi).1
      omega
    rw [hset, if_neg this]
  have hsize : (s.selVector.set 0 (s.selVector.get (s.flattenScanIndex + 1))).selectedSize = 1 := by
    simp [SelectionVector.set, hdynamic, hone]
  refine ⟨by rw [hnext], ⟨fun _ => ⟨rfl, ?_, ?_⟩, ?_⟩, ?_, ?_, ?_⟩
  · rw [hnext]
    simp [SelectionVector.set, hdynamic]
  · rw [hnext]
    exact hsize
  · rw [hnext]
    exact fun hf => nomatch hf
  · rw [hrest, hnext]
    simp [presented, getSelectedPositions, hsize, hset]
  · rw [hrest, hnext]
    rfl
  · rw [hrest, hnext]
    simp

/-- A new batch of a flat scan: its positions are in the buffer, and the first one is selected. -/
theorem nextFlat_outside (hfin : s.stateFinished = true) (hout : ¬ s.Inside) :
    (s.nextFlat.stateFinished = false ∧ Advanced true (presentations true s.pending) s.nextFlat) ∨
    (s.nextFlat.stateFinished = true ∧ ¬ s.nextFlat.Inside ∧ presentations true s.pending = []) := by
  have hlt : ¬ s.flattenScanIndex + 1 < s.flattenScanSize := hout
  rw [nextFlat, if_neg hlt]
  obtain ⟨batch, rest, hpos, heq, hflat, -⟩ | ⟨_, _, heq, hitems⟩ := scanLoop_spec s.pending s
  · rw [heq]
    left
    -- In both states of the batch the buffer holds its positions.
    let buffered := (if batch.selVector.isStatic then
      batch.selVector.setRange 0 batch.selVector.selectedSize else batch.selVector).setToFiltered 1
    have hget (i : Nat) (hi : i < batch.selVector.selectedSize) : buffered.get i = batch.selVector.get i := by
      by_cases hstatic : batch.selVector.isStatic = true <;>
        simp [buffered, SelectionVector.get, setToFiltered, setRange, hstatic, hi]
    have hrows : batch.rows = batch.values (buffered.get 0) ::
        (range' 1 (batch.selVector.selectedSize - 1)).map fun i => batch.values (buffered.get i) := by
      have hsize : batch.selVector.selectedSize = batch.selVector.selectedSize - 1 + 1 := by omega
      rw [Batch.rows, getSelectedPositions, map_map, range_eq_range', hsize, hget 0 hpos]
      refine congrArg _ (map_congr_left fun i hi => ?_)
      have := mem_range'_1.mp hi
      rw [Function.comp_apply, hget i (by omega)]
    have hitems : presentations true s.pending = [batch.values (buffered.get 0)] ::
        (((range' 1 (batch.selVector.selectedSize - 1)).map fun i => batch.values (buffered.get i)) ++
          rest.flatMap Batch.rows).map fun row => [row] := by
      rw [presentations, hflat, hrows]
      rfl
    rw [hitems]
    exact ⟨rfl, ⟨fun _ => ⟨rfl, rfl, rfl⟩, fun hf => nomatch hf⟩, rfl, rfl, by simp⟩
  · rw [heq]
    exact .inr ⟨hfin, by simp [Inside], hitems true⟩

theorem advance_of_next {expected : List (List α)} {next : ScanState α} (hfin : ¬ s.stateFinished = true)
    (hbranch : (if flatten then ({ s with stateFinished := true } : ScanState α).nextFlat
      else ({ s with stateFinished := true } : ScanState α).nextBatch) = next)
    (h : (next.stateFinished = false ∧ Advanced flatten expected next) ∨
      (next.stateFinished = true ∧ ¬ next.Inside ∧ expected = [])) :
    Advanced flatten expected (s.advance flatten) := by
  have hend : s.advance flatten =
      if next.stateFinished then { next with selVector := next.selVector.setSelSize 0 } else next := by
    rw [advance, if_neg hfin, ← hbranch]
  rw [hend]
  obtain ⟨hnot, hadv⟩ | ⟨hfin', hout, rfl⟩ := h
  · rwa [hnot]
  · rw [if_pos hfin']
    exact advanced_finished hfin' hout

theorem advance_spec (h : s.Valid flatten) : Advanced flatten (s.items flatten) (s.advance flatten) := by
  by_cases hfin : s.stateFinished = true
  · have hitems : s.items flatten = [] := by simp [items, hfin]
    rw [hitems, advance, if_pos hfin]
    exact advanced_finished hfin (h.finished hfin)
  rw [items, if_neg hfin]
  refine advance_of_next hfin rfl ?_
  cases flatten with
  | false =>
    have hout : ¬ s.Inside := fun hin => by simpa using (h.inside hin).1
    exact nextBatch_spec (s := { s with stateFinished := true }) rfl hout
  | true =>
    by_cases hin : s.Inside
    · obtain ⟨-, hdynamic, hone⟩ := h.inside hin
      exact .inl (nextFlat_inside (s := { s with stateFinished := true }) hin hdynamic hone)
    · rw [restOfBatch_eq_nil hin]
      exact nextFlat_outside (s := { s with stateFinished := true }) rfl hin

/-- The scan without the buffer, at the same items, makes the same step. -/
theorem advance_refines {s : ScanState InternalID} {p : ScanPath} (hs : s.Valid flatten)
    (hp : p.Valid flatten) (hitems : s.items flatten = p.items flatten) :
    (s.advance flatten).presented = (p.advance flatten).sel ∧
      (s.advance flatten).items flatten = (p.advance flatten).items flatten ∧
      ((s.advance flatten).stateFinished = true ↔ (p.advance flatten).stateFinished = true) := by
  obtain ⟨-, hpresented, hrest, hfinished⟩ := advance_spec hs
  obtain ⟨-, hsel, hrest', hfinished'⟩ := ScanPath.advance_spec hp
  rw [hpresented, hrest, hfinished, hsel, hrest', hfinished', hitems]
  exact ⟨rfl, rfl, .rfl⟩

end ScanState

/-! ## All scans -/

/-- A bound node, and the batches that each scan returns for it. -/
structure BoundBatches (n : Nat) (α : Type) where
  key : InternalID
  batches : Fin n → List (Batch α)

/-- The state of `SharedScanRelTable`, with what its child has still to return. -/
structure SharedScan (n : Nat) (α : Type) where
  child : List (BoundBatches n α)
  /-- The bound node that the child has returned last. -/
  boundNode : Option InternalID
  scans : Fin n → ScanState α

/-- `initLocalStateInternal`: all scans are finished. What the out vectors hold is arbitrary. -/
def SharedScan.init (child : List (BoundBatches n α)) (outVector : Fin n → Nat → α)
    (selVector : Fin n → SelectionVector) : SharedScan n α :=
  ⟨child, none, fun i => ⟨[], outVector i, selVector i, false, true, 0, 0⟩⟩

/-- What a call presents: the bound node, and the selected rows of each scan. -/
structure Presented (n : Nat) (α : Type) where
  boundNode : Option InternalID
  rows : Fin n → List α

namespace SharedScan

variable (flattenScans : Fin n → Bool)

/-- All scans take a step. -/
def step (s : SharedScan n α) : SharedScan n α :=
  { s with scans := fun i => (s.scans i).advance (flattenScans i) }

/-- `getNextTuplesInternal`. `none` is the end of the child. -/
def getNextTuplesInternal (s : SharedScan n α) : Option (SharedScan n α) :=
  if ∀ i, (s.scans i).stateFinished = true then
    match s.child with
    | [] => none
    | bound :: child =>
      let s : SharedScan n α :=
        ⟨child, some bound.key, fun i => (s.scans i).initScanState (bound.batches i)⟩
      some (s.step flattenScans)
  else some (s.step flattenScans)

/-- What the selected rows are after a call. -/
def presented (s : SharedScan n α) : Presented n α := ⟨s.boundNode, fun i => (s.scans i).presented⟩

/-- What the calls present until the child ends, or `none` without enough fuel. -/
def calls : Nat → SharedScan n α → Option (List (Presented n α))
  | 0, _ => none
  | fuel + 1, s =>
    match s.getNextTuplesInternal flattenScans with
    | none => some []
    | some s => (calls fuel s).map (s.presented :: ·)

/-- The calls for one bound node: one for each presentation of the longest scan, and one in which that
scan finds its end. In call `t` a scan presents its `t`-th presentation, or nothing when it has no more. -/
def callsOf (bound : BoundBatches n α) : List (Presented n α) :=
  let shown i := presentations (flattenScans i) (bound.batches i)
  (range (Finset.univ.sup (fun i => (shown i).length) + 1)).map fun t =>
    ⟨some bound.key, fun i => (shown i).getD t []⟩

variable {flattenScans} {s : SharedScan n α}

/-- A step presents the first item of each scan. -/
theorem step_spec {shown : Fin n → List (List α)} (hvalid : ∀ i, (s.scans i).Valid (flattenScans i))
    (hshown : ∀ i, (s.scans i).items (flattenScans i) = shown i) :
    (∀ i, ScanState.Advanced (flattenScans i) (shown i) ((s.step flattenScans).scans i)) ∧
      (s.step flattenScans).presented = ⟨s.boundNode, fun i => (shown i).getD 0 []⟩ := by
  have hadv (i : Fin n) : ScanState.Advanced (flattenScans i) (shown i)
      ((s.step flattenScans).scans i) := hshown i ▸ ScanState.advance_spec (hvalid i)
  refine ⟨hadv, ?_⟩
  have hhead (i : Fin n) : ((s.step flattenScans).scans i).presented = (shown i).getD 0 [] := by
    rw [(hadv i).presented]
    cases shown i <;> rfl
  simp only [presented, hhead]
  rfl

/-- From the first step for a bound node on, the scans present all their items. -/
theorem calls_of_items (shown : Fin n → List (List α)) (len fuel : Nat) (out : List (Presented n α))
    (hvalid : ∀ i, (s.scans i).Valid (flattenScans i))
    (hshown : ∀ i, (s.scans i).items (flattenScans i) = shown i)
    (hle : ∀ i, (shown i).length ≤ len) (hmax : 0 < len → ∃ i, (shown i).length = len)
    (hrest : ∀ s' : SharedScan n α, s'.child = s.child → (∀ i, (s'.scans i).Valid (flattenScans i)) →
      (∀ i, (s'.scans i).stateFinished = true) → calls flattenScans fuel s' = some out) :
    (calls flattenScans (fuel + len) (s.step flattenScans)).map ((s.step flattenScans).presented :: ·) =
      some (((range (len + 1)).map fun t =>
        (⟨s.boundNode, fun i => (shown i).getD t []⟩ : Presented n α)) ++ out) := by
  induction len generalizing s shown with
  | zero =>
    obtain ⟨hadv, hpresented⟩ := step_spec hvalid hshown
    have hfin (i : Fin n) : ((s.step flattenScans).scans i).stateFinished = true :=
      (hadv i).finished.mpr (length_eq_zero_iff.mp (Nat.le_zero.mp (hle i)))
    rw [Nat.add_zero, hrest (s.step flattenScans) rfl (fun i => (hadv i).valid) hfin, hpresented]
    rfl
  | succ len ih =>
    obtain ⟨hadv, hpresented⟩ := step_spec hvalid hshown
    obtain ⟨i₀, hi₀⟩ := hmax (by omega)
    -- The longest scan is not finished, so that the next call makes a step.
    have hnot : ¬ ∀ i, ((s.step flattenScans).scans i).stateFinished = true := fun hall => by
      rw [(hadv i₀).finished.mp (hall i₀)] at hi₀
      cases hi₀
    have hnext : (s.step flattenScans).getNextTuplesInternal flattenScans =
        some ((s.step flattenScans).step flattenScans) := if_neg hnot
    have htail (i : Fin n) (t : Nat) : (shown i).tail.getD t [] = (shown i).getD (t + 1) [] := by
      cases shown i <;> simp
    have hle' (i : Fin n) : (shown i).tail.length ≤ len := by
      have := hle i
      rw [length_tail]
      omega
    have hmax' : 0 < len → ∃ i, (shown i).tail.length = len :=
      fun _ => ⟨i₀, by rw [length_tail, hi₀]; rfl⟩
    have hstep := ih (fun i => (shown i).tail) (fun i => (hadv i).valid) (fun i => (hadv i).items) hle' hmax' hrest
    simp only [htail] at hstep
    rw [← Nat.add_assoc, calls, hnext, hpresented]
    simp only [hstep]
    rw [range_succ_eq_map (n := len + 1), map_cons, map_map]
    rfl

theorem calls_of_child (hvalid : ∀ i, (s.scans i).Valid (flattenScans i))
    (hfin : ∀ i, (s.scans i).stateFinished = true) :
    ∃ fuel, calls flattenScans fuel s = some (s.child.flatMap (callsOf flattenScans)) := by
  obtain ⟨child, boundNode, scans⟩ := s
  -- The fuel depends on the child only, so that it is the same for every state that the calls lead to.
  suffices h : ∃ fuel, ∀ s : SharedScan n α, s.child = child →
      (∀ i, (s.scans i).Valid (flattenScans i)) → (∀ i, (s.scans i).stateFinished = true) →
        calls flattenScans fuel s = some (child.flatMap (callsOf flattenScans)) by
    obtain ⟨fuel, h⟩ := h
    exact ⟨fuel, h _ rfl hvalid hfin⟩
  clear hvalid hfin boundNode scans
  induction child with
  | nil =>
    refine ⟨1, fun s hchild _ hfin => ?_⟩
    have hend : s.getNextTuplesInternal flattenScans = none := by
      rw [getNextTuplesInternal, if_pos hfin, hchild]
    rw [calls, hend]
    rfl
  | cons bound child ih =>
    obtain ⟨fuel, hrest⟩ := ih
    let shown i := presentations (flattenScans i) (bound.batches i)
    let len := Finset.univ.sup fun i => (shown i).length
    refine ⟨fuel + len + 1, fun s hchild hvalid hfin => ?_⟩
    have hinit (i : Fin n) := (hvalid i).initScanState (hfin i) (bound.batches i)
    let s₀ : SharedScan n α := ⟨child, some bound.key, fun i => (s.scans i).initScanState (bound.batches i)⟩
    have hnext : s.getNextTuplesInternal flattenScans = some (s₀.step flattenScans) := by
      rw [getNextTuplesInternal, if_pos hfin, hchild]
    have hle (i : Fin n) : (shown i).length ≤ len :=
      Finset.le_sup (f := fun i => (shown i).length) (Finset.mem_univ i)
    have hmax (hpos : 0 < len) : ∃ i, (shown i).length = len := by
      have hne : (Finset.univ : Finset (Fin n)).Nonempty := by
        rw [Finset.nonempty_iff_ne_empty]
        intro hempty
        simp [len, hempty] at hpos
      obtain ⟨i, -, hi⟩ := Finset.exists_mem_eq_sup _ hne fun i => (shown i).length
      exact ⟨i, hi.symm⟩
    rw [calls, hnext]
    exact calls_of_items (s := s₀) shown len fuel _ (fun i => (hinit i).1) (fun i => (hinit i).2) hle hmax hrest

end SharedScan

/-- The calls for a bound node present the neighbours of each scan in order, one by one when the scan is
flat and batch by batch otherwise, and nothing once the scan is exhausted. The child is advanced after the
call in which the longest scan is exhausted, and the run ends. -/
theorem getNextTuples_calls (flattenScans : Fin n → Bool) (child : List (BoundBatches n α))
    (outVector : Fin n → Nat → α) (selVector : Fin n → SelectionVector) :
    ∃ fuel, SharedScan.calls flattenScans fuel (.init child outVector selVector) =
      some (child.flatMap (SharedScan.callsOf flattenScans)) :=
  SharedScan.calls_of_child
    (fun _ => ⟨fun h => absurd h (by simp [ScanState.Inside, SharedScan.init]),
      fun _ => by simp [ScanState.Inside, SharedScan.init]⟩)
    fun _ => rfl

end SharedBuild
end CycleJoin
