import CycleJoin.Processor.IntersectMultiway.Basic

/-!
# The pipeline that builds a shared hash table

`SharedScanRelTable` scans the neighbours of a bound node over all build paths at once. A path of
one hop hands its neighbours to the build as they come. A path of two hops scans one neighbour at a
time, and a `HashJoinProbe` above the scan looks up its end nodes. `IntersectMultiwayBuild` collects
the end nodes of each path and stores them when the bound node changes
(`processor/operator/scan/shared_scan_rel_table.cpp`, `hash_join/hash_join_probe.cpp`,
`intersect/intersect_multiway_build.h`).

The operators pull from each other and write into shared vectors. A call is modelled by the state
of the operators after it and by the payload vectors that it writes; a payload vector that is not
written keeps what it holds. The payload vector of a path holds its end nodes. `HashJoinProbe` saves
and restores the selection of its key vector around a call, so that the selection the scan left
there is what the next probe reads.

`n` is the number of build paths.
-/

namespace CycleJoin
namespace SharedBuild

variable {n : Nat}

/-- What the operators are set up with. -/
structure Pipeline (n : Nat) where
  /-- `flattenScans`: the paths of two hops. -/
  flattenScans : Fin n → Bool
  /-- The hash table that the probe of a path looks into. -/
  hashTable : Fin n → JoinHashTable (List InternalID)
  /-- The paths of the `HashJoinProbe` operators, from the top one down to the scan. -/
  probes : List (Fin n)
  nodup : probes.Nodup
  mem_probes : ∀ i, i ∈ probes ↔ flattenScans i = true

/-- A bound node, and the batches of neighbours that the scan of each path returns for it. -/
structure BoundNode (n : Nat) where
  key : InternalID
  batches : Fin n → List (List InternalID)

/-! ## SharedScanRelTable -/

/-- The state of the scan of one path. -/
structure ScanPath where
  /-- What `table->scan` has still to return. -/
  pending : List (List InternalID)
  stateFinished : Bool
  flattenScanIndex : Nat
  flattenScanSize : Nat
  /-- The selection of the batch that a flat scan goes through. -/
  batch : List InternalID
  /-- The selected neighbours. -/
  sel : List InternalID

/-- The state of a scan before the first call. -/
def ScanPath.init : ScanPath := ⟨[], true, 0, 0, [], []⟩

/-- The loop that scans for a batch that is not empty. -/
def scanBatch : List (List InternalID) → Option (List InternalID × List (List InternalID))
  | [] => none
  | batch :: pending => if batch.length > 0 then some (batch, pending) else scanBatch pending

/-- The body of the loop of `getNextTuplesInternal` over the paths. -/
def ScanPath.advance (flatten : Bool) (p : ScanPath) : ScanPath :=
  if p.stateFinished then { p with sel := [] }
  else if flatten then
    if p.flattenScanIndex + 1 < p.flattenScanSize then
      { p with
        flattenScanIndex := p.flattenScanIndex + 1
        sel := p.batch[p.flattenScanIndex + 1]?.toList }
    else
      match scanBatch p.pending with
      | some (batch, pending) => ⟨pending, false, 0, batch.length, batch, batch[0]?.toList⟩
      | none => ⟨[], true, 0, 0, p.batch, []⟩
  else
    match scanBatch p.pending with
    | some (batch, pending) => { p with pending := pending, sel := batch }
    | none => { p with pending := [], stateFinished := true, sel := [] }

/-- `table->initScanState`. -/
def ScanPath.initScanState (p : ScanPath) (batches : List (List InternalID)) : ScanPath :=
  { p with pending := batches, stateFinished := false }

/-! ## HashJoinProbe -/

/-- `ProbeState` of the probe of one path. -/
structure ProbeState where
  /-- `probedTuples[0]` and the tuples that follow it in its chain. -/
  probedTuples : List (HTTuple (List InternalID))
  matchedTuples : List (HTTuple (List InternalID))
  nextMatchedTupleIdx : Nat

/-- `ProbeState()`. -/
def ProbeState.init : ProbeState := ⟨[], [], 0⟩

/-- `matchFlatKeys`, with room for `room` matches: the matched tuples and the rest of the chain. -/
def matchFlatKeys (key : InternalID) : Nat → List (HTTuple (List InternalID)) →
    List (HTTuple (List InternalID)) × List (HTTuple (List InternalID))
  | _, [] => ([], [])
  | 0, chain => ([], chain)
  | room + 1, tuple :: chain =>
    if tuple.key = key then
      let (matched, rest) := matchFlatKeys key room chain
      (tuple :: matched, rest)
    else matchFlatKeys key (room + 1) chain

/-- `JoinHashTable::probe` for a flat key: the chain of the key, if there is a key. -/
def probe (ht : JoinHashTable (List InternalID)) (sel : List InternalID) :
    List (HTTuple (List InternalID)) :=
  if ht.getNumEntries = 0 then []
  else
    match sel with
    | key :: _ => ht.getTupleForHash (ht.hash key)
    | [] => []

/-- `matchFlatKeys` on the state of a probe. Without a key the chain is empty. -/
def ProbeState.matchKeys (p : ProbeState) (sel : List InternalID) : ProbeState :=
  match sel with
  | key :: _ =>
    let (matched, rest) := matchFlatKeys key defaultVectorCapacity p.probedTuples
    ⟨rest, matched, 0⟩
  | [] => ⟨p.probedTuples, [], 0⟩

/-- `getInnerJoinResultForFlatKey`, and the end of `getNextTuplesInternal`, which empties the payload
vector when there is no match: the state and the payload vector. -/
def ProbeState.getJoinResult (p : ProbeState) : ProbeState × List InternalID :=
  match p.matchedTuples[p.nextMatchedTupleIdx]? with
  | some tuple => ({ p with nextMatchedTupleIdx := p.nextMatchedTupleIdx + 1 }, tuple.payload)
  | none => (p, [])

/-! ## Pulling -/

/-- The state of the scan and the probes. -/
structure State (n : Nat) where
  /-- The bound nodes that the child of the scan has still to return. -/
  child : List (BoundNode n)
  key : Option InternalID
  scan : Fin n → ScanPath
  probe : Fin n → ProbeState

/-- The payload vectors that a call writes. -/
abbrev Writes (n : Nat) := Fin n → Option (List InternalID)

/-- The state before the first call. -/
def State.init (child : List (BoundNode n)) : State n :=
  ⟨child, none, fun _ => .init, fun _ => .init⟩

variable (pl : Pipeline n)

/-- The neighbours that the scan writes into payload vectors: those of the paths of one hop. -/
def scanWrites (s : State n) : Writes n :=
  fun i => if pl.flattenScans i then none else some (s.scan i).sel

/-- `SharedScanRelTable::getNextTuplesInternal`. -/
def scanNext (s : State n) : Option (State n × Writes n) :=
  if ∀ i, (s.scan i).stateFinished = true then
    match s.child with
    | [] => none
    | bound :: child =>
      let s := { s with
        child := child
        key := some bound.key
        scan := fun i =>
          ((s.scan i).initScanState (bound.batches i)).advance (pl.flattenScans i) }
      some (s, scanWrites pl s)
  else
    let s := { s with scan := fun i => (s.scan i).advance (pl.flattenScans i) }
    some (s, scanWrites pl s)

/-- The probe of path `i` ships its next match. -/
def ship (i : Fin n) (s : State n) (w : Writes n) : State n × Writes n :=
  let (p, out) := (s.probe i).getJoinResult
  ({ s with probe := Function.update s.probe i p }, Function.update w i (some out))

/-- The probe of path `i` matches the chain it is at, and ships the first match. -/
def matchAndShip (i : Fin n) (s : State n) (w : Writes n) : State n × Writes n :=
  ship i { s with
    probe := Function.update s.probe i ((s.probe i).matchKeys (s.scan i).sel) } w

/-- The probe of path `i` looks up the key that the scan has left. -/
def lookUp (i : Fin n) (s : State n) : State n :=
  let p := { s.probe i with probedTuples := probe (pl.hashTable i) (s.scan i).sel }
  { s with probe := Function.update s.probe i p }

/-- `getNextTuple` of the top operator of a chain of probes over the scan. `allowEmptyJoinResult` is
set, so that a probe without a match returns as well. -/
def getNextTuple : List (Fin n) → State n → Option (State n × Writes n)
  | [], s => scanNext pl s
  | i :: below, s =>
    if (s.probe i).nextMatchedTupleIdx < (s.probe i).matchedTuples.length then
      some (ship i s fun _ => none)
    else if (s.probe i).probedTuples.length = 0 then
      match getNextTuple below s with
      | some (s, w) => some (matchAndShip i (lookUp pl i s) w)
      | none => none
    else some (matchAndShip i s fun _ => none)

/-! ## IntersectMultiwayBuild -/

/-- The cached key and the cached vectors of each path. -/
structure Cache (n : Nat) where
  key : Option InternalID
  payloads : Fin n → List (List InternalID)

/-- `initLocalStateInternal`: one empty vector for each path. -/
def Cache.init : Cache n := ⟨none, fun _ => [[]]⟩

/-- Appends a value to the first cached vector that is not full. -/
def appendCached (x : InternalID) : List (List InternalID) → List (List InternalID)
  | [] => [[x]]
  | v :: cache =>
    if v.length < defaultVectorCapacity then (v ++ [x]) :: cache else v :: appendCached x cache

/-- `cacheKeyPayloads`, with the key to cache. -/
def cacheKeyPayloads (key : Option InternalID) (payloads : Fin n → List InternalID)
    (cache : Cache n) : Cache n :=
  ⟨key, fun i => (payloads i).foldl (fun cache x => appendCached x cache) (cache.payloads i)⟩

/-- A tuple of the shared hash table: for each path a list of end nodes. -/
abbrev SharedTuple (n : Nat) := HTTuple (Fin n → List InternalID)

/-- The next vector of a path to append. `none` is the index `-1u`: it is past the end, and stays
there when it is incremented. -/
def nextIndex (index : Option Nat) (cache : List (List InternalID)) : Option Nat :=
  match index with
  | some k =>
    if k + 1 ≥ cache.length ∨ (cache.getD (k + 1) []).length = 0 then none else some (k + 1)
  | none => none

/-- The `do … while` loop of `dumpCachedKeyPayloads`, for fewer than `2 ^ 32` vectors per path. When all
vectors of a path are appended, its first vector is emptied and appended from then on. -/
def dumpLoop (key : InternalID) : Nat → (Fin n → Option Nat) → (Fin n → List (List InternalID)) →
    List (SharedTuple n)
  | 0, _, _ => []
  | fuel + 1, indices, payloads =>
    let tuple : SharedTuple n := ⟨key, fun i => (payloads i).getD ((indices i).getD 0) []⟩
    let next := fun i => nextIndex (indices i) (payloads i)
    let payloads := fun i => if (next i).isSome then payloads i else (payloads i).set 0 []
    if ∃ i, (next i).isSome then tuple :: dumpLoop key fuel next payloads else [tuple]

/-- The tuples that `dumpCachedKeyPayloads` appends to the hash table. -/
def dumpedTuples (cache : Cache n) : List (SharedTuple n) :=
  match cache.key with
  | none => []
  | some key =>
    if ∃ i, ((cache.payloads i).getD 0 []).length = 0 then []
    else dumpLoop key (∑ i, (cache.payloads i).length + 1) (fun _ => some 0) cache.payloads

/-- The clean-up at the end of `dumpCachedKeyPayloads`. -/
def Cache.cleared (cache : Cache n) : Cache n :=
  ⟨none, fun i => (cache.payloads i).map fun _ => []⟩

/-- The state of the whole pipeline. -/
structure BuildState (n : Nat) where
  state : State n
  /-- The payload vectors. -/
  vectors : Fin n → List InternalID
  cache : Cache n
  hashTable : List (SharedTuple n)

/-- The body of the loop of `executeInternal`, after a call of the child. The payload vectors are
empty after they are cached. -/
def BuildState.step (b : BuildState n) (s : State n) (w : Writes n) : BuildState n :=
  let vectors := fun i => (w i).getD (b.vectors i)
  let isNewKey := b.cache.key.isNone ∨ b.cache.key ≠ s.key
  if isNewKey then
    ⟨s, fun _ => [], cacheKeyPayloads s.key vectors b.cache.cleared,
      b.hashTable ++ dumpedTuples b.cache⟩
  else ⟨s, fun _ => [], cacheKeyPayloads b.cache.key vectors b.cache, b.hashTable⟩

/-- `executeInternal`: the tuples of the hash table, or `none` without enough fuel. -/
def executeInternal : Nat → BuildState n → Option (List (SharedTuple n))
  | 0, _ => none
  | fuel + 1, b =>
    match getNextTuple pl pl.probes b.state with
    | some (s, w) => executeInternal fuel (b.step s w)
    | none => some (b.hashTable ++ dumpedTuples b.cache)

/-- The pipeline before the first call. -/
def BuildState.init (child : List (BoundNode n)) : BuildState n :=
  ⟨.init child, fun _ => [], .init, []⟩

end SharedBuild
end CycleJoin
