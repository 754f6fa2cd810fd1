import CycleJoin.Common.Constants
import CycleJoin.Processor.JoinHashTable

/-!
# The multiway intersection operator

`IntersectMultiway` (`processor/operator/intersect/intersect_multiway.cpp`). For one probe tuple
the operator looks up the key of every left node `i` in the hash table of `i`. A tuple found there
holds one list of neighbour IDs per right node `j` connected to `i`. For each `j` the lists of all
connected `i` are intersected, and the result goes to the vectors `cachedIntersectionResults[j]`.

* `IntersectMultiwayDataInfo`: the connectivity, with the assertions of its constructor as fields.
* `probeHTs`: the lists `probedIds[i][j]`.
* `TupleCursor`: a position in the lists probed for one `(i, j)`.
* `multiwayIntersectOnSortedTuples`: the merge over one cursor per connected left node.
* `intersectRightNodes`, `intersectProbeTuple`: the part of `getNextTuplesInternal` that handles
  one probe tuple.

A loop of the source whose end needs an argument takes fuel here; `Merge` shows that the fuel
is enough. `std::sort` is a parameter (`OffsetSort`): it is not stable, so the order of IDs with
equal offsets is unspecified.
-/

namespace CycleJoin

/-- `IntersectMultiwayDataInfo`. The last four fields are asserted by its constructor. -/
structure IntersectMultiwayDataInfo where
  numLeftNodes : Nat
  numRightNodes : Nat
  connectivity : Nat → Nat → Bool
  /-- The offset of the list for `(i, j)` in the tuples of the hash table of `i`. -/
  keyOffsetInTuple : Nat → Nat → Nat
  /-- `outputDataPos[j].dataChunkPos`. -/
  outputDataChunk : Nat → Nat
  two_le_numLeftNodes : 2 ≤ numLeftNodes
  two_le_numRightNodes : 2 ≤ numRightNodes
  two_le_left : ∀ i < numLeftNodes, 2 ≤ ((List.range numRightNodes).filter (connectivity i)).length
  two_le_right : ∀ j < numRightNodes,
    2 ≤ ((List.range numLeftNodes).filter (connectivity · j)).length

namespace IntersectMultiwayDataInfo

variable (info : IntersectMultiwayDataInfo)

/-- `left2right_idx[i]`. -/
def left2rightIdx (i : Nat) : List Nat := (List.range info.numRightNodes).filter (info.connectivity i)

/-- `right2left_idx[j]`. -/
def right2leftIdx (j : Nat) : List Nat :=
  (List.range info.numLeftNodes).filter (info.connectivity · j)

end IntersectMultiwayDataInfo

/-- A tuple of a shared hash table: the key, and at each list column's offset a list of IDs
(`overflow_value_t`). -/
abbrev ListTuple := HTTuple (Nat → List InternalID)

/-- A shared hash table. -/
abbrev SharedHT := JoinHashTable (Nat → List InternalID)

/-- `probedIds`: for each `(i, j)` the lists found by the probe. -/
abbrev ProbedIds := Nat → Nat → List (List InternalID)

namespace IntersectMultiway

variable (info : IntersectMultiwayDataInfo)

/-! ## Probing -/

/-- The body of the `while (flatTuple)` loop for a tuple with the probed key: its non-empty lists
are appended to `probedIds[i]`. -/
def pushLists (i : Nat) (t : ListTuple) (row : Nat → List (List InternalID)) :
    Nat → List (List InternalID) :=
  (info.left2rightIdx i).foldl (fun row j =>
    let pTuple := t.payload (info.keyOffsetInTuple i j)
    if pTuple.length = 0 then row else Function.update row j (row j ++ [pTuple])) row

/-- The `while (flatTuple)` loop along a chain. The `Bool` is `has_match`. -/
def walkChain (i : Nat) (key : InternalID) :
    List ListTuple → Bool → (Nat → List (List InternalID)) → Bool × (Nat → List (List InternalID))
  | [], hasMatch, row => (hasMatch, row)
  | t :: chain, hasMatch, row =>
    if t.key = key then walkChain i key chain true (pushLists info i t row)
    else walkChain i key chain hasMatch row

/-- The loop that reverses the lists of one left node; `false` when there is no list for some
connected right node. -/
def reverseLists : List Nat → (Nat → List (List InternalID)) → Bool × (Nat → List (List InternalID))
  | [], row => (true, row)
  | j :: js, row =>
    if (row j).length = 0 then (false, row)
    else reverseLists js (Function.update row j (row j).reverse)

/-- The body of the loop of `probeHTs` for left node `i`: whether there is a match, and
`probedIds[i]`. -/
def probeHT (sharedHT : SharedHT) (key : InternalID) (i : Nat)
    (row : Nat → List (List InternalID)) : Bool × (Nat → List (List InternalID)) :=
  let row := fun j => if j < info.numRightNodes then [] else row j
  if sharedHT.getNumEntries = 0 then (false, row)
  else
    let (hasMatch, row) :=
      walkChain info i key (sharedHT.getTupleForHash (sharedHT.hash key)) false row
    let (found, row) := reverseLists (info.left2rightIdx i) row
    (found && hasMatch, row)

/-- The loop of `probeHTs` over the left nodes in the list. -/
def probeHTsFrom (sharedHTs : Nat → SharedHT) (probeKeys : Nat → InternalID) :
    List Nat → ProbedIds → Bool × ProbedIds
  | [], ids => (true, ids)
  | i :: is, ids =>
    let (found, row) := probeHT info (sharedHTs i) (probeKeys i) i (ids i)
    let ids := Function.update ids i row
    if found then probeHTsFrom sharedHTs probeKeys is ids else (false, ids)

/-- `probeHTs`. -/
def probeHTs (sharedHTs : Nat → SharedHT) (probeKeys : Nat → InternalID) (ids : ProbedIds) :
    Bool × ProbedIds :=
  probeHTsFrom info sharedHTs probeKeys (List.range info.numLeftNodes) ids

end IntersectMultiway

/-! ## Cursors -/

/-- `TupleCursor`. -/
structure TupleCursor where
  tupleIdx : Nat
  eleIdx : Nat
  tuples : List (List InternalID)
  finished : Bool

namespace TupleCursor

/-- The constructor of `TupleCursor`. -/
def new (tuples : List (List InternalID)) : TupleCursor := ⟨0, 0, tuples, false⟩

/-- `tuples[tuple_idx]`. -/
def currentTuple (c : TupleCursor) : List InternalID := c.tuples.getD c.tupleIdx []

/-- `getCurrentID`. -/
def getCurrentID (c : TupleCursor) : InternalID := c.currentTuple.getD c.eleIdx default

/-- The `do … while` loop of `gotoNext`: the index of the next non-empty list among `rest`, the
lists from index `idx` on, and whether there was none. -/
def seekTuple : List (List InternalID) → Nat → Nat × Bool
  | [], idx => (idx, true)
  | t :: rest, idx => if t.length = 0 then seekTuple rest (idx + 1) else (idx, false)

/-- `gotoNext`. -/
def gotoNext (c : TupleCursor) : TupleCursor :=
  if c.eleIdx + 1 < c.currentTuple.length then { c with eleIdx := c.eleIdx + 1 }
  else
    let (idx, finished) := seekTuple (c.tuples.drop (c.tupleIdx + 1)) (c.tupleIdx + 1)
    { c with tupleIdx := idx, eleIdx := 0, finished := finished }

/-- The number of IDs in the lists: a bound for the steps of a cursor. -/
def numElements (c : TupleCursor) : Nat := c.tuples.flatten.length

/-- The loop of `goUtil`. -/
def goUtilLoop (target : InternalID) : Nat → TupleCursor → TupleCursor
  | 0, c => c
  | fuel + 1, c =>
    let c := c.gotoNext
    if c.finished ∨ target ≤ c.getCurrentID then c else goUtilLoop target fuel c

/-- `goUtil`. -/
def goUtil (target : InternalID) (c : TupleCursor) : TupleCursor :=
  goUtilLoop target c.numElements c

/-- The loop that counts the repetitions of `v` under the cursor, from `count` on. -/
def countRun (v : InternalID) : Nat → TupleCursor → Nat → Nat × TupleCursor
  | 0, c, count => (count, c)
  | fuel + 1, c, count =>
    if c.finished then (count, c)
    else if c.getCurrentID = v then countRun v fuel c.gotoNext (count + 1)
    else (count, c)

end TupleCursor

/-! ## Result vectors -/

/-- A vector of IDs: its buffer and the size of its selection vector. The buffer of a vector keeps
what it held beyond that size. -/
structure ValueVec where
  data : Nat → InternalID
  selSize : Nat

namespace ValueVec

instance : Inhabited ValueVec := ⟨⟨fun _ => default, 0⟩⟩

def ids (c : ValueVec) : List InternalID := (List.range c.selSize).map c.data

/-- `std::fill_n(data + curSize, n, v)` followed by `setSelSize(size)`. -/
def fillN (c : ValueVec) (n : Nat) (v : InternalID) (size : Nat) : ValueVec where
  data := fun p => if c.selSize ≤ p ∧ p < c.selSize + n then v else c.data p
  selSize := size

end ValueVec

namespace IntersectMultiway

variable (info : IntersectMultiwayDataInfo)

/-- The loop that writes `v` to the result cache `count` times, from vector `cur` on. -/
def fillResultCache (v : InternalID) : Nat → Nat → Nat → List ValueVec → Nat × List ValueVec
  | 0, _, cur, resultCache => (cur, resultCache)
  | fuel + 1, count, cur, resultCache =>
    if count = 0 then (cur, resultCache)
    else
      let c := resultCache.getD cur default
      let movableSize := defaultVectorCapacity - c.selSize
      if count ≤ movableSize then
        fillResultCache v fuel 0 cur (resultCache.set cur (c.fillN count v (c.selSize + count)))
      else
        let resultCache := resultCache.set cur (c.fillN movableSize v defaultVectorCapacity)
        let resultCache :=
          if cur + 1 = resultCache.length then resultCache ++ [default] else resultCache
        fillResultCache v fuel (count - movableSize) (cur + 1) resultCache

/-! ## The merge -/

/-- The local variables of the merge loop after a pass over the cursors. -/
structure Pass where
  cursors : List TupleCursor
  target : InternalID
  /-- `target_changed` -/
  targetChanged : Bool
  finished : Bool

/-- The loop that forwards the cursors to the target. It stops at the first cursor that overshoots
or ends. -/
def forwardCursors (target : InternalID) : List TupleCursor → Pass
  | [] => ⟨[], target, false, false⟩
  | c :: cs =>
    -- the `do … while (true)` loop takes two rounds at most: `goUtil` leaves no smaller ID
    let c' := if c.getCurrentID < target then c.goUtil target else c
    if c'.finished then ⟨c' :: cs, target, false, true⟩
    else if target < c'.getCurrentID then ⟨c' :: cs, c'.getCurrentID, true, false⟩
    else
      let p := forwardCursors target cs
      { p with cursors := c' :: p.cursors }

/-- The variables of the loop that counts and skips the runs of `intersect_value`. -/
structure Consumed where
  cursors : List TupleCursor
  target : InternalID
  multipliedCount : Nat
  finished : Bool

/-- The body of the loop that counts and skips the runs of `v`. `multiplied_count` is a `size_t`. -/
def consumeCursor (v : InternalID) (s : Consumed) (c : TupleCursor) : Consumed :=
  let (count, c) := c.gotoNext.countRun v c.numElements 1
  let multipliedCount := s.multipliedCount * count % 2 ^ 64
  let s := { s with cursors := s.cursors ++ [c], multipliedCount }
  if c.finished then { s with finished := true }
  else if s.target < c.getCurrentID then { s with target := c.getCurrentID } else s

/-- The loop that counts and skips the runs of `v`. -/
def consumeCursors (v : InternalID) (cs : List TupleCursor) (s : Consumed) : Consumed :=
  cs.foldl (consumeCursor v) s

/-- The variables of the main loop of `multiway_intersect_on_sorted_tuples`. -/
structure MergeState where
  cursors : List TupleCursor
  target : InternalID
  emptyIntersect : Bool
  currentResultCacheId : Nat
  resultCache : List ValueVec

/-- The main loop of `multiway_intersect_on_sorted_tuples`; `none` when the fuel runs out. -/
def mergeLoop : Nat → MergeState → Option MergeState
  | 0, _ => none
  | fuel + 1, s =>
    let p := forwardCursors s.target s.cursors
    if p.finished then some { s with cursors := p.cursors, target := p.target }
    else if p.targetChanged then mergeLoop fuel { s with cursors := p.cursors, target := p.target }
    else
      let d := consumeCursors p.target p.cursors ⟨[], p.target, 1, false⟩
      let (cur, resultCache) := fillResultCache p.target (d.multipliedCount + 2) d.multipliedCount
        s.currentResultCacheId s.resultCache
      let s := ⟨d.cursors, d.target, false, cur, resultCache⟩
      if d.finished then some s else mergeLoop fuel s

/-- The cursors of the merge for right node `j`. -/
def cursorsFor (ids : ProbedIds) (j : Nat) : List TupleCursor :=
  (info.right2leftIdx j).map fun i => TupleCursor.new (ids i j)

/-- A bound for the rounds of the merge over the given cursors. -/
def mergeFuel (cursors : List TupleCursor) : Nat :=
  2 * (cursors.map TupleCursor.numElements).sum + 1

/-- The variables of the merge before its main loop. -/
def initMerge (cursors : List TupleCursor) (resultCache : List ValueVec) : MergeState where
  cursors := cursors
  target := (cursors.headD (.new [])).getCurrentID
  emptyIntersect := true
  currentResultCacheId := 0
  resultCache := resultCache.map fun c => { c with selSize := 0 }

/-- `multiway_intersect_on_sorted_tuples`: `emptyIntersect` and the result cache. -/
def multiwayIntersectOnSortedTuples (ids : ProbedIds) (j : Nat) (resultCache : List ValueVec) :
    Option (Bool × List ValueVec) :=
  let cursors := cursorsFor info ids j
  (mergeLoop (mergeFuel cursors) (initMerge cursors resultCache)).map fun s =>
    (s.emptyIntersect, s.resultCache)

/-! ## One probe tuple -/

/-- What `std::sort` does to a list of IDs with the comparison `a.offset < b.offset`. -/
structure OffsetSort where
  sort : List InternalID → List InternalID
  perm : ∀ l, (sort l).Perm l
  sorted : ∀ l, (sort l).Pairwise fun a b => a.offset ≤ b.offset

variable (srt : OffsetSort)

/-- The loop that sorts every list probed for right node `j`, in place. -/
def sortProbedIds (ids : ProbedIds) (j : Nat) : ProbedIds := fun i j' =>
  if i < info.numLeftNodes ∧ j' = j then (ids i j').map srt.sort else ids i j'

/-- The size of vector 0. -/
def headSize (resultCache : List ValueVec) : Nat := (resultCache.headD default).selSize

/-- `cachedIntersectionResults`, and the sizes in the states of the data chunks. Vector 0 of a right
node has the state of its output vector (`initLocalStateInternal`), so its size is that of the data
chunk of the output vector, whatever size is noted in it. -/
structure ResultCaches where
  caches : Nat → List ValueVec
  selSizes : Nat → Nat

/-- The result caches after the merge for right node `j`. -/
def ResultCaches.store (cached : ResultCaches) (j : Nat) (resultCache : List ValueVec) : ResultCaches where
  caches := Function.update cached.caches j resultCache
  selSizes := Function.update cached.selSizes (info.outputDataChunk j) (headSize resultCache)

/-- The loop over the right nodes, in the order `dynamic_order`. The `Bool` is `has_empty`. -/
def intersectRightNodes : List Nat → ProbedIds → ResultCaches → Option (Bool × ResultCaches)
  | [], _, cached => some (false, cached)
  | j :: js, ids, cached => do
    let ids := sortProbedIds info srt ids j
    let (emptyIntersect, resultCache) ← multiwayIntersectOnSortedTuples info ids j (cached.caches j)
    let cached := cached.store info j resultCache
    if emptyIntersect then some (true, cached) else intersectRightNodes js ids cached

/-- The part of `getNextTuplesInternal` that handles one probe tuple: whether the tuple is skipped,
and `cachedIntersectionResults`. `ids` and `cached` are what the previous tuple left. -/
def intersectProbeTuple (sharedHTs : Nat → SharedHT) (dynamicOrder : ProbedIds → List Nat)
    (probeKeys : Nat → InternalID) (ids : ProbedIds) (cached : ResultCaches) :
    Option (Bool × ResultCaches) :=
  match probeHTs info sharedHTs probeKeys ids with
  | (false, _) => some (true, cached)
  | (true, ids) => intersectRightNodes info srt (dynamicOrder ids) ids cached

end IntersectMultiway
end CycleJoin
