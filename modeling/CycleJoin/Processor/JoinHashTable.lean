import CycleJoin.Common.InternalID

/-!
# The hash table of a join

`JoinHashTable` (`processor/operator/hash_join/join_hash_table.cpp`). The tuples lie in the blocks
of a factorized table, in the order in which they were appended. `buildHashSlots` chains the
tuples of a slot: each tuple points to the one that was at the head of its slot before
(`insertEntry`), so a chain lists the tuples of its slot from the last appended to the first.

`ρ` is what a tuple stores besides its key.
-/

namespace CycleJoin

/-- A tuple: its key and its payload columns. -/
structure HTTuple (ρ : Type) where
  key : InternalID
  payload : ρ

/-- A join hash table. `hash` is `function::Hash::operation`; both the build and the probe side
compute it from the key. -/
structure JoinHashTable (ρ : Type) where
  hash : InternalID → Nat
  maxNumHashSlots : Nat
  tuples : List (HTTuple ρ)

namespace JoinHashTable

variable {ρ : Type} (ht : JoinHashTable ρ)

/-- `getNumEntries`. -/
def getNumEntries : Nat := ht.tuples.length

/-- `getSlotIdxForHash`. -/
def getSlotIdxForHash (hash : Nat) : Nat := hash % ht.maxNumHashSlots

/-- `insertEntry`: the tuple becomes the head of its slot, and its `prev` pointer is the old
head. -/
def insertEntry (slots : Nat → List (HTTuple ρ)) (t : HTTuple ρ) : Nat → List (HTTuple ρ) :=
  fun s => if s = ht.getSlotIdxForHash (ht.hash t.key) then t :: slots s else slots s

/-- `buildHashSlots`: the chain of every slot. -/
def buildHashSlots : Nat → List (HTTuple ρ) := ht.tuples.foldl ht.insertEntry fun _ => []

/-- `getTupleForHash`, with the tuples that `getPrevTuple` reaches from it. -/
def getTupleForHash (hash : Nat) : List (HTTuple ρ) :=
  ht.buildHashSlots (ht.getSlotIdxForHash hash)

/-- The tuples with key `k`, in the order in which they were appended. -/
def tuplesOf (k : InternalID) : List (HTTuple ρ) := ht.tuples.filter (·.key = k)

theorem foldl_insertEntry (ts : List (HTTuple ρ)) (slots : Nat → List (HTTuple ρ)) (s : Nat) :
    ts.foldl ht.insertEntry slots s =
      (ts.filter fun t => s = ht.getSlotIdxForHash (ht.hash t.key)).reverse ++ slots s := by
  induction ts generalizing slots with
  | nil => rfl
  | cons t ts ih =>
    rw [List.foldl_cons, ih, insertEntry]
    by_cases hs : s = ht.getSlotIdxForHash (ht.hash t.key) <;> simp [hs]

/-- The tuples with key `k` in the chain that a probe with `k` walks: all of them, the last
appended first. -/
theorem filter_getTupleForHash (k : InternalID) :
    (ht.getTupleForHash (ht.hash k)).filter (·.key = k) = (ht.tuplesOf k).reverse := by
  rw [getTupleForHash, buildHashSlots, foldl_insertEntry, List.append_nil, List.filter_reverse, List.filter_filter]
  congr 1
  apply List.filter_congr
  intro t _
  by_cases hk : t.key = k <;> simp [hk]

end JoinHashTable
end CycleJoin
