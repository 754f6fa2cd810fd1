import CycleJoin.Common.Transaction

/-!
# The catalog set

`catalog/catalog_set.cpp`. A `CatalogSet` maps each name to a chain of versions, the newest first. A
version carries the ID of the transaction that made it until that commits, then the commit timestamp
(`storage/undo_buffer.cpp`). A drop adds a tombstone, a rename drops the old name and creates the new
one. Names are compared without case: `N` stands for names up to case.

Logging, the types of entries and everything an entry says about its table (`D`) are left to the
caller.
-/

namespace CycleJoin

/-- One version of a catalog entry. A dummy entry is deleted and has no content. -/
structure CatalogEntry (D : Type) where
  oid : Nat
  timestamp : Nat
  content : Option D
  deriving DecidableEq, Repr

/-- What a lookup shows of an entry. -/
structure VisibleEntry (D : Type) where
  oid : Nat
  content : D
  deriving DecidableEq, Repr

namespace CatalogEntry

variable {D : Type}

def isDeleted (entry : CatalogEntry D) : Bool := entry.content.isNone

/-- `DummyCatalogEntry`. -/
def dummy (oid : Nat) : CatalogEntry D := ⟨oid, 0, none⟩

/-- The entry that a lookup shows, if the version is not deleted. -/
def shown (entry : CatalogEntry D) : Option (VisibleEntry D) :=
  entry.content.map (⟨entry.oid, ·⟩)

end CatalogEntry

/-- `CatalogSet::entries`. `prev` points from a version to the next one of the list; no version: the
name is not in the map. -/
abbrev CatalogEntries (N D : Type) := N → List (CatalogEntry D)

/-- `CatalogException`. -/
inductive CatalogException (N : Type) where
  /-- "{} does not exist in catalog." -/
  | doesNotExist (name : N)
  /-- "{} already exists in catalog." -/
  | existsInCatalog (name : N)
  /-- "Write-write conflict on creating catalog entry with name {}." -/
  | wwConflict (name : N)
  /-- "Catalog entry with name {} already exists." -/
  | alreadyExists (name : N)
  deriving DecidableEq, Repr

/-- A `CatalogEntry*`: the version of the name that has `older` versions below it. -/
structure EntryPointer (N : Type) where
  name : N
  older : Nat
  deriving DecidableEq, Repr

namespace CatalogEntries

variable {N D : Type} [DecidableEq N]

/-! ## Lookups -/

/-- `traverseVersionChainsForTransactionNoLock`: the chain from the version that it returns. -/
def traverse (t : Transaction) : List (CatalogEntry D) → List (CatalogEntry D)
  | [] => []
  | entry :: prev =>
    if entry.timestamp = t.id then entry :: prev
    else if entry.timestamp ≤ t.startTS then entry :: prev
    else traverse t prev

/-- The entry of a chain that a transaction sees, if it is not deleted. -/
def visible (t : Transaction) (chain : List (CatalogEntry D)) : Option (VisibleEntry D) :=
  (traverse t chain).head?.bind CatalogEntry.shown

section
variable (entries : CatalogEntries N D) (t : Transaction) (name : N)

def containsEntryNoLock : Bool :=
  match traverse t (entries name) with
  | [] => false
  | entry :: _ => !entry.isDeleted

/-- `getEntryNoLock`, with the pointer that it returns. -/
def getEntryNoLock : Except (CatalogException N) (VisibleEntry D × EntryPointer N) :=
  match traverse t (entries name) with
  | [] => .error (.doesNotExist name)
  | entry :: prev =>
    match entry.shown with
    | none => .error (.doesNotExist name)
    | some shown => .ok (shown, ⟨name, prev.length⟩)

/-- `getEntry`. -/
def getEntry : Except (CatalogException N) (VisibleEntry D) :=
  (entries.getEntryNoLock t name).map Prod.fst

end

/-- `getEntries`. The map is iterated in the order `names`. -/
def getEntries (entries : CatalogEntries N D) (names : List N) (t : Transaction) :
    List (N × VisibleEntry D) :=
  names.filterMap fun name => (visible t (entries name)).map (name, ·)

/-- `getEntryOfOID`, with the name under which the entry is found. The map is iterated in the order
`names`. The OID is compared with that of the newest version. -/
def getEntryOfOID (entries : CatalogEntries N D) (t : Transaction) (oid : Nat) :
    List N → Option (N × VisibleEntry D)
  | [] => none
  | name :: names =>
    match entries name with
    | [] => getEntryOfOID entries t oid names
    | entry :: prev =>
      if entry.oid ≠ oid then getEntryOfOID entries t oid names
      else
        match visible t (entry :: prev) with
        | none => getEntryOfOID entries t oid names
        | some shown => some (name, shown)

/-! ## Changes -/

def emplaceNoLock (entries : CatalogEntries N D) (name : N) (entry : CatalogEntry D) :
    CatalogEntries N D :=
  Function.update entries name (entry :: entries name)

def checkWWConflict (t : Transaction) (entry : CatalogEntry D) : Bool :=
  (startTransactionID ≤ entry.timestamp && entry.timestamp != t.id) ||
    (entry.timestamp < startTransactionID && t.startTS < entry.timestamp)

/-- The newest version, as a pointer. -/
def newest (entries : CatalogEntries N D) (name : N) : EntryPointer N :=
  ⟨name, (entries name).length - 1⟩

variable (entries : CatalogEntries N D) (t : Transaction) (name : N) (oid : Nat)

/-- `createEntryNoLock`. It returns the version below the new one. -/
def createEntryNoLock (content : D) : Except (CatalogException N) (CatalogEntries N D × EntryPointer N) :=
  if entries.containsEntryNoLock t name then .error (.existsInCatalog name)
  else
    match entries name with
    | [] =>
      let entries := entries.emplaceNoLock name (.dummy oid)
      .ok (entries.emplaceNoLock name ⟨oid, t.id, some content⟩, entries.newest name)
    | existing :: _ =>
      if checkWWConflict t existing then .error (.wwConflict name)
      else if !existing.isDeleted then .error (.alreadyExists name)
      else .ok (entries.emplaceNoLock name ⟨oid, t.id, some content⟩, entries.newest name)

/-- `dropEntryNoLock`. It returns the version below the tombstone. -/
def dropEntryNoLock : Except (CatalogException N) (CatalogEntries N D × EntryPointer N) :=
  if entries.containsEntryNoLock t name then
    .ok (entries.emplaceNoLock name { CatalogEntry.dummy oid with timestamp := t.id },
      entries.newest name)
  else .error (.doesNotExist name)

end CatalogEntries

/-- `BoundAlterInfo`: what becomes of the content, and the new name if it is a `RENAME`. -/
structure BoundAlterInfo (N D : Type) where
  tableName : N
  alter : D → D
  newName : Option N

namespace CatalogEntries

variable {N D : Type} [DecidableEq N]

/-- `alterTableEntry`, with the versions that it pushes to the undo buffer. A rename whose new name is
refused leaves its tombstone in the chain, without a record. -/
def alterTableEntry (entries : CatalogEntries N D) (t : Transaction) (info : BoundAlterInfo N D) :
    CatalogEntries N D × Except (CatalogException N) (List (EntryPointer N)) :=
  match entries.getEntryNoLock t info.tableName with
  | .error ex => (entries, .error ex)
  | .ok (entry, pointer) =>
    match info.newName with
    | none => (entries.emplaceNoLock info.tableName ⟨entry.oid, t.id, some (info.alter entry.content)⟩,
        .ok [pointer])
    | some newName =>
      match entries.dropEntryNoLock t info.tableName entry.oid with
      | .error ex => (entries, .error ex)
      | .ok (dropped, _) =>
        match dropped.createEntryNoLock t newName entry.oid (info.alter entry.content) with
        | .error ex => (dropped, .error ex)
        | .ok (created, pointer') => (created, .ok [pointer, pointer'])

/-! ## Commit and rollback -/

/-- The version with `older` versions below it gets a timestamp. -/
def setTimestamp (older ts : Nat) : List (CatalogEntry D) → List (CatalogEntry D)
  | [] => []
  | entry :: prev =>
    if prev.length = older then { entry with timestamp := ts } :: prev
    else entry :: setTimestamp older ts prev

/-- The version with `older` versions below it leaves the chain. -/
def unlink (older : Nat) : List (CatalogEntry D) → List (CatalogEntry D)
  | [] => []
  | entry :: prev => if prev.length = older then prev else entry :: unlink older prev

/-- `UndoBuffer::commitCatalogEntryRecord`. The record points to the version below the new one. -/
def commitCatalogEntryRecord (ts : Nat) (entries : CatalogEntries N D) (record : EntryPointer N) :
    CatalogEntries N D :=
  Function.update entries record.name (setTimestamp (record.older + 1) ts (entries record.name))

/-- `UndoBuffer::rollbackCatalogEntryRecord`. -/
def rollbackCatalogEntryRecord (record : EntryPointer N) (entries : CatalogEntries N D) :
    CatalogEntries N D :=
  Function.update entries record.name (unlink (record.older + 1) (entries record.name))

end CatalogEntries

/-! ## Transactions on a catalog set -/

/-- A catalog set with the transaction manager and the undo buffer of the write transaction. -/
structure CatalogSystem (N D : Type) where
  entries : CatalogEntries N D
  nextOID : Nat
  lastTransactionID : Nat := startTransactionID
  lastTimestamp : Nat := 1
  writer : Option Transaction := none
  undoBuffer : List (EntryPointer N) := []

/-- What a database file holds of a catalog set: OIDs are given out once, from `nextOID` on. -/
structure StoredCatalog (N D : Type) where
  entries : N → Option (VisibleEntry D)
  nextOID : Nat
  oid_lt : ∀ {name entry}, entries name = some entry → entry.oid < nextOID
  oid_inj : ∀ {name name' entry entry'}, entries name = some entry → entries name' = some entry' →
    entry.oid = entry'.oid → name = name'

/-- What transactions ask for. Names and contents are those of the statement. -/
inductive CatalogCommand (N D : Type) where
  | beginRead
  | beginWrite
  /-- `getNextOID`, for the tables of a relationship group. -/
  | takeOID
  | create (name : N) (content : D)
  | drop (name : N)
  | alter (info : BoundAlterInfo N D)
  | commit
  | rollback

namespace CatalogSystem

variable {N D : Type} [DecidableEq N]

section
variable (s : CatalogSystem N D)

/-- `createEntry`. The OID is used up also when the entry is refused. -/
def createEntry (t : Transaction) (name : N) (content : D) : CatalogSystem N D :=
  match s.entries.createEntryNoLock t name s.nextOID content with
  | .error _ => { s with nextOID := s.nextOID + 1 }
  | .ok (entries, pointer) =>
    { s with entries := entries, nextOID := s.nextOID + 1, undoBuffer := s.undoBuffer ++ [pointer] }

/-- `Catalog::dropTableEntry`: the name and the OID are those of the entry that the transaction sees. -/
def dropTableEntry (t : Transaction) (name : N) : CatalogSystem N D :=
  match s.entries.getEntryNoLock t name with
  | .error _ => s
  | .ok (entry, _) =>
    match s.entries.dropEntryNoLock t name entry.oid with
    | .error _ => s
    | .ok (entries, pointer) =>
      { s with entries := entries, undoBuffer := s.undoBuffer ++ [pointer] }

/-- `checkRenameTableConflicts` of `processor/operator/ddl/alter.cpp`. -/
def renameConflicts (t : Transaction) (info : BoundAlterInfo N D) : Bool :=
  info.newName.any (s.entries.containsEntryNoLock t)

/-- `Alter::executeInternal`, with the part of `alterTable` that changes the catalog. -/
def alterTable (t : Transaction) (info : BoundAlterInfo N D) : CatalogSystem N D :=
  if s.renameConflicts t info then s
  else
    match s.entries.alterTableEntry t info with
    | (entries, .error _) => { s with entries := entries }
    | (entries, .ok pointers) => { s with entries := entries, undoBuffer := s.undoBuffer ++ pointers }

/-- `TransactionManager::commit`: the records are committed from the first to the last. -/
def commit : CatalogSystem N D :=
  let commitTS := s.lastTimestamp + 1
  { s with
    lastTimestamp := commitTS
    entries := s.undoBuffer.foldl (CatalogEntries.commitCatalogEntryRecord commitTS) s.entries
    writer := none
    undoBuffer := [] }

/-- `TransactionManager::rollback`: the records are taken back from the last to the first. -/
def rollback : CatalogSystem N D :=
  { s with
    entries := s.undoBuffer.foldr CatalogEntries.rollbackCatalogEntryRecord s.entries
    writer := none
    undoBuffer := [] }

/-- One write transaction at a time: a second one is refused, and the commands of a write transaction
need one. -/
def step : CatalogCommand N D → CatalogSystem N D
  | .beginRead => { s with lastTransactionID := s.lastTransactionID + 1 }
  | .beginWrite =>
    match s.writer with
    | some _ => s
    | none =>
      { s with
        lastTransactionID := s.lastTransactionID + 1
        writer := some ⟨s.lastTransactionID + 1, s.lastTimestamp⟩ }
  | .takeOID => { s with nextOID := s.nextOID + 1 }
  | .create name content => s.writer.elim s (s.createEntry · name content)
  | .drop name => s.writer.elim s (s.dropTableEntry · name)
  | .alter info => s.writer.elim s (s.alterTable · info)
  | .commit => s.writer.elim s fun _ => s.commit
  | .rollback => s.writer.elim s fun _ => s.rollback

def run (commands : List (CatalogCommand N D)) : CatalogSystem N D :=
  commands.foldl step s

end

/-- `CatalogSet::deserialize`: the entries of the database file, with `DUMMY_START_TIMESTAMP`. A new
database has none. -/
def load (stored : StoredCatalog N D) : CatalogSystem N D where
  entries := fun name =>
    ((stored.entries name).map fun entry => ⟨entry.oid, 0, some entry.content⟩).toList
  nextOID := stored.nextOID

end CatalogSystem

end CycleJoin
