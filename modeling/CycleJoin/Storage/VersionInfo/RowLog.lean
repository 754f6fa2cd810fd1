import CycleJoin.Storage.VersionInfo.Basic

/-!
# Who inserted and who deleted a row

The transactions on one chunked node group, with a log that says for each row who has inserted it and
who has deleted it. The log is what the versions stand for: a transaction should see the rows that
were inserted before the last checkpoint, by itself or by a transaction that has committed up to its
start, and that were not deleted so.

Rows are appended by one transaction at a time; all others may delete rows that they see. The undo
buffer of a transaction holds a record of each append and of each deletion. A commit goes through
the records from the first to the last, a rollback from the last to the first.
-/

namespace CycleJoin

/-- When a row was inserted or deleted: before the last checkpoint, by a transaction that has
committed, or by an active transaction. -/
inductive Stamp where
  | checkpointed
  | committed (ts : Nat)
  | pending (id : Nat)
  deriving DecidableEq, Repr

namespace Stamp

/-- A transaction sees what has happened at the stamp. -/
def VisibleTo (t : Transaction) : Stamp → Prop
  | checkpointed => True
  | committed ts => ts ≤ t.startTS
  | pending id => id = t.id

instance (t : Transaction) : DecidablePred (VisibleTo t)
  | checkpointed => isTrue trivial
  | committed ts => inferInstanceAs (Decidable (ts ≤ t.startTS))
  | pending id => inferInstanceAs (Decidable (id = t.id))

/-- The version that stands for the stamp. -/
def version : Stamp → Nat
  | checkpointed => 0
  | committed ts => ts
  | pending id => id

/-- The stamp after a transaction has committed. -/
def commit (id ts : Nat) (s : Stamp) : Stamp := if s = pending id then committed ts else s

end Stamp

/-- The log of a chunked node group. -/
structure RowLog where
  numRows : Nat
  insertedBy : Nat → Stamp
  deletedBy : Nat → Option Stamp

namespace RowLog

/-- A transaction sees a row. -/
def Visible (log : RowLog) (t : Transaction) (row : Nat) : Prop :=
  (log.insertedBy row).VisibleTo t ∧ ∀ s ∈ log.deletedBy row, ¬ s.VisibleTo t

instance (log : RowLog) (t : Transaction) (row : Nat) : Decidable (log.Visible t row) :=
  inferInstanceAs (Decidable (_ ∧ _))

def append (id num : Nat) (log : RowLog) : RowLog where
  numRows := log.numRows + num
  insertedBy := fun r => if r < log.numRows then log.insertedBy r else .pending id
  deletedBy := fun r => if r < log.numRows then log.deletedBy r else none

def delete (id row : Nat) (log : RowLog) : RowLog :=
  { log with deletedBy := Function.update log.deletedBy row (some (.pending id)) }

def commit (id ts : Nat) (log : RowLog) : RowLog where
  numRows := log.numRows
  insertedBy := fun r => (log.insertedBy r).commit id ts
  deletedBy := fun r => (log.deletedBy r).map (·.commit id ts)

/-- A transaction rolls back: the rows from its first one on are gone, and its deletions are taken
back. -/
def rollback (id : Nat) (log : RowLog) : RowLog where
  numRows := ((List.range log.numRows).takeWhile fun r => log.insertedBy r ≠ .pending id).length
  insertedBy := log.insertedBy
  deletedBy := fun r => if log.deletedBy r = some (.pending id) then none else log.deletedBy r

end RowLog

/-- A record of the undo buffer: an append or a deletion. -/
inductive VersionRecord where
  | insert (startRow numRows : Nat)
  | delete (row : Nat)
  deriving DecidableEq, Repr

def VersionRecord.IsInsert : VersionRecord → Prop
  | insert _ _ => True
  | delete _ => False

instance : DecidablePred VersionRecord.IsInsert
  | .insert _ _ => isTrue trivial
  | .delete _ => isFalse id

/-- An active transaction with its undo buffer, the newest record first. -/
structure VersionTransaction extends Transaction where
  undoBuffer : List VersionRecord

/-- The transactions on a chunked node group. -/
structure VersionSystem where
  group : ChunkedVersions
  log : RowLog
  lastTimestamp : Nat
  activeTransactions : List VersionTransaction

/-- What a transaction does. -/
inductive VersionEvent where
  | begin (id : Nat)
  | append (id numRows : Nat)
  | delete (id row : Nat)
  | commit (id commitTS : Nat)
  | rollback (id : Nat)

namespace VersionSystem

/-- `commitRecord`. -/
def commitRecord (commitTS : Nat) (group : ChunkedVersions) : VersionRecord → Option ChunkedVersions
  | .insert startRow numRows => group.commitInsert startRow numRows commitTS
  | .delete row => group.commitDelete row 1 commitTS

/-- `rollbackRecord`. -/
def rollbackRecord (group : ChunkedVersions) : VersionRecord → Option ChunkedVersions
  | .insert startRow numRows => group.rollbackInsert startRow numRows
  | .delete row => group.rollbackDelete row 1

def active? (s : VersionSystem) (id : Nat) : Option VersionTransaction :=
  s.activeTransactions.find? (·.id = id)

/-- Pushes a record to the undo buffer of a transaction. -/
def pushRecord (s : VersionSystem) (id : Nat) (record : VersionRecord) : VersionSystem :=
  { s with
    activeTransactions := s.activeTransactions.map fun t =>
      if t.id = id then { t with undoBuffer := record :: t.undoBuffer } else t }

def clearTransaction (s : VersionSystem) (id : Nat) : VersionSystem :=
  { s with activeTransactions := s.activeTransactions.filter (·.id ≠ id) }

/-- One event. An event of a transaction that is not active does nothing. -/
def step (s : VersionSystem) : VersionEvent → Option VersionSystem
  | .begin id =>
    some { s with
      activeTransactions := s.activeTransactions ++ [⟨⟨id, s.lastTimestamp⟩, []⟩] }
  | .append id numRows =>
    match s.active? id with
    | none => some s
    | some _ => (s.group.append id numRows).map fun (group, num) =>
        pushRecord { s with group := group, log := s.log.append id num } id
          (.insert s.group.numRows num)
  | .delete id row =>
    match s.active? id with
    | none => some s
    | some _ =>
      match s.group.delete id row with
      | (group, .deleted) =>
        some (pushRecord { s with group := group, log := s.log.delete id row } id (.delete row))
      | (group, _) => some { s with group := group }
  | .commit id commitTS =>
    match s.active? id with
    | none => some s
    | some t => (t.undoBuffer.reverse.foldlM (commitRecord commitTS) s.group).map fun group =>
        clearTransaction { s with
          group := group, log := s.log.commit id commitTS, lastTimestamp := commitTS } id
  | .rollback id =>
    match s.active? id with
    | none => some s
    | some t => (t.undoBuffer.foldlM rollbackRecord s.group).map fun group =>
        clearTransaction { s with group := group, log := s.log.rollback id } id

def run (s : VersionSystem) : List VersionEvent → Option VersionSystem
  | [] => some s
  | e :: es => (s.step e).bind fun s => run s es

/-- What transactions may do. IDs are distinct and start at `START_TRANSACTION_ID`, timestamps
increase below it. Rows are appended to a group in memory, by one transaction at a time, and a
transaction deletes rows whose insertion it sees. -/
def Allowed (s : VersionSystem) : VersionEvent → Prop
  | .begin id => startTransactionID ≤ id ∧ id < invalidTransaction ∧
      ∀ t ∈ s.activeTransactions, t.id ≠ id
  | .append id numRows => s.group.residencyState = .inMemory ∧ 0 < numRows ∧
      s.group.numRows < s.group.capacity ∧
      ∀ t ∈ s.activeTransactions, t.id ≠ id → ∀ record ∈ t.undoBuffer, ¬ record.IsInsert
  | .delete id row => row < s.group.numRows ∧
      ∀ t ∈ s.activeTransactions, t.id = id → (s.log.insertedBy row).VisibleTo t.toTransaction
  | .commit _ commitTS => s.lastTimestamp < commitTS ∧ commitTS < startTransactionID
  | .rollback _ => True

instance (s : VersionSystem) : DecidablePred s.Allowed
  | .begin _ | .append _ _ | .delete _ _ | .commit _ _ => inferInstanceAs (Decidable (_ ∧ _))
  | .rollback _ => isTrue trivial

def AlwaysAllowed (s : VersionSystem) : List VersionEvent → Prop
  | [] => True
  | e :: es => s.Allowed e ∧ ∀ s' ∈ s.step e, AlwaysAllowed s' es

instance decidableAlwaysAllowed (s : VersionSystem) (es : List VersionEvent) :
    Decidable (s.AlwaysAllowed es) :=
  match es with
  | [] => isTrue trivial
  | _ :: es =>
    have (s' : VersionSystem) : Decidable (s'.AlwaysAllowed es) := decidableAlwaysAllowed s' es
    inferInstanceAs (Decidable (_ ∧ _))

/-- A new group in memory. -/
def inMemory (capacity : Nat) (lastTimestamp : Nat) : VersionSystem where
  group := ⟨.inMemory, capacity, 0, none⟩
  log := ⟨0, fun _ => .checkpointed, fun _ => none⟩
  lastTimestamp := lastTimestamp
  activeTransactions := []

/-- The version information that `NodeGroup::checkpointVersionInfo` leaves for a checkpointed group:
a deletion by transaction 0 for each deleted row. -/
def checkpointVersionInfo (deleted : List Nat) : VersionInfo :=
  deleted.foldl (fun info row => (info.delete 0 row).1) .new

/-- A checkpointed group, with the rows that were deleted before the checkpoint. -/
def onDisk (numRows : Nat) (deleted : List Nat) (lastTimestamp : Nat) : VersionSystem where
  group := ⟨.onDisk, numRows, numRows, some (checkpointVersionInfo deleted)⟩
  log := ⟨numRows, fun _ => .checkpointed, fun r => if r ∈ deleted then some .checkpointed else none⟩
  lastTimestamp := lastTimestamp
  activeTransactions := []

end VersionSystem
end CycleJoin
