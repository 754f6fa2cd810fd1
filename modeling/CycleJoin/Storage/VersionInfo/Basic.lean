import CycleJoin.Common.Constants
import CycleJoin.Common.Transaction

/-!
# Versions of inserted and deleted rows

`VersionInfo` (`storage/table/version_info.cpp`) says for each row of a chunked node group which
transaction has inserted it and which one has deleted it. The rows are split into vectors. The
versions of a vector are kept in two arrays, which are allocated when they are needed: rows that
are all inserted by one transaction share the field `sameInsertionVersion`, and the rows of a
checkpointed vector need no versions at all.

A version is a transaction ID until the transaction commits, and the commit timestamp afterwards.
An operation that reads an array that is not allocated has no result (`none`).
-/

namespace CycleJoin

/-- `INVALID_TRANSACTION`. -/
def invalidTransaction : Nat := 2 ^ 64 - 1

/-- `VectorVersionInfo::InsertionStatus`. -/
inductive InsertionStatus where
  | noInserted
  | checkVersion
  | alwaysInserted
  deriving DecidableEq, Repr

/-- `VectorVersionInfo::DeletionStatus`. -/
inductive DeletionStatus where
  | noDeleted
  | checkVersion
  deriving DecidableEq, Repr

/-- What `delete_` does: it returns true or false, or throws. -/
inductive DeleteResult where
  | deleted
  | alreadyDeleted
  | conflict (message : String)
  deriving DecidableEq, Repr

/-- The message of the exception that `delete_` throws. -/
def deleteConflict : String :=
  "Write-write conflict: deleting a row that is already deleted by another transaction."

/-! ## One vector -/

/-- `VectorVersionInfo`. -/
structure VectorVersionInfo where
  insertedVersions : Option (Nat → Nat)
  deletedVersions : Option (Nat → Nat)
  sameInsertionVersion : Nat
  sameDeletionVersion : Nat
  insertionStatus : InsertionStatus
  deletionStatus : DeletionStatus

/-- An array filled with `INVALID_TRANSACTION`. -/
def invalidVersions : Nat → Nat := fun _ => invalidTransaction

/-- Sets the versions of `numRows` rows from `startRow` on. -/
def setVersions (versions : Nat → Nat) (startRow numRows version : Nat) : Nat → Nat :=
  fun i => if startRow ≤ i ∧ i < startRow + numRows then version else versions i

/-- Some version of an array is valid. -/
def hasAnyVersion (versions : Nat → Nat) : Prop :=
  ∃ i < defaultVectorCapacity, versions i ≠ invalidTransaction

instance (versions : Nat → Nat) : Decidable (hasAnyVersion versions) :=
  inferInstanceAs (Decidable (∃ i < defaultVectorCapacity, versions i ≠ invalidTransaction))

namespace VectorVersionInfo

/-- `VectorVersionInfo()`. -/
def new : VectorVersionInfo :=
  ⟨none, none, invalidTransaction, invalidTransaction, .noInserted, .noDeleted⟩

/-- `append`. -/
def append (transactionID startRow numRows : Nat) (info : VectorVersionInfo) : VectorVersionInfo :=
  let info := { info with insertionStatus := .checkVersion }
  if transactionID = info.sameInsertionVersion then info
  else
    match info.insertedVersions with
    | some versions =>
      { info with insertedVersions := some (setVersions versions startRow numRows transactionID) }
    | none =>
      if info.sameInsertionVersion = invalidTransaction then
        -- No insertions before, and no need to allocate array.
        { info with sameInsertionVersion := transactionID }
      else
        let versions := setVersions invalidVersions 0 startRow info.sameInsertionVersion
        { info with
          insertedVersions := some (setVersions versions startRow numRows transactionID)
          sameInsertionVersion := invalidTransaction }

/-- `delete_`. It marks the vector before it looks for a conflict. -/
def delete (transactionID rowIdx : Nat) (info : VectorVersionInfo) : VectorVersionInfo × DeleteResult :=
  let info := { info with deletionStatus := .checkVersion }
  if transactionID = info.sameDeletionVersion then (info, .alreadyDeleted)
  else if info.sameDeletionVersion ≠ invalidTransaction then (info, .conflict deleteConflict)
  else
    let versions := info.deletedVersions.getD invalidVersions
    let info := { info with deletedVersions := some versions }
    if versions rowIdx = transactionID then (info, .alreadyDeleted)
    else if versions rowIdx ≠ invalidTransaction then (info, .conflict deleteConflict)
    else ({ info with deletedVersions := some (setVersions versions rowIdx 1 transactionID) }, .deleted)

/-- `setInsertCommitTS`. -/
def setInsertCommitTS (commitTS startRow numRows : Nat) (info : VectorVersionInfo) :
    Option VectorVersionInfo :=
  if info.sameInsertionVersion ≠ invalidTransaction then
    some { info with sameInsertionVersion := commitTS }
  else info.insertedVersions.map fun versions =>
    { info with insertedVersions := some (setVersions versions startRow numRows commitTS) }

/-- `setDeleteCommitTS`. -/
def setDeleteCommitTS (commitTS startRow numRows : Nat) (info : VectorVersionInfo) :
    Option VectorVersionInfo :=
  if info.sameDeletionVersion ≠ invalidTransaction then
    some { info with sameDeletionVersion := commitTS }
  else info.deletedVersions.map fun versions =>
    { info with deletedVersions := some (setVersions versions startRow numRows commitTS) }

section
variable (t : Transaction) (rowIdx : Nat) (info : VectorVersionInfo)

/-- `isDeleted`. -/
def isDeleted : Option Bool :=
  match info.deletionStatus with
  | .noDeleted => some false
  | .checkVersion =>
    (if info.sameDeletionVersion ≠ invalidTransaction then some info.sameDeletionVersion
      else info.deletedVersions.map (· rowIdx)).map fun deletion =>
        deletion = t.id ∨ deletion ≤ t.startTS

/-- `isInserted`. -/
def isInserted : Option Bool :=
  match info.insertionStatus with
  | .alwaysInserted => some true
  | .noInserted => some false
  | .checkVersion =>
    (if info.sameInsertionVersion ≠ invalidTransaction then some info.sameInsertionVersion
      else info.insertedVersions.map (· rowIdx)).map fun insertion =>
        insertion = t.id ∨ insertion ≤ t.startTS

/-- `isSelected`. -/
def isSelected : Option Bool :=
  if info.deletionStatus = .noDeleted ∧ info.insertionStatus = .alwaysInserted then some true
  else if info.insertionStatus = .noInserted then some false
  else
    match info.isInserted t rowIdx with
    | none => none
    | some false => some false
    | some true => (info.isDeleted t rowIdx).map (!·)

end

/-- The end of both rollbacks: an array without a valid version is freed. -/
def freeIfInvalid (versions : Nat → Nat) : Option (Nat → Nat) :=
  if hasAnyVersion versions then some versions else none

/-- A vector without insertions has no deletions either. -/
def clearIfNotInserted (info : VectorVersionInfo) : VectorVersionInfo :=
  match info.insertedVersions with
  | none => { info with insertionStatus := .noInserted, deletionStatus := .noDeleted }
  | some _ => info

/-- `rollbackInsertions`. -/
def rollbackInsertions (startRow numRows : Nat) (info : VectorVersionInfo) : VectorVersionInfo :=
  clearIfNotInserted <| if info.sameInsertionVersion ≠ invalidTransaction then
      { info with sameInsertionVersion := invalidTransaction }
    else
      { info with
        insertedVersions := info.insertedVersions.bind fun versions =>
          freeIfInvalid (setVersions versions startRow numRows invalidTransaction) }

/-- A vector whose array of deletions is freed has no deletions. -/
def clearIfNotDeleted (info : VectorVersionInfo) : VectorVersionInfo :=
  match info.deletedVersions with
  | none => { info with deletionStatus := .noDeleted }
  | some _ => info

/-- `rollbackDeletions`. -/
def rollbackDeletions (startRow numRows : Nat) (info : VectorVersionInfo) : VectorVersionInfo :=
  clearIfNotDeleted <| if info.sameDeletionVersion ≠ invalidTransaction then
      { info with sameDeletionVersion := invalidTransaction }
    else
      { info with
        deletedVersions := info.deletedVersions.bind fun versions =>
          freeIfInvalid (setVersions versions startRow numRows invalidTransaction) }

end VectorVersionInfo

/-! ## All vectors -/

/-- `VersionInfo`. A vector without an entry is `none`. -/
structure VersionInfo where
  vectorsInfo : Nat → Option VectorVersionInfo

/-- The first row of a vector that belongs to the rows from `startRow` on. -/
def startRowInVector (startRow vectorIdx : Nat) : Nat :=
  if vectorIdx = startRow / defaultVectorCapacity then startRow % defaultVectorCapacity else 0

/-- The last row of a vector that belongs to the rows up to `endRow`. -/
def endRowInVector (endRow vectorIdx : Nat) : Nat :=
  if vectorIdx = endRow / defaultVectorCapacity then endRow % defaultVectorCapacity
  else defaultVectorCapacity - 1

namespace VersionInfo

/-- `VersionInfo()`. -/
def new : VersionInfo := ⟨fun _ => none⟩

/-- `getOrCreateVersionInfo`. -/
def getOrCreateVersionInfo (info : VersionInfo) (vectorIdx : Nat) : VectorVersionInfo :=
  (info.vectorsInfo vectorIdx).getD .new

def set (info : VersionInfo) (vectorIdx : Nat) (vector : VectorVersionInfo) : VersionInfo :=
  ⟨Function.update info.vectorsInfo vectorIdx (some vector)⟩

/-- The loop over `count` vectors from `vectorIdx` on that `append`, `commitInsert` and the other
operations on a range of rows share. -/
def onVectorsFrom (f : Nat → Nat → VectorVersionInfo → Option VectorVersionInfo)
    (startRow endRow : Nat) : Nat → Nat → VersionInfo → Option VersionInfo
  | 0, _, info => some info
  | count + 1, vectorIdx, info =>
    let start := startRowInVector startRow vectorIdx
    let num := endRowInVector endRow vectorIdx - start + 1
    match f start num (info.getOrCreateVersionInfo vectorIdx) with
    | none => none
    | some vector =>
      onVectorsFrom f startRow endRow count (vectorIdx + 1) (info.set vectorIdx vector)

/-- An operation on `numRows` rows from `startRow` on. -/
def onVectors (f : Nat → Nat → VectorVersionInfo → Option VectorVersionInfo)
    (startRow numRows : Nat) (info : VersionInfo) : Option VersionInfo :=
  if numRows = 0 then some info
  else
    let endRow := startRow + numRows - 1
    let startVectorIdx := startRow / defaultVectorCapacity
    onVectorsFrom f startRow endRow (endRow / defaultVectorCapacity + 1 - startVectorIdx)
      startVectorIdx info

/-- `append`. -/
def append (transactionID startRow numRows : Nat) : VersionInfo → Option VersionInfo :=
  onVectors (fun start num vector => some (vector.append transactionID start num)) startRow numRows

/-- `commitInsert`. -/
def commitInsert (startRow numRows commitTS : Nat) : VersionInfo → Option VersionInfo :=
  onVectors (VectorVersionInfo.setInsertCommitTS commitTS) startRow numRows

/-- `rollbackInsert`. -/
def rollbackInsert (startRow numRows : Nat) : VersionInfo → Option VersionInfo :=
  onVectors (fun start num vector => some (vector.rollbackInsertions start num)) startRow numRows

/-- `commitDelete`. -/
def commitDelete (startRow numRows commitTS : Nat) : VersionInfo → Option VersionInfo :=
  onVectors (VectorVersionInfo.setDeleteCommitTS commitTS) startRow numRows

/-- `rollbackDelete`. -/
def rollbackDelete (startRow numRows : Nat) : VersionInfo → Option VersionInfo :=
  onVectors (fun start num vector => some (vector.rollbackDeletions start num)) startRow numRows

/-- `delete_`. A vector that is not inserted since the last checkpoint holds checkpointed rows. -/
def delete (transactionID rowIdx : Nat) (info : VersionInfo) : VersionInfo × DeleteResult :=
  let vectorIdx := rowIdx / defaultVectorCapacity
  let vector := info.getOrCreateVersionInfo vectorIdx
  let vector :=
    if vector.insertionStatus = .noInserted then { vector with insertionStatus := .alwaysInserted }
    else vector
  let (vector, result) := vector.delete transactionID (rowIdx % defaultVectorCapacity)
  (info.set vectorIdx vector, result)

/-- `isSelected`. -/
def isSelected (t : Transaction) (rowIdx : Nat) (info : VersionInfo) : Option Bool :=
  match info.vectorsInfo (rowIdx / defaultVectorCapacity) with
  | some vector => vector.isSelected t (rowIdx % defaultVectorCapacity)
  | none => some true

end VersionInfo

/-! ## A chunked node group -/

/-- `ResidencyState`. -/
inductive ResidencyState where
  | inMemory
  | onDisk
  deriving DecidableEq, Repr

/-- The rows of a `ChunkedNodeGroup` and their versions (`storage/table/chunked_node_group.cpp`). -/
structure ChunkedVersions where
  residencyState : ResidencyState
  capacity : Nat
  numRows : Nat
  versionInfo : Option VersionInfo

namespace ChunkedVersions

/-- `append`: the number of rows that it appends. -/
def append (transactionID numRowsToAppend : Nat) (group : ChunkedVersions) :
    Option (ChunkedVersions × Nat) :=
  let num := min numRowsToAppend (group.capacity - group.numRows)
  (VersionInfo.append transactionID group.numRows num (group.versionInfo.getD .new)).map fun info =>
    ({ group with versionInfo := some info, numRows := group.numRows + num }, num)

/-- `delete_`. -/
def delete (transactionID rowIdx : Nat) (group : ChunkedVersions) : ChunkedVersions × DeleteResult :=
  let (info, result) := (group.versionInfo.getD .new).delete transactionID rowIdx
  ({ group with versionInfo := some info }, result)

/-- `commitInsert`. -/
def commitInsert (startRow numRows commitTS : Nat) (group : ChunkedVersions) : Option ChunkedVersions :=
  (group.versionInfo.bind (VersionInfo.commitInsert startRow numRows commitTS)).map fun info =>
    { group with versionInfo := some info }

/-- `rollbackInsert`. -/
def rollbackInsert (startRow numRows : Nat) (group : ChunkedVersions) : Option ChunkedVersions :=
  if startRow = 0 then some { group with numRows := 0, versionInfo := none }
  else if startRow ≥ group.numRows then some group
  else (group.versionInfo.bind (VersionInfo.rollbackInsert startRow numRows)).map fun info =>
    { group with versionInfo := some info, numRows := startRow }

/-- `commitDelete`. -/
def commitDelete (startRow numRows commitTS : Nat) (group : ChunkedVersions) : Option ChunkedVersions :=
  (group.versionInfo.bind (VersionInfo.commitDelete startRow numRows commitTS)).map fun info =>
    { group with versionInfo := some info }

/-- `rollbackDelete`. -/
def rollbackDelete (startRow numRows : Nat) (group : ChunkedVersions) : Option ChunkedVersions :=
  (group.versionInfo.bind (VersionInfo.rollbackDelete startRow numRows)).map fun info =>
    { group with versionInfo := some info }

def isSelected (t : Transaction) (rowIdx : Nat) (group : ChunkedVersions) : Option Bool :=
  match group.versionInfo with
  | some info => info.isSelected t rowIdx
  | none => some true

end ChunkedVersions
end CycleJoin
