import Mathlib

/-!
# Disk arrays

A disk array (`storage/disk_array.cpp`) keeps its elements in array pages (APs). The pages of the APs
are listed in page index pages (PIPs). The write transaction works on its own header, on a copy of the
last PIP and on new PIPs; pages of the array that are on disk are written as shadow pages, pages that are
new to the transaction in place. A checkpoint makes the changes the array, a rollback drops them.

A page is a function from positions to elements. `none` is `INVALID_PAGE_IDX`, and the result of a call
that reads past the end of a vector. The pages that hold PIPs and headers are read only when a file is
opened; they are not here.
-/

namespace CycleJoin

/-- The transactions that access a disk array. -/
inductive TransactionType where
  | readOnly
  | checkpoint
deriving DecidableEq, Repr

/-- `NUM_PAGE_IDXS_PER_PIP`: a page of 4096 bytes without the index of the next PIP. -/
def numPageIdxsPerPIP : Nat := 1023

structure DiskArrayHeader where
  numElements : Nat
  firstPIPPageIdx : Option Nat
deriving DecidableEq, Repr

structure PIP where
  nextPipPageIdx : Option Nat
  pageIdxs : Nat → Option Nat

def PIP.new : PIP := ⟨none, fun _ => none⟩

structure PIPWrapper where
  pipPageIdx : Nat
  pipContents : PIP

def PIPWrapper.setPageIdx (pip : PIPWrapper) (offset pageIdx : Nat) : PIPWrapper :=
  { pip with
    pipContents :=
      { pip.pipContents with
        pageIdxs := Function.update pip.pipContents.pageIdxs offset (some pageIdx) } }

def PIPWrapper.setNext (pip : PIPWrapper) (nextPIPPageIdx : Nat) : PIPWrapper :=
  { pip with pipContents := { pip.pipContents with nextPipPageIdx := some nextPIPPageIdx } }

structure PIPUpdates where
  updatedLastPIP : Option PIPWrapper
  newPIPs : List PIPWrapper

def PIPUpdates.empty : PIPUpdates := ⟨none, []⟩

/-- A `DiskArrayInternal` with its headers, its file and the shadow pages of the file. -/
structure DiskArray (α : Type*) where
  numElementsPerPage : Nat
  numElementsPerPage_pos : 0 < numElementsPerPage
  header : DiskArrayHeader
  headerForWriteTrx : DiskArrayHeader
  hasTransactionalUpdates : Bool
  pips : List PIPWrapper
  pipUpdates : PIPUpdates
  lastAPPageIdx : Option Nat
  lastPageOnDisk : Option Nat
  file : Nat → Nat → α
  shadowPages : Nat → Option (Nat → α)

/-- The pages that the allocator returns: for an array page and, if need be, for a PIP. -/
structure PageSupply where
  apPageIdx : Nat
  pipPageIdx : Nat
deriving DecidableEq, Repr

/-- The page that a `WriteIterator` has pinned. -/
inductive Frame where
  | shadow (originalPage : Nat)
  | original (originalPage : Nat)
deriving DecidableEq, Repr

structure WriteIterator where
  apIdx : Option Nat
  elemPosInPage : Nat
  idx : Nat
  frame : Option Frame
deriving DecidableEq, Repr

/-- An iterator before its first `seek` or `pushBack`. -/
def WriteIterator.new : WriteIterator := ⟨none, 0, 0, none⟩

/-- The element of an iterator that has a page. -/
def WriteIterator.position (iter : WriteIterator) : Option Nat := iter.frame.map fun _ => iter.idx

namespace DiskArray

variable {α : Type*}

/-! ## Reading -/

def getDiskArrayHeader (array : DiskArray α) : TransactionType → DiskArrayHeader
  | .checkpoint => array.headerForWriteTrx
  | .readOnly => array.header

def getNumElements (trxType : TransactionType) (array : DiskArray α) : Nat :=
  (array.getDiskArrayHeader trxType).numElements

def getNumAPs (header : DiskArrayHeader) (array : DiskArray α) : Nat :=
  (header.numElements + array.numElementsPerPage - 1) / array.numElementsPerPage

/-- `hasPIPUpdatesNoLock`. -/
def hasPIPUpdates (pipIdx : Nat) (array : DiskArray α) : Prop :=
  array.pips.length ≤ pipIdx ∨
    (pipIdx + 1 = array.pips.length ∧ array.pipUpdates.updatedLastPIP.isSome)

instance (pipIdx : Nat) (array : DiskArray α) : Decidable (array.hasPIPUpdates pipIdx) :=
  inferInstanceAs (Decidable (_ ∨ _))

/-- The PIP that a transaction reads. -/
def getPIP (pipIdx : Nat) (trxType : TransactionType) (array : DiskArray α) : Option PIPWrapper :=
  if trxType ≠ .checkpoint ∨ ¬ array.hasPIPUpdates pipIdx then array.pips[pipIdx]?
  else if pipIdx + 1 = array.pips.length ∧ array.pipUpdates.updatedLastPIP.isSome then
    array.pipUpdates.updatedLastPIP
  else array.pipUpdates.newPIPs[pipIdx - array.pips.length]?

/-- `getAPPageIdxNoLock`. -/
def getAPPageIdx (apIdx : Nat) (trxType : TransactionType) (array : DiskArray α) : Option Nat :=
  (array.getPIP (apIdx / numPageIdxsPerPIP) trxType).bind fun pip =>
    pip.pipContents.pageIdxs (apIdx % numPageIdxsPerPIP)

/-- `pageIdx <= lastPageOnDisk`: the page was there before the transaction. All pages are, when
`lastPageOnDisk` is `INVALID_PAGE_IDX`. -/
def isOnDisk (pageIdx : Nat) (array : DiskArray α) : Prop :=
  ∀ last ∈ array.lastPageOnDisk, pageIdx ≤ last

instance (pageIdx : Nat) (array : DiskArray α) : Decidable (array.isOnDisk pageIdx) :=
  inferInstanceAs (Decidable (∀ last ∈ array.lastPageOnDisk, pageIdx ≤ last))

/-- The version of a page that `get` reads. -/
def readPage (pageIdx : Nat) (trxType : TransactionType) (array : DiskArray α) : Nat → α :=
  if trxType ≠ .checkpoint ∨ ¬ array.hasTransactionalUpdates ∨ ¬ array.isOnDisk pageIdx then
    array.file pageIdx
  else (array.shadowPages pageIdx).getD (array.file pageIdx)

def get (idx : Nat) (trxType : TransactionType) (array : DiskArray α) : Option α :=
  (array.getAPPageIdx (idx / array.numElementsPerPage) trxType).map fun pageIdx =>
    array.readPage pageIdx trxType (idx % array.numElementsPerPage)

/-! ## Writing a page -/

/-- `createShadowVersionIfNecessaryAndPinPage`. The contents of a new page, which are not read from the
file, are left as they are there. -/
def createShadowVersionIfNecessary (pageIdx : Nat) (array : DiskArray α) : DiskArray α :=
  { array with
    shadowPages := Function.update array.shadowPages pageIdx
      (some ((array.shadowPages pageIdx).getD (array.file pageIdx))) }

/-- Writes an element to a pinned page. -/
def writeFrame (frame : Frame) (pos : Nat) (val : α) (array : DiskArray α) : DiskArray α :=
  match frame with
  | .shadow page =>
    { array with
      shadowPages := Function.update array.shadowPages page
        ((array.shadowPages page).map fun contents => Function.update contents pos val) }
  | .original page =>
    { array with file := Function.update array.file page (Function.update (array.file page) pos val) }

/-- Pins a page to write it. -/
def pinPage (pageIdx : Nat) (array : DiskArray α) : Frame × DiskArray α :=
  if array.isOnDisk pageIdx then (.shadow pageIdx, array.createShadowVersionIfNecessary pageIdx)
  else (.original pageIdx, array)

/-- `update`, with `updatePage`. -/
def update (idx : Nat) (val : α) (array : DiskArray α) : Option (DiskArray α) :=
  (array.getAPPageIdx (idx / array.numElementsPerPage) .checkpoint).map fun apPageIdx =>
    let pinned := { array with hasTransactionalUpdates := true }.pinPage apPageIdx
    pinned.2.writeFrame pinned.1 (idx % array.numElementsPerPage) val

/-! ## Adding an array page -/

/-- `setNextPIPPageIDxOfPIPNoLock`. There is no previous PIP when the first one is added. -/
def setNextPIPPageIdxOfPIP (pipIdxOfPreviousPIP : Option Nat) (nextPIPPageIdx : Nat)
    (array : DiskArray α) : Option (DiskArray α) :=
  match pipIdxOfPreviousPIP with
  | none =>
    some { array with
      headerForWriteTrx := { array.headerForWriteTrx with firstPIPPageIdx := some nextPIPPageIdx } }
  | some previous =>
    let setNewPIP (updates : PIPUpdates) (newIdx : Nat) : DiskArray α :=
      { array with
        pipUpdates :=
          { updates with newPIPs := updates.newPIPs.modify newIdx (·.setNext nextPIPPageIdx) } }
    if array.pips = [] then some (setNewPIP array.pipUpdates previous)
    else
      match array.pipUpdates.updatedLastPIP <|> array.pips[previous]? with
      | none => none
      | some updatedLastPIP =>
        if previous + 1 = array.pips.length then
          some { array with
            pipUpdates :=
              { array.pipUpdates with
                updatedLastPIP := some (updatedLastPIP.setNext nextPIPPageIdx) } }
        else
          some (setNewPIP { array.pipUpdates with updatedLastPIP := some updatedLastPIP }
            (previous - array.pips.length))

/-- Creates a PIP that is new to the transaction. -/
def addPIP (pipPageIdx : Nat) (array : DiskArray α) : DiskArray α :=
  { array with
    pipUpdates :=
      { array.pipUpdates with newPIPs := array.pipUpdates.newPIPs ++ [⟨pipPageIdx, .new⟩] } }

/-- Sets a page index of a PIP that is new to the transaction. -/
def setPageIdxOfNewPIP (i offset pageIdx : Nat) (array : DiskArray α) : DiskArray α :=
  { array with
    pipUpdates :=
      { array.pipUpdates with
        newPIPs := array.pipUpdates.newPIPs.modify i (·.setPageIdx offset pageIdx) } }

/-- `getAPPageIdxAndAddAPToPIPIfNecessaryForWriteTrxNoLock`: the page, whether it is a new one, and the
array with it. -/
def getAPPageIdxAndAddAPToPIPIfNecessary (supply : PageSupply) (apIdx : Nat) (array : DiskArray α) :
    Option (Nat × Bool × DiskArray α) :=
  let numAPs := array.getNumAPs array.headerForWriteTrx
  if apIdx + 1 = numAPs ∧ array.lastAPPageIdx.isSome then
    array.lastAPPageIdx.map fun pageIdx => (pageIdx, false, array)
  else if apIdx < numAPs then
    (array.getAPPageIdx apIdx .checkpoint).map fun pageIdx => (pageIdx, false, array)
  else
    let newAPPageIdx := supply.apPageIdx
    let pipIdx := apIdx / numPageIdxsPerPIP
    let offsetOfNewAPInPIP := apIdx % numPageIdxsPerPIP
    if pipIdx < array.pips.length then
      (array.pipUpdates.updatedLastPIP <|> array.pips[pipIdx]?).map fun updatedLastPIP =>
        (newAPPageIdx, true, { array with
            pipUpdates :=
              { array.pipUpdates with
                updatedLastPIP := some (updatedLastPIP.setPageIdx offsetOfNewAPInPIP newAPPageIdx) } })
    else if pipIdx - array.pips.length < array.pipUpdates.newPIPs.length then
      some (newAPPageIdx, true,
        array.setPageIdxOfNewPIP (pipIdx - array.pips.length) offsetOfNewAPInPIP newAPPageIdx)
    else
      let pipIdxOfPreviousPIP := if pipIdx = 0 then none else some (pipIdx - 1)
      ((array.addPIP supply.pipPageIdx).setNextPIPPageIdxOfPIP pipIdxOfPreviousPIP
          supply.pipPageIdx).map fun linked =>
        (newAPPageIdx, true,
          linked.setPageIdxOfNewPIP (linked.pipUpdates.newPIPs.length - 1) offsetOfNewAPInPIP
            newAPPageIdx)

/-! ## Write iterators -/

/-- `iter_mut`. -/
def iterMut (array : DiskArray α) : WriteIterator × DiskArray α :=
  (.new, { array with hasTransactionalUpdates := true })

/-- `WriteIterator::getPage`. -/
def getPage (newPageIdx : Nat) (iter : WriteIterator) (array : DiskArray α) :
    WriteIterator × DiskArray α :=
  let pinned := array.pinPage newPageIdx
  ({ iter with frame := some pinned.1 }, pinned.2)

/-- `WriteIterator::seek`. -/
def seek (newIdx : Nat) (iter : WriteIterator) (array : DiskArray α) :
    Option (WriteIterator × DiskArray α) :=
  let apIdx := newIdx / array.numElementsPerPage
  let moved : WriteIterator := ⟨some apIdx, newIdx % array.numElementsPerPage, newIdx, iter.frame⟩
  if iter.apIdx ≠ some apIdx then
    (array.getAPPageIdx apIdx .checkpoint).map fun apPageIdx => array.getPage apPageIdx moved
  else some (moved, array)

/-- Assigns to `*iter`. -/
def assign (val : α) (iter : WriteIterator) (array : DiskArray α) : Option (DiskArray α) :=
  iter.frame.map fun frame => array.writeFrame frame iter.elemPosInPage val

/-- Counts a new element on the last array page. -/
def countElement (apPageIdx : Nat) (array : DiskArray α) : DiskArray α :=
  { array with
    lastAPPageIdx := some apPageIdx
    headerForWriteTrx :=
      { array.headerForWriteTrx with numElements := array.headerForWriteTrx.numElements + 1 } }

/-- `WriteIterator::pushBack`. -/
def pushBack (supply : PageSupply) (val : α) (iter : WriteIterator) (array : DiskArray α) :
    Option (WriteIterator × DiskArray α) :=
  let idx := array.headerForWriteTrx.numElements
  let apIdx := idx / array.numElementsPerPage
  let moved : WriteIterator := ⟨some apIdx, idx % array.numElementsPerPage, idx, iter.frame⟩
  (array.getAPPageIdxAndAddAPToPIPIfNecessary supply apIdx).bind fun (apPageIdx, isNewlyAdded, added) =>
    let counted := added.countElement apPageIdx
    let pinned :=
      if isNewlyAdded ∨ iter.frame = none ∨ iter.apIdx ≠ some apIdx then
        counted.getPage apPageIdx moved
      else (moved, counted)
    (pinned.2.assign val pinned.1).map fun written => (pinned.1, written)

/-- The loop of `resize`, for a number of missing elements. -/
def pushBacks (supply : Nat → PageSupply) (defaultVal : α) :
    Nat → WriteIterator → DiskArray α → Option (DiskArray α)
  | 0, _, array => some array
  | missing + 1, iter, array => do
    let (iter', array') ←
      array.pushBack (supply array.headerForWriteTrx.numElements) defaultVal iter
    pushBacks supply defaultVal missing iter' array'

def resize (supply : Nat → PageSupply) (newNumElements : Nat) (defaultVal : α) (array : DiskArray α) :
    Option (DiskArray α) :=
  let it := array.iterMut
  pushBacks supply defaultVal (newNumElements - array.headerForWriteTrx.numElements) it.1 it.2

/-! ## Checkpoint and rollback -/

section
variable (array : DiskArray α)

def updateLastPageOnDisk : DiskArray α :=
  let numElements := array.header.numElements
  if numElements > 0 then
    { array with
      lastPageOnDisk := array.getAPPageIdx ((numElements - 1) / array.numElementsPerPage) .readOnly }
  else { array with lastPageOnDisk := some 0 }

/-- `checkpointInMemoryIfNecessary`. -/
def checkpointInMemoryIfNecessary : DiskArray α :=
  if array.hasTransactionalUpdates then
    let pips :=
      match array.pipUpdates.updatedLastPIP with
      | some updatedLastPIP => array.pips.dropLast ++ [updatedLastPIP]
      | none => array.pips
    let merged :=
      { array with
        pips := pips ++ array.pipUpdates.newPIPs
        pipUpdates := .empty
        hasTransactionalUpdates := false }
    if array.lastPageOnDisk ≠ none then merged.updateLastPageOnDisk else merged
  else array

/-- `rollbackInMemoryIfNecessary`. -/
def rollbackInMemoryIfNecessary : DiskArray α :=
  if array.hasTransactionalUpdates then
    { array with pipUpdates := .empty, hasTransactionalUpdates := false }
  else array

/-- The end of a checkpoint: the array is checkpointed, then its header for readers is set
(`PrimaryKeyIndex::checkpointInMemory`), and the shadow pages are applied to the file. -/
def checkpoint : DiskArray α :=
  let checkpointed := array.checkpointInMemoryIfNecessary
  { checkpointed with
    header := checkpointed.headerForWriteTrx
    file := fun pageIdx => (array.shadowPages pageIdx).getD (array.file pageIdx)
    shadowPages := fun _ => none }

/-- A rollback: the array is rolled back, then its header for the writer is set
(`PrimaryKeyIndex::rollbackCheckpoint`), and the shadow pages are dropped. -/
def rollback : DiskArray α :=
  let rolledBack := array.rollbackInMemoryIfNecessary
  { rolledBack with headerForWriteTrx := rolledBack.header, shadowPages := fun _ => none }

end

/-- The constructor, with the PIPs that it reads from the file. -/
def load (numElementsPerPage : Nat) (pos : 0 < numElementsPerPage) (header : DiskArrayHeader)
    (pips : List PIPWrapper) (file : Nat → Nat → α) (bypassShadowing : Bool) : DiskArray α :=
  let array : DiskArray α :=
    { numElementsPerPage := numElementsPerPage
      numElementsPerPage_pos := pos
      header := header
      headerForWriteTrx := header
      hasTransactionalUpdates := false
      pips := pips
      pipUpdates := .empty
      lastAPPageIdx := none
      lastPageOnDisk := none
      file := file
      shadowPages := fun _ => none }
  if bypassShadowing then array.updateLastPageOnDisk else array

end DiskArray

end CycleJoin
