import CycleJoin.Common.Transaction

/-!
# Versions of updated rows

`UpdateInfo` keeps the updates of a column chunk (`storage/table/update_info.cpp`). For each vector
of rows there is a chain of versions: a transaction that updates the vector writes into a version
of its own, which starts as a copy of the newest version. The undo buffer of the transaction
(`storage/undo_buffer.cpp`) keeps a record of each update; a commit stamps the recorded versions with
the commit timestamp, a rollback takes them out of their chains.

`prev` owns the older version. A chain is modelled as the list of its versions from the newest to the
oldest, so that `prev` of a version is the next one in the list and a version that is in no list has
been freed. `next` is a raw pointer, an address. An operation that follows a pointer to a freed
version, or a null pointer, has no result (`none`).

`V` is the type of the values of the column.
-/

namespace CycleJoin

variable {V : Type}

/-- `VectorUpdateInfo`, without `prev`. -/
structure VectorUpdateInfo (V : Type) where
  addr : Nat
  version : Nat
  /-- `rowsInVector` up to `numRowsUpdated`, with the values in `data`. -/
  rows : List (Nat × V)
  next : Option Nat
  deriving DecidableEq

/-- The versions of a vector, the newest first. -/
abbrev Chain (V : Type) := List (VectorUpdateInfo V)

/-! ## One version -/

/-- Overwrites the value of a row, or appends it. -/
def writeRow (row : Nat) (value : V) : List (Nat × V) → List (Nat × V)
  | [] => [(row, value)]
  | (r, v) :: rows => if r = row then (r, value) :: rows else (r, v) :: writeRow row value rows

namespace VectorUpdateInfo

variable (info : VectorUpdateInfo V) (row : Nat)

/-- The value of a row, as `ColumnChunk::lookup` takes it from a version. -/
def lookup : Option V :=
  (info.rows.find? (·.1 = row)).map (·.2)

/-- The row is one of the updated rows. -/
def hasRow : Bool := info.rows.any (·.1 = row)

/-- `UpdateInfo::update` on the version of the transaction. -/
def write (value : V) : VectorUpdateInfo V :=
  { info with rows := writeRow row value info.rows }

end VectorUpdateInfo

/-! ## One chain -/

/-- The message of the exception that `update` throws. -/
def writeWriteConflict : String := "Write-write conflict of updating the same row."

namespace Chain

/-- The live version at an address. -/
def at? (chain : Chain V) (addr : Nat) : Option (VectorUpdateInfo V) :=
  chain.find? (·.addr = addr)

/-- The versions that are newer than the one at the address. -/
def newer (chain : Chain V) (addr : Nat) : Chain V := chain.takeWhile (·.addr ≠ addr)

/-- `prev` of the version at the address, with the versions that it owns. -/
def older (chain : Chain V) (addr : Nat) : Chain V := (chain.dropWhile (·.addr ≠ addr)).tail

/-- Changes the version at an address. -/
def modify (addr : Nat) (f : VectorUpdateInfo V → VectorUpdateInfo V) (chain : Chain V) : Chain V :=
  chain.map fun info => if info.addr = addr then f info else info

/-- `getVectorInfo`. -/
def getVectorInfo (t : Transaction) (chain : Chain V) : Option (VectorUpdateInfo V) :=
  chain.find? fun info => info.version = t.id ∨ info.version ≤ t.startTS

/-- The loop of `getOrCreateVectorInfo`, from the pointer `current` on: the last version of the
transaction that it meets, or a conflict. The fuel bounds the number of versions it visits. -/
def findInfo (t : Transaction) (row : Nat) (chain : Chain V) :
    Nat → Option Nat → Option Nat → Option (Except String (Option Nat))
  | _, none, info => some (.ok info)
  | 0, some _, _ => none
  | fuel + 1, some current, info =>
    match chain.at? current with
    | none => none
    | some x =>
      if x.version = t.id then findInfo t row chain fuel x.next (some current)
      else if x.version > t.startTS ∧ x.hasRow row = true then some (.error writeWriteConflict)
      else findInfo t row chain fuel x.next info

/-- A new version on top of the chain, with the rows of the version that was the newest. -/
def push (t : Transaction) (addr : Nat) : Chain V → Chain V
  | [] => [⟨addr, t.id, [], none⟩]
  | head :: rest => ⟨addr, t.id, head.rows, none⟩ :: { head with next := some addr } :: rest

/-- `getOrCreateVectorInfo`, with the address of a new version: the chain and the address of the
version to write to. -/
def getOrCreateVectorInfo (t : Transaction) (row : Nat) (addr : Nat) (chain : Chain V) :
    Option (Except String (Chain V × Nat)) :=
  match chain with
  | [] => some (.ok (push t addr chain, addr))
  | head :: _ =>
    match findInfo t row chain (chain.length + 1) (some head.addr) none with
    | none => none
    | some (.error e) => some (.error e)
    | some (.ok (some info)) => some (.ok (chain, info))
    | some (.ok none) => some (.ok (push t addr chain, addr))

/-- `UndoBuffer::commitVectorUpdateInfo`. -/
def commitVectorUpdateInfo (commitTS addr : Nat) (chain : Chain V) : Option (Chain V) :=
  match chain.at? addr with
  | none => none
  | some _ => some (chain.modify addr fun info => { info with version := commitTS })

/-- `UndoBuffer::rollbackVectorUpdateInfo`. Taking a version out of the middle of a chain links its
`prev` and the version that its `next` points to; what the latter owned before is freed. -/
def rollbackVectorUpdateInfo (t : Transaction) (addr : Nat) (chain : Chain V) : Option (Chain V) :=
  match chain.getVectorInfo t with
  | none => some chain
  | some info =>
    -- The version chain has been updated. No need to rollback.
    if info.addr ≠ addr then some chain
    else
      match info.next with
      | some newerAddr =>
        match chain.older addr, Chain.at? (chain.newer addr) newerAddr with
        | prev :: rest, some newerVersion =>
          some (chain.newer newerAddr ++ newerVersion :: { prev with next := some newerAddr } :: rest)
        | _, _ => none
      | none => some (chain.older addr)

end Chain

/-! ## All vectors -/

/-- `UpdateInfo`. A vector without versions has the empty chain. New versions get addresses that have
not been used. -/
structure UpdateInfo (V : Type) where
  vectorsInfo : Nat → Chain V
  nextAddr : Nat

/-- `VectorUpdateRecord`. -/
structure VectorUpdateRecord where
  vectorIdx : Nat
  vectorUpdateInfo : Nat
  deriving DecidableEq

namespace UpdateInfo

/-- An `UpdateInfo` without versions. -/
def empty : UpdateInfo V := ⟨fun _ => [], 0⟩

section
variable (u : UpdateInfo V)

def setChain (vectorIdx : Nat) (chain : Chain V) : UpdateInfo V :=
  { u with vectorsInfo := Function.update u.vectorsInfo vectorIdx chain }

@[simp] theorem setChain_vectorsInfo (v : Nat) (chain : Chain V) :
    (u.setChain v chain).vectorsInfo = Function.update u.vectorsInfo v chain := rfl

@[simp] theorem setChain_nextAddr (v : Nat) (chain : Chain V) : (u.setChain v chain).nextAddr = u.nextAddr := rfl

/-- `update`: the address of the version it writes to. -/
def update (t : Transaction) (vectorIdx row : Nat) (value : V) :
    Option (Except String (UpdateInfo V × Nat)) :=
  match (u.vectorsInfo vectorIdx).getOrCreateVectorInfo t row u.nextAddr with
  | none => none
  | some (.error e) => some (.error e)
  | some (.ok (chain, info)) =>
    some (.ok ({ u.setChain vectorIdx (chain.modify info (·.write row value)) with
          nextAddr := u.nextAddr + 1 }, info))

/-- The value that a transaction reads for a row. -/
def read (t : Transaction) (vectorIdx row : Nat) : Option V :=
  ((u.vectorsInfo vectorIdx).getVectorInfo t).bind (·.lookup row)

end

/-- `UndoBuffer::commit`. -/
def commit (commitTS : Nat) : List VectorUpdateRecord → UpdateInfo V → Option (UpdateInfo V)
  | [], u => some u
  | record :: records, u =>
    match (u.vectorsInfo record.vectorIdx).commitVectorUpdateInfo commitTS
        record.vectorUpdateInfo with
    | none => none
    | some chain => commit commitTS records (u.setChain record.vectorIdx chain)

/-- `UndoBuffer::rollback`, for the records in the order in which they are undone. -/
def rollback (t : Transaction) : List VectorUpdateRecord → UpdateInfo V → Option (UpdateInfo V)
  | [], u => some u
  | record :: records, u =>
    match (u.vectorsInfo record.vectorIdx).rollbackVectorUpdateInfo t record.vectorUpdateInfo with
    | none => none
    | some chain => rollback t records (u.setChain record.vectorIdx chain)

end UpdateInfo

/-! ## Transactions on one `UpdateInfo` -/

/-- An active transaction with its undo buffer, the oldest record first. -/
structure ActiveTransaction extends Transaction where
  undoBuffer : List VectorUpdateRecord
  deriving DecidableEq

/-- The transaction manager (`transaction/transaction_manager.cpp`) and the `UpdateInfo` that its
transactions work on. -/
structure UpdateSystem (V : Type) where
  lastTransactionID : Nat
  lastTimestamp : Nat
  activeTransactions : List ActiveTransaction
  info : UpdateInfo V

/-- What a client does. Transactions are named by their ID. -/
inductive UpdateEvent (V : Type) where
  | begin
  | update (id vectorIdx row : Nat) (value : V)
  | commit (id : Nat)
  | rollback (id : Nat)

namespace UpdateSystem

def init : UpdateSystem V := ⟨startTransactionID, 1, [], .empty⟩

def active? (s : UpdateSystem V) (id : Nat) : Option ActiveTransaction :=
  s.activeTransactions.find? (·.id = id)

/-- `clearTransactionNoLock`. -/
def clearTransaction (s : UpdateSystem V) (id : Nat) : UpdateSystem V :=
  { s with activeTransactions := s.activeTransactions.filter (·.id ≠ id) }

/-- `createVectorUpdateInfo` on the undo buffer of a transaction. -/
def pushRecord (s : UpdateSystem V) (id : Nat) (record : VectorUpdateRecord) : UpdateSystem V :=
  { s with
    activeTransactions := s.activeTransactions.map fun t =>
      if t.id = id then { t with undoBuffer := t.undoBuffer ++ [record] } else t }

/-- `beginTransaction` for a write transaction. It throws, and nothing changes, if there is an active
one and `enableMultiWrites` is not set. -/
def beginTransaction (enableMultiWrites : Bool) (s : UpdateSystem V) : UpdateSystem V :=
  if enableMultiWrites = false ∧ s.activeTransactions ≠ [] then s
  else
    { s with
      lastTransactionID := s.lastTransactionID + 1
      activeTransactions :=
        s.activeTransactions ++ [⟨⟨s.lastTransactionID + 1, s.lastTimestamp⟩, []⟩] }

/-- One event. An event of a transaction that is not active does nothing, and so does an update that
throws. -/
def step (enableMultiWrites : Bool) (s : UpdateSystem V) : UpdateEvent V → Option (UpdateSystem V)
  | .begin => some (s.beginTransaction enableMultiWrites)
  | .update id vectorIdx row value =>
    match s.active? id with
    | none => some s
    | some t =>
      match s.info.update t.toTransaction vectorIdx row value with
      | none => none
      | some (.error _) => some s
      | some (.ok (info, addr)) => some ({ s with info := info }.pushRecord id ⟨vectorIdx, addr⟩)
  | .commit id =>
    match s.active? id with
    | none => some s
    | some t =>
      (s.info.commit (s.lastTimestamp + 1) t.undoBuffer).map fun info =>
        { s with lastTimestamp := s.lastTimestamp + 1, info := info }.clearTransaction id
  | .rollback id =>
    match s.active? id with
    | none => some s
    | some t =>
      (s.info.rollback t.toTransaction t.undoBuffer.reverse).map fun info =>
        { s with info := info }.clearTransaction id

def run (enableMultiWrites : Bool) (s : UpdateSystem V) :
    List (UpdateEvent V) → Option (UpdateSystem V)
  | [] => some s
  | e :: es => (s.step enableMultiWrites e).bind fun s => run enableMultiWrites s es

end UpdateSystem
end CycleJoin
