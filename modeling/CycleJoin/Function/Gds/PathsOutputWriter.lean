import CycleJoin.Function.Gds.Frontier

/-!
# Writing paths from parent lists

`PathsOutputWriter` of `function/gds/output_writer.cpp`. The parents of a node say by which hops and in
which iteration the node was visited. A path is rebuilt from its destination: a stack holds one parent
for each hop, and the search goes on by pushing a parent of the node of the top, or by replacing the top
by the parent after it in its list.

Limits and interrupts are left out.
-/

namespace CycleJoin

/-- An element of a `ParentList`. -/
structure ParentEntry (V E : Type) extends Hop V E where
  iter : Nat
  deriving DecidableEq, Repr

/-- A `ParentList*`: the entry it points to, and those after it. The empty list is `nullptr`. -/
abbrev ParentList (V E : Type) := List (ParentEntry V E)

/-- `PathSemantic`. -/
inductive PathSemantic where
  | walk
  | trail
  | acyclic
  deriving DecidableEq, Repr

/-- `PathsOutputWriterInfo`. -/
structure PathsOutputWriterInfo (V : Type) where
  semantic : PathSemantic := .walk
  lowerBound : UInt16 := 0
  flipPath : Bool := false
  writeEdgeDirection : Bool := false
  writePath : Bool := false
  pathNodeMask : Option (V → Bool) := none

/-- A row of the output: the source is the same for all. -/
structure PathRow (V E : Type) where
  dst : V
  length : Nat
  directions : List Bool
  nodeIDs : List V
  edgeIDs : List E
  deriving DecidableEq, Repr

namespace PathsOutputWriterInfo

variable {V E : Type} [DecidableEq V] [DecidableEq E] (info : PathsOutputWriterInfo V)

def hasNodeMask : Bool := info.pathNodeMask.isSome

/-! ## Checks -/

/-- There is nothing to check: no path node mask, and walks. -/
def isFast : Bool := !info.hasNodeMask && info.semantic = .walk

def checkPathNodeMask (element : ParentEntry V E) : Bool :=
  match info.pathNodeMask with
  | none => true
  | some mask => element.iter = 1 || mask element.node

section
variable (path : List (ParentEntry V E)) (candidate : ParentEntry V E)

def isAppendTrail : Bool :=
  path.all fun element => candidate.edge ≠ element.edge

/-- The loop goes from `1` to `path.size() - 2`. -/
def isAppendAcyclic : Bool :=
  ((path.take (path.length - 1)).drop 1).all fun element => candidate.node ≠ element.node

/-- The loop goes from `0` to `path.size() - 2`. -/
def isReplaceTopTrail : Bool :=
  (path.take (path.length - 1)).all fun element => candidate.edge ≠ element.edge

/-- The loop goes from `1` to `path.size() - 2`. -/
def isReplaceTopAcyclic : Bool :=
  ((path.take (path.length - 1)).drop 1).all fun element => candidate.node ≠ element.node

def checkAppendSemantic : Bool :=
  match info.semantic with
  | .walk => true
  | .trail => isAppendTrail path candidate
  | .acyclic => isAppendAcyclic path candidate

def checkReplaceTopSemantic : Bool :=
  match info.semantic with
  | .walk => true
  | .trail => isReplaceTopTrail path candidate
  | .acyclic => isReplaceTopAcyclic path candidate

end

/-- `isNextViable` for a `next` that is not `nullptr`. -/
def isNextViable (next : ParentEntry V E) (size : Nat) (top : ParentEntry V E) : Bool :=
  if size = 1 then info.lowerBound.toNat ≤ next.iter else next.iter = top.iter

def findFirstParent (head : ParentList V E) : ParentList V E :=
  if info.isFast then head
  else head.dropWhile fun parent =>
    !(info.checkPathNodeMask parent && info.lowerBound.toNat ≤ parent.iter)

/-! ## Rows -/

variable (dst : V) (path : List (ParentEntry V E))

/-- `writePathBwd`: the path is stored from its destination and written from its source. -/
def writePathBwd : PathRow V E :=
  let length := path.length
  let edges := (List.range length).filterMap fun i => path[length - 1 - i]?
  { dst
    length := length % 2 ^ 16
    nodeIDs := (List.range' 1 (length - 1)).filterMap fun i => path[length - 1 - i]?.map (·.node)
    edgeIDs := edges.map (·.edge)
    directions := if info.writeEdgeDirection then edges.map (·.isFwd) else [] }

/-- `writePathFwd`: the search has started at what the query calls the destination. -/
def writePathFwd : PathRow V E :=
  let length := path.length
  let edges := (List.range length).filterMap fun i => path[i]?
  { dst
    length := length % 2 ^ 16
    nodeIDs := (List.range (length - 1)).filterMap fun i => path[i]?.map (·.node)
    edgeIDs := edges.map (·.edge)
    directions := if info.writeEdgeDirection then edges.map (·.isFwd) else [] }

/-- `writePath`: the row of a path. -/
def pathRow : PathRow V E :=
  if !info.writePath then ⟨dst, path.length % 2 ^ 16, [], [], []⟩
  else if !info.flipPath then info.writePathBwd dst path
  else info.writePathFwd dst path

end PathsOutputWriterInfo

/-! ## The search -/

/-- `curPath` with the top first, `backtracking`, and the paths written so far. -/
structure DfsState (V E : Type) where
  stack : List (ParentList V E)
  backtracking : Bool
  out : List (List (ParentEntry V E))

section Dfs

variable {V E : Type} [DecidableEq V] [DecidableEq E] (info : PathsOutputWriterInfo V)

/-- The elements of `curPath`, from the parent of the destination on. -/
def pathElements (stack : List (ParentList V E)) : List (ParentEntry V E) :=
  (stack.filterMap List.head?).reverse

/-- What replaces the top while backtracking: the next viable parent that passes the check. -/
def replaceTop (check : ParentEntry V E → Bool) (size : Nat) (top : ParentEntry V E) :
    ParentList V E → ParentList V E
  | [] => []
  | next :: rest =>
    if !info.isNextViable next size top then []
    else if check next then next :: rest
    else replaceTop check size top rest

/-- One round of the loops of `dfsFast` and `dfsSlow`, without their checks: `append` for a parent that
is pushed, `replace` for one that replaces the top. `dfsFast` runs into `nullptr` if there is no parent
to push, `dfsSlow` turns to backtracking. -/
def dfsStep (slow : Bool) (append replace : List (ParentEntry V E) → ParentEntry V E → Bool)
    (parents : V → ParentList V E) (s : DfsState V E) : Option (DfsState V E) :=
  match s.stack with
  | [] => none
  | [] :: _ => none
  | (top :: next) :: rest =>
    let curPath := pathElements s.stack
    let out := if top.iter = 1 then s.out ++ [curPath] else s.out
    if s.backtracking || top.iter = 1 then
      match replaceTop info (replace curPath) s.stack.length top next with
      | [] => some ⟨rest, true, out⟩
      | next => some ⟨next :: rest, false, out⟩
    else
      match (parents top.node).dropWhile fun parent =>
        !(parent.iter = top.iter - 1 && append curPath parent) with
      | [] => if slow then some ⟨s.stack, true, out⟩ else none
      | parent => some ⟨parent :: s.stack, false, out⟩

/-- The loop, until the stack is empty. -/
def dfsLoop (step : DfsState V E → Option (DfsState V E)) :
    Nat → DfsState V E → Option (List (List (ParentEntry V E)))
  | fuel, s =>
    if s.stack.isEmpty then some s.out
    else
      match fuel with
      | 0 => none
      | fuel + 1 => (step s).bind (dfsLoop step fuel)

variable (parents : V → ParentList V E) (fuel : Nat) (firstParent : ParentList V E)

/-- `dfsFast`: the paths that it writes. -/
def dfsFast : Option (List (List (ParentEntry V E))) :=
  dfsLoop (dfsStep info false (fun _ _ => true) (fun _ _ => true) parents) fuel
    ⟨[firstParent], false, []⟩

/-- `dfsSlow`: the paths that it writes. -/
def dfsSlow : Option (List (List (ParentEntry V E))) :=
  dfsLoop (dfsStep info true
      (fun path parent => info.checkPathNodeMask parent && info.checkAppendSemantic path parent)
      (fun path next => info.checkPathNodeMask next && info.checkReplaceTopSemantic path next)
      parents)
    fuel ⟨[firstParent], false, []⟩

end Dfs

/-! ## Destinations -/

/-- The destinations that are written, for the nodes of the output tables. In the sparse state
`PathsOutputWriter::write` goes through the hash map of each table, and writes the source once more if
the lower bound is zero; in the dense state all nodes are written. -/
def PathsOutputWriterInfo.destinations {V E α : Type} [DecidableEq V] (info : PathsOutputWriterInfo V)
    (schedule : Schedule V E) (nodes : List V) (source : V) (bfsGraph : DensityMap V α) : List V :=
  match bfsGraph.state with
  | .sparse =>
    schedule.mapOrder (nodes.filter fun node => (bfsGraph.sparse node).isSome) ++
      if info.lowerBound = 0 ∧ source ∈ nodes then [source] else []
  | .dense => schedule.mapOrder nodes

/-- `PathsOutputWriter::write` for all destinations. -/
def writeAll {V R : Type} (outputNodeMask : V → Bool) (writeInternal : V → Option (List R))
    (dsts : List V) : Option (List R) :=
  (dsts.mapM fun dst => if outputNodeMask dst then writeInternal dst else some []).map List.flatten

end CycleJoin
