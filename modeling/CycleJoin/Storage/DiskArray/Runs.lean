import CycleJoin.Storage.DiskArray.Transactions

/-!
# Runs of a disk array

A disk array is a growable array with a checkpointed and a current version. Two caches of the code keep
it from being one in every run: a rollback keeps `lastAPPageIdx`, and a checkpoint sets `lastPageOnDisk`
from the header before it. A run in which neither is used wrongly (`SafeAll`) is a run of the growable
array.
-/

namespace CycleJoin

open Function Option

/-- A call of the write transaction. Iterators are numbered. -/
inductive DiskArrayCall (α : Type*) where
  | iterMut (id : Nat)
  | seek (id newIdx : Nat)
  | assign (id : Nat) (val : α)
  | pushBack (id : Nat) (supply : PageSupply) (val : α)
  | update (idx : Nat) (val : α)
  | resize (supply : Nat → PageSupply) (newNumElements : Nat) (defaultVal : α)
  | checkpoint
  | rollback

/-! ## The growable array -/

/-- What a disk array is for: the array of the readers, that of the write transaction, and the
positions of its iterators. -/
structure GrowableArray (α : Type*) where
  checkpointed : List α
  current : List α
  positions : Nat → Option (Option Nat)

namespace GrowableArray

variable {α : Type*}

def start (elements : List α) : GrowableArray α := ⟨elements, elements, fun _ => none⟩

def step (spec : GrowableArray α) : DiskArrayCall α → GrowableArray α
  | .iterMut id => { spec with positions := update spec.positions id (some none) }
  | .seek id newIdx =>
    { spec with positions := update spec.positions id (some (some newIdx)) }
  | .assign id val =>
    match spec.positions id with
    | some (some idx) => { spec with current := spec.current.set idx val }
    | _ => spec
  | .pushBack id _ val =>
    { spec with
      current := spec.current ++ [val]
      positions := update spec.positions id (some (some spec.current.length)) }
  | .update idx val => { spec with current := spec.current.set idx val }
  | .resize _ newNumElements defaultVal =>
    { spec with
      current := spec.current ++ List.replicate (newNumElements - spec.current.length) defaultVal }
  | .checkpoint => start spec.current
  | .rollback => start spec.checkpointed

def run (spec : GrowableArray α) (calls : List (DiskArrayCall α)) : GrowableArray α :=
  calls.foldl step spec

end GrowableArray

/-! ## The disk array and its iterators -/

structure DiskArraySystem (α : Type*) where
  array : DiskArray α
  iterators : Nat → Option WriteIterator

namespace DiskArraySystem

variable {α : Type*}

/-- No iterator is live before a transaction. -/
def start (array : DiskArray α) : DiskArraySystem α := ⟨array, fun _ => none⟩

/-- A call, which fails where the code has undefined behaviour. The iterators end with their
transaction. -/
def step (system : DiskArraySystem α) : DiskArrayCall α → Option (DiskArraySystem α)
  | .iterMut id =>
    let it := system.array.iterMut
    some ⟨it.2, update system.iterators id (some it.1)⟩
  | .seek id newIdx =>
    (system.iterators id).bind fun iter =>
      (system.array.seek newIdx iter).map fun (iter', array') =>
        ⟨array', update system.iterators id (some iter')⟩
  | .assign id val =>
    (system.iterators id).bind fun iter =>
      (system.array.assign val iter).map fun array' => { system with array := array' }
  | .pushBack id supply val =>
    (system.iterators id).bind fun iter =>
      (system.array.pushBack supply val iter).map fun (iter', array') =>
        ⟨array', update system.iterators id (some iter')⟩
  | .update idx val =>
    (system.array.update idx val).map fun array' => { system with array := array' }
  | .resize supply newNumElements defaultVal =>
    (system.array.resize supply newNumElements defaultVal).map fun array' =>
      { system with array := array' }
  | .checkpoint => some (start system.array.checkpoint)
  | .rollback => some (start system.array.rollback)

def run (system : DiskArraySystem α) : List (DiskArrayCall α) → Option (DiskArraySystem α)
  | [] => some system
  | call :: calls => (system.step call).bind fun system' => system'.run calls

/-- The element of an iterator, `some none` before the iterator has a page. -/
def position (system : DiskArraySystem α) (id : Nat) : Option (Option Nat) :=
  (system.iterators id).map WriteIterator.position

/-- A caller keeps to the bounds of the array and to its own iterators, and the page allocator returns
fresh pages. -/
def Allows (system : DiskArraySystem α) : DiskArrayCall α → Prop
  | .seek id newIdx =>
    (system.iterators id).isSome ∧ newIdx < system.array.getNumElements .checkpoint
  | .assign id _ => ∃ position ∈ system.position id, position.isSome
  | .pushBack id supply _ => (system.iterators id).isSome ∧ system.array.Fresh supply
  | .update idx _ => idx < system.array.getNumElements .checkpoint
  | .resize supply newNumElements defaultVal =>
    DiskArray.FreshForPushBacks supply defaultVal
      (newNumElements - system.array.getNumElements .checkpoint) system.array.iterMut.1
      system.array.iterMut.2
  | .iterMut _ | .checkpoint | .rollback => True

instance (system : DiskArraySystem α) (call : DiskArrayCall α) : Decidable (system.Allows call) := by
  cases call <;> unfold Allows <;> infer_instance

/-- A write to an element that readers have goes to a page that the array knows to be on disk, and a
rollback leaves the last array page. -/
def Safe (system : DiskArraySystem α) : DiskArrayCall α → Prop
  | .assign id _ =>
    ∀ position ∈ system.position id, ∀ idx ∈ position, system.array.WritesOldPage idx
  | .update idx _ => system.array.WritesOldPage idx
  | .rollback => system.array.KeepsLastAP
  | _ => True

instance (system : DiskArraySystem α) (call : DiskArrayCall α) : Decidable (system.Safe call) := by
  cases call <;> unfold Safe <;> infer_instance

/-- A condition holds for every call of a run when the call is made. -/
def Throughout (condition : DiskArraySystem α → DiskArrayCall α → Prop) (system : DiskArraySystem α) :
    List (DiskArrayCall α) → Prop
  | [] => True
  | call :: calls =>
    condition system call ∧ ∀ system' ∈ system.step call, Throughout condition system' calls

instance Throughout.decidable (condition : DiskArraySystem α → DiskArrayCall α → Prop)
    [∀ system call, Decidable (condition system call)] (system : DiskArraySystem α) :
    (calls : List (DiskArrayCall α)) → Decidable (Throughout condition system calls)
  | [] => inferInstanceAs (Decidable True)
  | _ :: calls =>
    haveI := fun system' => Throughout.decidable condition system' calls
    inferInstanceAs (Decidable (_ ∧ _))

/-- Every call of a run is allowed. -/
def AllowsAll : DiskArraySystem α → List (DiskArrayCall α) → Prop := Throughout Allows

/-- Every call of a run is safe. -/
def SafeAll : DiskArraySystem α → List (DiskArrayCall α) → Prop := Throughout Safe

instance (system : DiskArraySystem α) (calls : List (DiskArrayCall α)) :
    Decidable (system.AllowsAll calls) := Throughout.decidable Allows system calls

instance (system : DiskArraySystem α) (calls : List (DiskArrayCall α)) :
    Decidable (system.SafeAll calls) := Throughout.decidable Safe system calls

/-- Readers read the checkpointed array and the write transaction the current one. -/
structure Reads (system : DiskArraySystem α) (spec : GrowableArray α) : Prop where
  numElements_readOnly : system.array.getNumElements .readOnly = spec.checkpointed.length
  numElements_checkpoint : system.array.getNumElements .checkpoint = spec.current.length
  get_readOnly : ∀ i < spec.checkpointed.length,
    system.array.get i .readOnly = spec.checkpointed[i]?
  get_checkpoint : ∀ i < spec.current.length, system.array.get i .checkpoint = spec.current[i]?

/-! ## Refinement -/

/-- The disk array holds the growable array and its iterators are at the positions. -/
structure Represents (system : DiskArraySystem α) (spec : GrowableArray α) : Prop where
  holds : system.array.Holds spec.checkpointed spec.current system.iterators
  position : ∀ id, system.position id = spec.positions id

variable {system : DiskArraySystem α} {spec : GrowableArray α}

theorem Represents.reads (h : system.Represents spec) : system.Reads spec where
  numElements_readOnly := h.holds.numElements
  numElements_checkpoint := h.holds.numElementsForWriteTrx
  get_readOnly i hi := by
    rw [List.getElem?_eq_getElem hi]
    exact h.holds.get_readOnly (List.getElem?_eq_getElem hi)
  get_checkpoint i hi := by
    rw [List.getElem?_eq_getElem hi]
    exact h.holds.get_checkpoint (List.getElem?_eq_getElem hi)

theorem represents_start {array : DiskArray α} {elements : List α} (h : array.Settled elements) :
    (start array).Represents (.start elements) := ⟨h.holds, fun _ => rfl⟩

theorem Represents.position_update (h : system.Represents spec) (array' : DiskArray α) (id : Nat)
    (iter : WriteIterator) (other : Nat) :
    DiskArraySystem.position ⟨array', update system.iterators id (some iter)⟩ other =
      update spec.positions id (some iter.position) other := by
  by_cases hid : other = id
  · subst hid
    simp [DiskArraySystem.position]
  · rw [update_of_ne hid, ← h.position other]
    simp [DiskArraySystem.position, update_of_ne hid]

theorem step_represents (h : system.Represents spec) {call : DiskArrayCall α}
    (hallows : system.Allows call) (hsafe : system.Safe call) :
    ∃ system', system.step call = some system' ∧ system'.Represents (spec.step call) := by
  have hnum : system.array.getNumElements .checkpoint = spec.current.length := h.holds.numElementsForWriteTrx
  cases call with
  | iterMut id => exact ⟨_, rfl, h.holds.iterMut id, h.position_update _ id .new⟩
  | seek id newIdx =>
    obtain ⟨iter, hiter⟩ := isSome_iff_exists.mp hallows.1
    obtain ⟨iter', array', hseek, hposition, hholds⟩ := h.holds.seek hiter (hnum ▸ hallows.2)
    refine ⟨⟨array', _⟩, ?_, hholds, ?_⟩
    · rw [step, hiter, bind_some, hseek]
      rfl
    · have hupdate := h.position_update array' id iter'
      rwa [hposition] at hupdate
  | assign id val =>
    obtain ⟨position, hmem, hsome⟩ := hallows
    obtain ⟨idx, rfl⟩ := isSome_iff_exists.mp hsome
    obtain ⟨iter, hiter, hposition⟩ := map_eq_some_iff.mp hmem
    obtain ⟨array', hassign, hholds⟩ := h.holds.assign hiter hposition val (hsafe _ hmem idx rfl)
    have hspec : spec.positions id = some (some idx) := (h.position id).symm.trans hmem
    refine ⟨⟨array', system.iterators⟩, ?_, ?_⟩
    · rw [step, hiter, bind_some, hassign]
      rfl
    · simp only [GrowableArray.step, hspec]
      exact ⟨hholds, h.position⟩
  | pushBack id supply val =>
    obtain ⟨iter, hiter⟩ := isSome_iff_exists.mp hallows.1
    obtain ⟨iter', array', hpush, hposition, hholds⟩ := h.holds.pushBack hiter hallows.2 val
    refine ⟨⟨array', _⟩, ?_, hholds, ?_⟩
    · rw [step, hiter, bind_some, hpush]
      rfl
    · have hupdate := h.position_update array' id iter'
      rwa [hposition] at hupdate
  | update idx val =>
    have hlt : idx < system.array.getNumElements .checkpoint := hallows
    obtain ⟨array', hupdate, hholds⟩ := h.holds.update val (hnum ▸ hlt) hsafe
    exact ⟨⟨array', system.iterators⟩, by rw [step, hupdate]; rfl, hholds, h.position⟩
  | resize supply newNumElements defaultVal =>
    obtain ⟨array', hresize, hholds⟩ := h.holds.resize newNumElements hallows
    exact ⟨⟨array', system.iterators⟩, by rw [step, hresize]; rfl, hholds, h.position⟩
  | checkpoint => exact ⟨_, rfl, represents_start h.holds.checkpoint⟩
  | rollback => exact ⟨_, rfl, represents_start (h.holds.rollback hsafe)⟩

theorem run_represents (h : system.Represents spec) (calls : List (DiskArrayCall α))
    (hallows : system.AllowsAll calls) (hsafe : system.SafeAll calls) :
    ∃ system', system.run calls = some system' ∧ system'.Represents (spec.run calls) := by
  induction calls generalizing system spec with
  | nil => exact ⟨system, rfl, h⟩
  | cons call calls ih =>
    obtain ⟨system', hstep, hnext⟩ := step_represents h hallows.1 hsafe.1
    obtain ⟨system'', hrun, hlast⟩ := ih hnext (hallows.2 _ hstep) (hsafe.2 _ hstep)
    exact ⟨system'', by rw [run, hstep]; exact hrun, hlast⟩

/-- An array of 16 elements a page that is created in a new file. -/
def newArray (bypassShadowing : Bool) : DiskArray Nat :=
  .load 16 (by decide) ⟨0, none⟩ [] (fun _ _ => 0) bypassShadowing

/-- The pages for the element after `numElements` elements. -/
def supplyAfter (numElements : Nat) : PageSupply := ⟨2 * numElements + 1, 2 * numElements + 2⟩

theorem settled_newArray (bypassShadowing : Bool) : (newArray bypassShadowing).Settled [] := by
  cases bypassShadowing <;> exact ⟨rfl, rfl, rfl, fun _ => rfl, rfl, fun _ ha => absurd ha (Nat.not_lt_zero _),
      fun _ _ _ ha => absurd ha (Nat.not_lt_zero _), fun _ _ hv => absurd hv (by simp),
      fun _ hp => absurd hp (by simp [newArray, DiskArray.load, DiskArray.updateLastPageOnDisk])⟩

/-- Elements are pushed, updated and rolled back on one page. -/
def safeCalls : List (DiskArrayCall Nat) :=
  [.resize supplyAfter 2 7, .checkpoint, .update 1 8, .rollback, .iterMut 0, .pushBack 0 (supplyAfter 2) 9,
    .seek 0 1, .assign 0 4]

/-- The write transaction adds an array page and is rolled back; the next one adds an element. -/
def pushBackAfterRollback : List (DiskArrayCall Nat) :=
  [.resize supplyAfter 1 1, .checkpoint, .resize supplyAfter 17 2, .rollback, .resize supplyAfter 2 3]

/-- An element of the first checkpoint is updated. -/
def updateAfterCheckpoint : List (DiskArrayCall Nat) :=
  [.resize supplyAfter 1 1, .checkpoint, .update 0 5]

end DiskArraySystem

end CycleJoin
