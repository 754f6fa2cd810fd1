import Mathlib

/-!
# Selection vectors

`SelectionVector` (`common/data_chunk/sel_vector.h`): the positions of the values of a data chunk that
an operator hands on.
-/

namespace CycleJoin

/-- `SelectionVector`. In the state `STATIC` the selected positions are 0, 1, 2 and so on, in the state
`DYNAMIC` those of the buffer. -/
structure SelectionVector where
  isStatic : Bool
  selectedPositionsBuffer : Nat → Nat
  selectedSize : Nat

namespace SelectionVector

variable (sel : SelectionVector)

/-- `operator[]`. -/
def get (index : Nat) : Nat := if sel.isStatic then index else sel.selectedPositionsBuffer index

/-- An assignment to `operator[]`. In the state `STATIC` it would not go to the buffer. -/
def set (index position : Nat) : SelectionVector :=
  if sel.isStatic then sel
  else { sel with
    selectedPositionsBuffer := Function.update sel.selectedPositionsBuffer index position }

/-- `setRange`: writes the range to the front of the buffer. -/
def setRange (startPos size : Nat) : SelectionVector where
  isStatic := false
  selectedPositionsBuffer i := if i < size then startPos + i else sel.selectedPositionsBuffer i
  selectedSize := size

/-- `setToFiltered`. -/
def setToFiltered (size : Nat) : SelectionVector := { sel with isStatic := false, selectedSize := size }

/-- `setSelSize`. -/
def setSelSize (size : Nat) : SelectionVector := { sel with selectedSize := size }

/-- `getSelectedPositions`. -/
def getSelectedPositions : List Nat := (List.range sel.selectedSize).map sel.get

end SelectionVector

end CycleJoin
