import Mathlib

/-!
# Internal IDs

`internalID_t` (`common/types/types.cpp`): the offset of a node or rel in its table, and the
table. The comparison operators order IDs by table first, then by offset; `nodeID_t` is another
name of the type.
-/

namespace CycleJoin

/-- `internalID_t`. -/
structure InternalID where
  offset : Nat
  tableID : Nat
  deriving DecidableEq, Repr, Inhabited

namespace InternalID

/-- `internalID_t::operator<`. -/
instance : LT InternalID :=
  ⟨fun a b => a.tableID < b.tableID ∨ a.tableID = b.tableID ∧ a.offset < b.offset⟩

/-- `internalID_t::operator<=`. -/
instance : LE InternalID :=
  ⟨fun a b => a.tableID < b.tableID ∨ a.tableID = b.tableID ∧ a.offset ≤ b.offset⟩

theorem lt_def {a b : InternalID} :
    a < b ↔ a.tableID < b.tableID ∨ a.tableID = b.tableID ∧ a.offset < b.offset := Iff.rfl

theorem le_def {a b : InternalID} :
    a ≤ b ↔ a.tableID < b.tableID ∨ a.tableID = b.tableID ∧ a.offset ≤ b.offset := Iff.rfl

instance (a b : InternalID) : Decidable (a < b) :=
  inferInstanceAs (Decidable (a.tableID < b.tableID ∨ a.tableID = b.tableID ∧ a.offset < b.offset))

instance (a b : InternalID) : Decidable (a ≤ b) :=
  inferInstanceAs (Decidable (a.tableID < b.tableID ∨ a.tableID = b.tableID ∧ a.offset ≤ b.offset))

theorem ext_iff' {a b : InternalID} : a = b ↔ a.offset = b.offset ∧ a.tableID = b.tableID := by
  cases a
  cases b
  simp

/-- The operators are those of a linear order: tables first, then offsets. -/
instance : LinearOrder InternalID where
  le_refl a := le_def.mpr (.inr ⟨rfl, le_rfl⟩)
  le_trans a b c hab hbc := by rw [le_def] at *; omega
  lt_iff_le_not_ge a b := by rw [lt_def, le_def, le_def]; omega
  le_antisymm a b hab hba := by rw [le_def] at *; rw [ext_iff']; omega
  le_total a b := by rw [le_def, le_def]; omega
  toDecidableLE := inferInstance
  toDecidableEq := inferInstance
  toDecidableLT := inferInstance

end InternalID
end CycleJoin
