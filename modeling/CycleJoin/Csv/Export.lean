import CycleJoin.Csv.Cells

/-!
# CSV: the export function

The bytes that `function/export/export_csv_function.cpp` writes for a table: a header of column
names if the options ask for one, then a line for every row. A value is quoted when
`requireQuotes` says so, and then every quote and escape character in it is escaped, in two
passes of `addEscapes`.

`writeString_quoted` brings the two passes together: byte by byte, `escapeByte` puts the escape
character in front of the two special ones.
-/

namespace CycleJoin.Csv

open List

/-- The loop of `addEscapes`: `found` are the positions of `toEscape` that `std::string::find`
still returns, and `i` is the next byte to copy. -/
def addEscapesLoop (escape : UInt8) (val : Bytes) : (i : Nat) → (found : List Nat) → Bytes
  | i, [] => val.drop i
  | i, found :: rest => (val.drop i).take (found - i) ++ escape :: addEscapesLoop escape val found rest

/-- The positions of a byte. -/
def positionsOf (toEscape : UInt8) (val : Bytes) : List Nat :=
  (range val.length).filter fun i => val[i]? = some toEscape

/-- `addEscapes`. -/
def addEscapes (toEscape escape : UInt8) (val : Bytes) : Bytes :=
  addEscapesLoop escape val 0 (positionsOf toEscape val)

section
variable (option : CSVOption)

/-- `requireQuotes`; `ExportCSVConstants::DEFAULT_NULL_STR` is the empty text. -/
def requireQuotes (str : Bytes) : Bool :=
  str.isEmpty || str.any fun c =>
    isNewLine c || c == option.quoteChar || c == option.delimiter

/-- `writeString`. -/
def writeString (str : Bytes) (forceQuote : Bool) : Bytes :=
  if forceQuote || requireQuotes option str then
    if str.any fun c => c == option.quoteChar || c == option.escapeChar then
      let escaped := addEscapes option.escapeChar option.escapeChar str
      let escaped := if option.escapeChar ≠ option.quoteChar then
        addEscapes option.quoteChar option.escapeChar escaped else escaped
      option.quoteChar :: escaped ++ [option.quoteChar]
    else option.quoteChar :: str ++ [option.quoteChar]
  else str

/-- A cell of a row in `writeRows`: the null string, or the text of the value. Quotes are forced
for lists only. -/
def writeCell (cell : Option Bytes) : Bytes :=
  match cell with
  | none => []
  | some text => writeString option text false

/-- The values of a line, with the delimiter between them. -/
def writeCells : List (Option Bytes) → Bytes
  | [] => []
  | [cell] => writeCell option cell
  | cell :: cells => writeCell option cell ++ option.delimiter :: writeCells cells

/-- A line of the file. -/
def writeLine (cells : List (Option Bytes)) : Bytes := writeCells option cells ++ [lf]

/-- `writeRows`, on the texts of the rows. -/
def writeLines (lines : List (List (Option Bytes))) : Bytes := (lines.map (writeLine option)).flatten

end

/-- The texts of a row, after the casts of `writeRows`. -/
def rowTexts (row : List Cell) : List (Option Bytes) := row.map (Option.map Value.text)

/-- A cell of a column: an integer is one of the column's type, a string is valid UTF-8. -/
def ColumnType.Holds : ColumnType → Cell → Prop
  | _, none => True
  | .string, some (.string text) => isValid text = true
  | .integer type, some (.integer i) => type.minimum ≤ i ∧ i ≤ type.maximum
  | _, _ => False

/-- A table to export, with at least one column and a name for each. -/
structure Table where
  types : List ColumnType
  names : List Bytes
  rows : List (List Cell)
  types_ne_nil : types ≠ []
  names_length : names.length = types.length
  names_valid : ∀ name ∈ names, isValid name = true
  rows_typed : ∀ row ∈ rows, Forall₂ ColumnType.Holds types row

/-- The lines of the file, `writeHeader` first. -/
def Table.lines (option : CSVOption) (table : Table) : List (List (Option Bytes)) :=
  (if option.hasHeader then [table.names.map some] else []) ++ table.rows.map rowTexts

/-- The file that is written for a table. -/
def exportCSV (option : CSVOption) (table : Table) : Bytes :=
  writeLines option (table.lines option)

/-! ## Escaping -/

/-- A byte of a quoted value, with the escape character in front of a special one. -/
def escapeByte (option : CSVOption) (c : UInt8) : Bytes :=
  if c = option.quoteChar ∨ c = option.escapeChar then [option.escapeChar, c] else [c]

/-- The text between the quotes. -/
def escapeText (option : CSVOption) (str : Bytes) : Bytes := str.flatMap (escapeByte option)

theorem positionsOf_cons (toEscape c : UInt8) (val : Bytes) : positionsOf toEscape (c :: val) =
      (if c = toEscape then [0] else []) ++ (positionsOf toEscape val).map (· + 1) := by
  unfold positionsOf
  rw [length_cons, range_succ_eq_map, filter_cons, filter_map]
  have hpred : (fun i => decide ((c :: val)[i]? = some toEscape)) ∘ Nat.succ =
      fun i => decide (val[i]? = some toEscape) := rfl
  rw [hpred]
  by_cases hc : c = toEscape
  · simp [hc]
  · simp [hc]

/-- Positions that have moved by one. -/
theorem addEscapesLoop_cons (escape c : UInt8) (val : Bytes) (i : Nat) (found : List Nat) :
    addEscapesLoop escape (c :: val) (i + 1) (found.map (· + 1)) = addEscapesLoop escape val i found := by
  induction found generalizing i with
  | nil => rfl
  | cons p rest ih => simp [addEscapesLoop, ih]

theorem addEscapesLoop_zero_cons (escape c : UInt8) (val : Bytes) (found : List Nat) :
    addEscapesLoop escape (c :: val) 0 (found.map (· + 1)) = c :: addEscapesLoop escape val 0 found := by
  cases found with
  | nil => rfl
  | cons p rest => simp [addEscapesLoop, addEscapesLoop_cons]

/-- `addEscapes` puts the escape character in front of every byte to escape. -/
theorem addEscapes_cons (toEscape escape c : UInt8) (val : Bytes) : addEscapes toEscape escape (c :: val) =
      (if c = toEscape then [escape, c] else [c]) ++ addEscapes toEscape escape val := by
  unfold addEscapes
  rw [positionsOf_cons]
  split
  · simp [addEscapesLoop, addEscapesLoop_zero_cons]
  · simp [addEscapesLoop_zero_cons]

theorem addEscapes_append (toEscape escape : UInt8) (s t : Bytes) : addEscapes toEscape escape (s ++ t) =
      addEscapes toEscape escape s ++ addEscapes toEscape escape t := by
  induction s with
  | nil => rfl
  | cons c s ih => rw [cons_append, addEscapes_cons, ih, addEscapes_cons, append_assoc]

theorem addEscapes_of_not_mem {toEscape escape : UInt8} {s : Bytes} (h : toEscape ∉ s) :
    addEscapes toEscape escape s = s := by
  induction s with
  | nil => rfl
  | cons c s ih =>
    rw [mem_cons, not_or] at h
    rw [addEscapes_cons, if_neg (Ne.symm h.1), ih h.2]
    rfl

section
variable {option : CSVOption}

theorem addEscapes_twice (str : Bytes) : (if option.escapeChar ≠ option.quoteChar then
      addEscapes option.quoteChar option.escapeChar (addEscapes option.escapeChar option.escapeChar str)
      else addEscapes option.escapeChar option.escapeChar str) = escapeText option str := by
  unfold escapeText
  by_cases heq : option.escapeChar = option.quoteChar
  · rw [if_neg (not_not.mpr heq)]
    induction str with
    | nil => rfl
    | cons c str ih =>
      rw [addEscapes_cons, ih, flatMap_cons, escapeByte]
      simp [heq]
  · rw [if_pos heq]
    induction str with
    | nil => rfl
    | cons c str ih =>
      rw [addEscapes_cons, addEscapes_append]
      congr 1
      unfold escapeByte
      by_cases he : c = option.escapeChar
      · -- the escape character was doubled in the first pass, and is not a quote
        rw [if_pos he, if_pos (Or.inr he), he]
        exact addEscapes_of_not_mem (by simp [Ne.symm heq])
      · rw [if_neg he]
        by_cases hq : c = option.quoteChar
        · rw [if_pos (Or.inl hq), addEscapes_cons, if_pos hq]
          rfl
        · rw [if_neg (not_or.mpr ⟨hq, he⟩), addEscapes_cons, if_neg hq]
          rfl

theorem escapeText_of_forall {str : Bytes}
    (h : str.any (fun c => c == option.quoteChar || c == option.escapeChar) = false) :
    escapeText option str = str := by
  unfold escapeText
  induction str with
  | nil => rfl
  | cons c str ih =>
    simp only [any_cons, Bool.or_eq_false_iff, beq_eq_false_iff_ne] at h
    rw [flatMap_cons, ih h.2, escapeByte, if_neg (not_or.mpr h.1)]
    rfl

theorem writeString_quoted {str : Bytes} (h : requireQuotes option str = true) : writeString option str false =
      option.quoteChar :: (escapeText option str ++ [option.quoteChar]) := by
  unfold writeString
  rw [h, Bool.or_true, if_pos rfl]
  split
  · rw [← addEscapes_twice]
    rfl
  · rename_i hspecial
    rw [escapeText_of_forall (Bool.not_eq_true _ ▸ hspecial)]
    rfl

theorem writeString_plain {str : Bytes} (h : requireQuotes option str = false) :
    writeString option str false = str := by
  unfold writeString
  rw [h, if_neg (by decide)]

/-- What a value that is written without quotes does not contain. -/
theorem requireQuotes_eq_false {str : Bytes} (h : requireQuotes option str = false) :
    str ≠ [] ∧ ∀ c ∈ str, isNewLine c = false ∧ c ≠ option.quoteChar ∧ c ≠ option.delimiter := by
  unfold requireQuotes at h
  rw [Bool.or_eq_false_iff, any_eq_false] at h
  refine ⟨fun hnil => by simp [hnil] at h, fun c hc => ?_⟩
  have := h.2 c hc
  simp only [Bool.or_eq_true, beq_iff_eq, not_or] at this
  exact ⟨Bool.not_eq_true _ ▸ this.1.1, this.1.2, this.2⟩

end

end CycleJoin.Csv
