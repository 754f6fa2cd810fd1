import CycleJoin.Csv.NewlineDelimiter

/-!
# CSV: export, then import

Which tables survive `COPY TO` a CSV file and `COPY FROM` that file under the same options
(`RoundTrips`). What is lost is the empty string, which comes back as null, a byte order mark that
the first cell of a file without header starts with, and, if one of the characters that separate
values is the newline, the rows themselves.
-/

namespace CycleJoin.Csv

/-- The tables that are read back as they were. -/
structure RoundTrips (option : CSVOption) (table : Table) : Prop where
  nonempty : ∀ row ∈ table.rows, some (.string []) ∉ row
  mark : ¬MarkLost option table
  delimiter : option.delimiter = lf →
    table.rows = [] ∨ option.hasHeader = false ∧ table.rows.length = 1
  quote : option.quoteChar = lf → LinesEnd option table

section
variable {option : CSVOption} {table : Table}

/-- Only a newline as quote character can be mistaken for the end of a row. -/
theorem linesEnd_of_quoteChar_ne (hquote : option.quoteChar ≠ lf) : LinesEnd option table where
  last _ _ _ _ h := absurd h.symm hquote
  header h := absurd h hquote

theorem RoundTrips.linesEnd (h : RoundTrips option table) : LinesEnd option table := by
  by_cases hquote : option.quoteChar = lf
  · exact h.quote hquote
  · exact linesEnd_of_quoteChar_ne hquote

theorem RoundTrips.serialScan_eq_rows (h : RoundTrips option table) (hplain : option.Plain)
    (hdelimiter : option.delimiter ≠ option.quoteChar) :
    serialScan (table.config option) (exportCSV option table) = .ok ⟨table.rows, []⟩ := by
  by_cases hd : option.delimiter = lf
  · exact (serialScan_newlineDelimiter_iff hplain hdelimiter hd).mpr ⟨h.nonempty, h.mark, h.delimiter hd⟩
  · rw [serialScan_exportCSV hplain ⟨hdelimiter, hd⟩ h.linesEnd h.mark, map_readBack_eq_self.mpr h.nonempty]

/-- And no other one is, unless the quote character is the newline. -/
theorem roundTrips_of_serialScan_eq (hplain : option.Plain)
    (hdelimiter : option.delimiter ≠ option.quoteChar) (hquote : option.quoteChar ≠ lf)
    (h : serialScan (table.config option) (exportCSV option table) = .ok ⟨table.rows, []⟩) :
    RoundTrips option table := by
  by_cases hd : option.delimiter = lf
  · obtain ⟨hnonempty, hmark, hrows⟩ := (serialScan_newlineDelimiter_iff hplain hdelimiter hd).mp h
    exact ⟨hnonempty, hmark, fun _ => hrows, fun hq => absurd hq hquote⟩
  · have hsep : Separated option := ⟨hdelimiter, hd⟩
    have hmark : ¬MarkLost option table := by
      intro hmark
      obtain ⟨rows, hscan, hne⟩ := serialScan_exportCSV_markLost hplain hsep hquote hmark
      rw [hscan] at h
      exact hne (ScanResult.mk.inj (Except.ok.inj h)).1
    rw [serialScan_exportCSV hplain hsep (linesEnd_of_quoteChar_ne hquote) hmark] at h
    have hrows := (ScanResult.mk.inj (Except.ok.inj h)).1
    exact ⟨map_readBack_eq_self.mp hrows, hmark, fun hd' => absurd hd' hd, fun hq => absurd hq hquote⟩

end

/-- Export and import under the same options: the tables that round-trip come back as they were,
and with a quote character that does not end lines, no other table does. -/
theorem export_import (hasHeader : Bool) (escapeChar delimiter quoteChar : {c : UInt8 // c < 0x80})
    (table : Table) (hdelimiter : delimiter ≠ quoteChar) :
    (RoundTrips (.ofChars hasHeader escapeChar delimiter quoteChar) table →
      serialScan (table.config (.ofChars hasHeader escapeChar delimiter quoteChar))
        (exportCSV (.ofChars hasHeader escapeChar delimiter quoteChar) table) =
          .ok ⟨table.rows, []⟩) ∧
    (quoteChar.1 ≠ lf →
      serialScan (table.config (.ofChars hasHeader escapeChar delimiter quoteChar))
        (exportCSV (.ofChars hasHeader escapeChar delimiter quoteChar) table) =
          .ok ⟨table.rows, []⟩ →
      RoundTrips (.ofChars hasHeader escapeChar delimiter quoteChar) table) := by
  have hplain := CSVOption.plain_ofChars hasHeader escapeChar delimiter quoteChar
  have hne : delimiter.1 ≠ quoteChar.1 := fun h => hdelimiter (Subtype.ext h)
  constructor
  · intro h
    exact h.serialScan_eq_rows hplain hne
  · intro hquote h
    exact roundTrips_of_serialScan_eq hplain hne hquote h

/-- A table of one string column, which holds a comma and a null. -/
def commaTable : Table where
  types := [.string]
  names := [[97]]
  rows := [[some (.string [97, 44, 98])], [none]]
  types_ne_nil := by decide
  names_length := rfl
  names_valid := by decide
  rows_typed := by
    intro row hrow
    rcases List.mem_cons.mp hrow with rfl | hrow
    · exact .cons (show isValid [97, 44, 98] = true by decide) .nil
    · rw [List.mem_singleton.mp hrow]
      exact .cons trivial .nil

theorem export_import_commaTable :
    serialScan (commaTable.config (.ofChars true ⟨34, by decide⟩ ⟨44, by decide⟩ ⟨34, by decide⟩))
      (exportCSV (.ofChars true ⟨34, by decide⟩ ⟨44, by decide⟩ ⟨34, by decide⟩) commaTable) =
        .ok ⟨commaTable.rows, []⟩ := by
  refine (export_import true ⟨34, by decide⟩ ⟨44, by decide⟩ ⟨34, by decide⟩ commaTable
    (by decide)).1 ⟨by decide, ?_, fun h => absurd h (by decide), fun h => absurd h (by decide)⟩
  rintro ⟨h, -⟩
  cases h

/-- A table of one string column, which holds the empty string. -/
def emptyStringTable : Table where
  types := [.string]
  names := [[97]]
  rows := [[some (.string [])]]
  types_ne_nil := by decide
  names_length := rfl
  names_valid := by decide
  rows_typed := by
    intro row hrow
    rw [List.mem_singleton.mp hrow]
    exact .cons (show isValid [] = true by decide) .nil

/-- The empty string is written as `""`, apart from null, and read back as null. -/
theorem serialScan_emptyStringTable :
    exportCSV (.ofChars false ⟨34, by decide⟩ ⟨44, by decide⟩ ⟨34, by decide⟩) emptyStringTable =
        [34, 34, 10] ∧
      serialScan (emptyStringTable.config
          (.ofChars false ⟨34, by decide⟩ ⟨44, by decide⟩ ⟨34, by decide⟩)) [34, 34, 10] =
        .ok ⟨[[none]], []⟩ ∧
      emptyStringTable.rows = [[some (.string [])]] := by
  refine ⟨by decide, by decide +kernel, rfl⟩

end CycleJoin.Csv
