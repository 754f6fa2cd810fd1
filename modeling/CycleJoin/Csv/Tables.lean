import CycleJoin.Csv.Files

/-!
# CSV: the scan of an exported table

When every line ends where the reader expects it (`LinesEnd`), the scan of an exported table is
known: it is the table with its empty strings turned into nulls, and if there is no header and the
first cell starts with a byte order mark, without that mark.
-/

namespace CycleJoin.Csv

open List

/-- What the reader makes of a cell that was written: the empty string is written in quotes, but
the reader compares the text with the null strings after it has removed them. -/
def readBack : Cell → Cell
  | some (.string []) => none
  | cell => cell

theorem readBack_eq_self {cell : Cell} : readBack cell = cell ↔ cell ≠ some (.string []) := by
  constructor
  · rintro h rfl
    cases h
  · intro h
    unfold readBack
    split
    · exact absurd rfl h
    · rfl

theorem map_eq_self_iff {α : Type} {f : α → α} {l : List α} : l.map f = l ↔ ∀ a ∈ l, f a = a := by
  simpa using map_inj_left (l := l) (f := f) (g := id)

theorem map_readBack_eq_self {rows : List (List Cell)} :
    rows.map (map readBack) = rows ↔ ∀ row ∈ rows, some (.string []) ∉ row := by
  rw [map_eq_self_iff]
  refine forall₂_congr fun row _ => ?_
  rw [map_eq_self_iff]
  constructor
  · intro h hmem
    exact readBack_eq_self.mp (h _ hmem) rfl
  · intro h cell hcell
    exact readBack_eq_self.mpr fun heq => h (heq ▸ hcell)

section
variable {option : CSVOption}

section
variable (hnull : option.nullStrings = [[]])
include hnull

theorem copyStringToVector_string (text : Bytes) :
    copyStringToVector option .string text = .ok (if text = [] then none else some (.string text)) := by
  simp [copyStringToVector, hnull]

theorem copyStringToVector_text {type : ColumnType} {cell : Cell} (h : type.Holds cell) :
    isValid ((cell.map Value.text).getD []) = true ∧
      copyStringToVector option type ((cell.map Value.text).getD []) = .ok (readBack cell) := by
  match type, cell, h with
  | .string, none, _ => exact ⟨rfl, copyStringToVector_string hnull []⟩
  | .integer _, none, _ => exact ⟨rfl, rfl⟩
  | .string, some (.string text), h =>
    refine ⟨h, (copyStringToVector_string hnull text).trans ?_⟩
    cases text <;> rfl
  | .integer type, some (.integer i), h =>
    refine ⟨isValid_integerText i, ?_⟩
    show copyStringToVector option (.integer type) (integerText i) = _
    simp only [copyStringToVector, isNull_integerText, castInteger_integerText h.1 h.2]
    rfl

theorem decodesTo_rowTexts {types : List ColumnType}
    {row : List Cell} (h : Forall₂ ColumnType.Holds types row) :
    DecodesTo option types (rowTexts row) (row.map readBack) := by
  induction h with
  | nil => exact .nil
  | cons hcell _ ih =>
    obtain ⟨hvalid, hcopy⟩ := copyStringToVector_text hnull hcell
    exact .cons hvalid hcopy ih

theorem decodesTo_rows (types : List ColumnType)
    {rows : List (List Cell)} (h : ∀ row ∈ rows, Forall₂ ColumnType.Holds types row) :
    Forall₂ (DecodesTo option types) (rows.map rowTexts) (rows.map (map readBack)) := by
  induction rows with
  | nil => exact .nil
  | cons row rows ih =>
    exact .cons (decodesTo_rowTexts hnull (h row mem_cons_self)) (ih fun r hr => h r (mem_cons_of_mem _ hr))

end

/-- Every line ends where the reader expects it. With the newline as quote character, the header
must not be a mark that is taken away. -/
structure LinesEnd (option : CSVOption) (table : Table) : Prop where
  last : ∀ line ∈ table.lines option, ∀ last ∈ line.getLast?, CellEnds option lf last
  header : option.quoteChar = lf → option.hasHeader = true → table.names ≠ [byteOrderMark]

/-- There is no header and the first cell starts with a byte order mark. -/
def MarkLost (option : CSVOption) (table : Table) : Prop :=
  option.hasHeader = false ∧ ∃ text cells rows, table.rows = (some (.string text) :: cells) :: rows ∧
    requireQuotes option text = false ∧ byteOrderMark <+: text

/-- The configuration that reads a table back. -/
def Table.config (table : Table) (option : CSVOption) : ReaderConfig := ⟨option, table.types⟩

theorem Table.names_ne_nil (table : Table) : table.names ≠ [] := by
  intro h
  have hlen := table.names_length
  rw [h] at hlen
  exact table.types_ne_nil (length_eq_zero_iff.mp hlen.symm)

theorem Table.row_ne_nil (table : Table) {row : List Cell} (h : row ∈ table.rows) : row ≠ [] := by
  rintro rfl
  have := (table.rows_typed [] h).length_eq
  exact table.types_ne_nil (length_eq_zero_iff.mp this)

theorem isValid_stripMark {cell : Option Bytes} (hmarked : Marked option cell)
    (hvalid : isValid (cell.getD []) = true) : isValid ((stripMark cell).getD []) = true := by
  obtain ⟨text, rfl, -, ⟨text', rfl⟩⟩ := hmarked
  rw [getD_stripMark]
  exact (isValid_byteOrderMark_append text').symm.trans hvalid

theorem not_byteOrderMark_integerText (i : Int) : ¬byteOrderMark <+: integerText i := fun h => by
  have hmem : (0xEF : UInt8) ∈ integerText i := h.subset (by decide)
  exact absurd (toNat_of_mem_integerText hmem).2 (by decide)

theorem readBOM_writeLines (option : CSVOption) (cell : Option Bytes) (cells : List (Option Bytes))
    (lines : List (List (Option Bytes))) :
    ∃ position buffered, (Reader.ofFile (writeLines option ((cell :: cells) :: lines))).readBOM =
        ⟨position, buffered, writeLines option
          (((if byteOrderMark.isPrefixOf (writeLines option ((cell :: cells) :: lines)) then
            stripMark cell else cell) :: cells) :: lines), []⟩ ∧
      (byteOrderMark.isPrefixOf (writeLines option ((cell :: cells) :: lines)) = true ↔ Marked option cell) := by
  have hcons (c : Option Bytes) : writeLines option ((c :: cells) :: lines) =
      writeLine option (c :: cells) ++ writeLines option lines := rfl
  have hmark : byteOrderMark.isPrefixOf (writeLines option ((cell :: cells) :: lines)) = true ↔
      Marked option cell := by
    rw [List.isPrefixOf_iff_prefix, hcons, byteOrderMark_isPrefix_writeLine]
  obtain ⟨b, hb⟩ := readBOM_ofFile (writeLines option ((cell :: cells) :: lines))
  by_cases h : byteOrderMark.isPrefixOf (writeLines option ((cell :: cells) :: lines)) = true
  · refine ⟨3, b, ?_, hmark⟩
    rw [hb, if_pos h, if_pos h, hcons, drop_writeLine (hmark.mp h), ← hcons]
  · refine ⟨0, b, ?_, hmark⟩
    rw [hb, if_neg h, if_neg h]

/-- The last cell of a header still ends where it should when a mark is taken away. -/
theorem cellEnds_stripMark {text : Bytes} (hmarked : Marked option (some text))
    (hne : option.quoteChar = lf → text ≠ byteOrderMark) :
    CellEnds option lf (stripMark (some text)) := by
  intro hq
  obtain ⟨_, heq, hplain, ⟨text', rfl⟩⟩ := hmarked
  cases heq
  have hdrop : (byteOrderMark ++ text').drop 3 = text' := rfl
  have hne' : text' ≠ [] := by
    rintro rfl
    exact hne hq.symm (append_nil _)
  refine ⟨text', ?_, fun _ => ?_⟩
  · unfold stripMark
    simp [hdrop, if_neg hne']
  · exact hdrop ▸ requireQuotes_drop hplain (by rwa [hdrop])

theorem serialScan_exportCSV {table : Table} (hplain : option.Plain) (hsep : Separated option)
    (hends : LinesEnd option table) (hmark : ¬MarkLost option table) :
    serialScan (table.config option) (exportCSV option table) = .ok ⟨table.rows.map (map readBack), []⟩ := by
  have hdecodes : Forall₂ (DecodesTo (table.config option).option (table.config option).types)
      (table.rows.map rowTexts) (table.rows.map (map readBack)) :=
    decodesTo_rows hplain.nullStrings table.types table.rows_typed
  have hlast := hends.last
  unfold exportCSV
  unfold Table.lines at hlast ⊢
  by_cases hhas : option.hasHeader = true
  · -- the header line, which may lose a mark
    rw [if_pos hhas] at hlast ⊢
    obtain ⟨name, names, hnames⟩ := exists_cons_of_ne_nil table.names_ne_nil
    have hvalid : ∀ n ∈ name :: names, isValid n = true := hnames ▸ table.names_valid
    rw [hnames] at hlast ⊢
    rw [map_cons, singleton_append] at hlast ⊢
    obtain ⟨p, b, hbom, hmarked⟩ := readBOM_writeLines option (some name) (names.map some) (table.rows.map rowTexts)
    generalize hfile : writeLines option ((some name :: names.map some) :: table.rows.map rowTexts)
      = file at hbom hmarked ⊢
    generalize hfirst : (if byteOrderMark.isPrefixOf file then stripMark (some name) else some name) = first at hbom
    have hheader : headerLines option (first :: names.map some) = [first :: names.map some] := if_pos hhas
    -- the first name is as it was written, or without its mark
    have hcases : first = some name ∨ Marked option (some name) ∧ first = stripMark (some name) := by
      rw [← hfirst]
      split
      · exact Or.inr ⟨hmarked.mp ‹_›, rfl⟩
      · exact Or.inl rfl
    have hfirstValid : isValid (first.getD []) = true := by
      rcases hcases with h | ⟨h, h'⟩
      · rw [h]
        exact hvalid name mem_cons_self
      · rw [h']
        exact isValid_stripMark h (hvalid name mem_cons_self)
    refine serialScan_writeLines (table.config option) hplain hsep table.types_ne_nil
      (cons_ne_nil first (names.map some)) ?_ hdecodes ?_ hbom ?_ ?_
    · intro text htext
      rcases mem_cons.mp htext with rfl | htext
      · exact hfirstValid
      · obtain ⟨n, hn, rfl⟩ := mem_map.mp htext
        exact hvalid n (mem_cons_of_mem _ hn)
    · show ∀ line ∈ headerLines option (first :: names.map some) ++ _, _
      rw [hheader]
      intro line hline last hmem
      rcases mem_cons.mp hline with rfl | hline
      · cases names with
        | nil =>
          cases hmem
          rcases hcases with h | ⟨h, h'⟩
          · rw [h]
            exact hlast _ mem_cons_self (some name) rfl
          · rw [h']
            exact cellEnds_stripMark h fun hq => fun hname =>
              hends.header hq hhas (by rw [hnames, hname])
        | cons n names => exact hlast _ mem_cons_self last hmem
      · exact hlast line (mem_cons_of_mem _ hline) last hmem
    · show _ = writeLines option (headerLines option (first :: names.map some) ++ _)
      rw [hheader]
      rfl
    · rw [← hfile]
      show (writeLines option (table.rows.map rowTexts)).length ≤ (writeLine option (some name :: names.map some) ++
          writeLines option (table.rows.map rowTexts)).length
      rw [length_append]
      omega
  · -- no header: the first cell of the first row has no mark to lose
    have hhas' := Bool.not_eq_true _ ▸ hhas
    have hheader : headerLines option [none] = [] := if_neg hhas
    rw [if_neg hhas] at hlast ⊢
    obtain ⟨p, b, hbom⟩ : ∃ p b, (Reader.ofFile (writeLines option (table.rows.map rowTexts))).readBOM =
          ⟨p, b, writeLines option (table.rows.map rowTexts), []⟩ := by
      cases hrows : table.rows with
      | nil => exact ⟨0, 0, rfl⟩
      | cons row rows =>
        obtain ⟨cell, cells, rfl⟩ := exists_cons_of_ne_nil (table.row_ne_nil (hrows ▸ mem_cons_self))
        obtain ⟨p, b, hbom, hmarked⟩ := readBOM_writeLines option (cell.map Value.text)
          (rowTexts cells) (rows.map rowTexts)
        have hnot : ¬Marked option (cell.map Value.text) := by
          rintro ⟨text, htext, hquotes, hprefix⟩
          match cell, htext with
          | some (.string t), htext =>
            cases htext
            exact hmark ⟨hhas', t, cells, rows, hrows, hquotes, hprefix⟩
          | some (.integer i), htext =>
            cases htext
            exact not_byteOrderMark_integerText i hprefix
        rw [if_neg fun h => hnot (hmarked.mp h)] at hbom
        exact ⟨p, b, hbom⟩
    refine serialScan_writeLines (table.config option) hplain hsep table.types_ne_nil
      (cons_ne_nil none []) (fun text htext => ?_) hdecodes ?_ hbom ?_ (Nat.le_refl _)
    · rw [mem_singleton.mp htext]
      rfl
    · show ∀ line ∈ headerLines option [none] ++ _, _
      rw [hheader]
      exact hlast
    · show _ = writeLines option (headerLines option [none] ++ _)
      rw [hheader]
      rfl

/-- Without the mark, a cell is another one. -/
theorem drop_byteOrderMark_ne {text : Bytes} (hmarked : Marked option (some text)) :
    (if text.drop 3 = [] then none else some (.string (text.drop 3))) ≠ some (Value.string text) := by
  obtain ⟨_, heq, -, hprefix⟩ := hmarked
  cases heq
  have hlen := hprefix.length_le
  have hthree : byteOrderMark.length = 3 := rfl
  intro h
  split at h
  · cases h
  · have htext : text.drop 3 = text := Value.string.inj (Option.some.inj h)
    have := congrArg length htext
    rw [length_drop] at this
    omega

theorem serialScan_exportCSV_markLost {table : Table} (hplain : option.Plain)
    (hsep : Separated option) (hquote : option.quoteChar ≠ lf) (hmark : MarkLost option table) :
    ∃ rows, serialScan (table.config option) (exportCSV option table) = .ok ⟨rows, []⟩ ∧ rows ≠ table.rows := by
  obtain ⟨hhas, text, cells, rows, hrows, hquotes, hprefix⟩ := hmark
  have hmarked : Marked option (some text) := ⟨text, rfl, hquotes, hprefix⟩
  have htyped := table.rows_typed
  rw [hrows] at htyped
  obtain ⟨type, types, hcell, hcells, htypes⟩ := forall₂_cons_right_iff.mp (htyped _ mem_cons_self)
  obtain rfl : type = .string := by
    cases type with
    | string => rfl
    | integer => exact hcell.elim
  have hread : DecodesTo option table.types (stripMark (some text) :: rowTexts cells)
      ((if text.drop 3 = [] then none else some (.string (text.drop 3))) :: cells.map readBack) := by
    rw [htypes]
    refine .cons (isValid_stripMark hmarked hcell) ?_ (decodesTo_rowTexts hplain.nullStrings hcells)
    rw [getD_stripMark]
    exact copyStringToVector_string hplain.nullStrings _
  have hfile : exportCSV option table = writeLines option ((some text :: rowTexts cells) :: rows.map rowTexts) := by
    rw [exportCSV, Table.lines, if_neg (by rw [hhas]; decide), hrows]
    rfl
  obtain ⟨p, b, hbom, hiff⟩ := readBOM_writeLines option (some text) (rowTexts cells) (rows.map rowTexts)
  rw [if_pos (hiff.mpr hmarked)] at hbom
  have hheader : headerLines option [none] = [] := if_neg (by rw [hhas]; decide)
  have hvacuous (cell : Option Bytes) : CellEnds option lf cell := fun h => absurd h.symm hquote
  refine ⟨((if text.drop 3 = [] then none else some (.string (text.drop 3))) ::
    cells.map readBack) :: rows.map (map readBack), ?_, ?_⟩
  · rw [hfile]
    refine serialScan_writeLines (table.config option) hplain hsep table.types_ne_nil
      (cons_ne_nil none []) (fun t ht => ?_)
      (.cons hread (decodesTo_rows hplain.nullStrings table.types fun r hr => htyped r (mem_cons_of_mem _ hr)))
      (fun _ _ last _ => hvacuous last) hbom ?_ ?_
    · rw [mem_singleton.mp ht]
      rfl
    · show _ = writeLines option (headerLines option [none] ++ _)
      rw [hheader]
      rfl
    · show (writeLine option (stripMark (some text) :: rowTexts cells) ++
          writeLines option (rows.map rowTexts)).length ≤
        (writeLine option (some text :: rowTexts cells) ++ writeLines option (rows.map rowTexts)).length
      rw [← drop_writeLine hmarked, length_drop]
      omega
  · rw [hrows]
    intro heq
    exact drop_byteOrderMark_ne hmarked (cons.inj (cons.inj heq).1).1

end

end CycleJoin.Csv
