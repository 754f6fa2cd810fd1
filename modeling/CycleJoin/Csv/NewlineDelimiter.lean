import CycleJoin.Csv.Tables

/-!
# CSV: the newline as delimiter

Nothing stops a statement from giving the newline as delimiter. The writer then ends the rows with
the byte that separates the values, and the reader, which looks for the delimiter first, finds one
line in the whole file. A header takes all of it (`serialScan_newlineDelimiter_header`); without
one there is at most one row, and a single row is read (`serialScan_newlineDelimiter_iff`).
-/

namespace CycleJoin.Csv

open List

section
variable {config : ReaderConfig}

variable {option : CSVOption}

/-- Lines that end with the delimiter are one sequence of values. -/
theorem writeLines_eq_writeEach (hd : option.delimiter = lf)
    {lines : List (List (Option Bytes))} (hne : ∀ line ∈ lines, line ≠ []) :
    writeLines option lines = writeEach option lines.flatten := by
  induction lines with
  | nil => rfl
  | cons line lines ih =>
    obtain ⟨init, last, rfl⟩ := eq_nil_or_concat' line |>.resolve_left (hne line mem_cons_self)
    have hline : writeLine option (init ++ [last]) = writeEach option (init ++ [last]) := by
      rw [writeLine, writeCells_concat, ← hd]
      simp [writeEach]
    have hcons : writeLines option ((init ++ [last]) :: lines) =
        writeLine option (init ++ [last]) ++ writeLines option lines := rfl
    rw [hcons, ih fun l hl => hne l (mem_cons_of_mem _ hl), hline]
    simp [writeEach]

variable {driver : DriverType}

theorem finish_afterDelimiter {s s₀ : ParseState} (h : AfterDelimiter driver s s₀) (hcolumn : 0 < s.column) :
    finish config driver s = .ok (addRow config driver
      { s with lineContext := s.lineContext.setEndOfLine s.position }).2 := by
  simp [finish, h.label, finalState, h.value, hcolumn, pure, Except.pure]

variable {cells : List Cell} {texts : List (Option Bytes)}

theorem parseLoop_writeEach_file (hserial : ∀ blockEnd, driver ≠ .parallel blockEnd)
    (hdelimiter : config.option.delimiter ≠ config.option.quoteChar)
    (htaken : Taken config driver 0 texts cells) (hne : texts ≠ []) (position buffered : Nat) :
    ∃ s p, AfterDelimiter driver s s ∧ s.column = texts.length ∧ s.row = cells ∧
      parseLoop config driver (.start position) 0 buffered (writeEach config.option texts) =
        .ok ⟨(addRow config driver
          { s with lineContext := s.lineContext.setEndOfLine s.position }).2, p, 0, []⟩ := by
  obtain ⟨s, s₀, b, -, -, hcol, hrow, hafter, hparse⟩ := parseLoop_writeEach hserial hdelimiter
    htaken (startsValue_start driver position) rfl rfl buffered []
  have h := hafter (Or.inr hne)
  obtain rfl := h.same
  rw [zero_add] at hcol
  refine ⟨s, s.position, h, hcol, hrow, ?_⟩
  rw [append_nil] at hparse
  rw [hparse, parseLoop, finish_afterDelimiter h (by
    rw [hcol]
    exact length_pos_of_ne_nil hne)]
  rfl

theorem readHeader_writeEach (hdelimiter : config.option.delimiter ≠ config.option.quoteChar)
    (hne : texts ≠ []) (hvalid : ∀ text ∈ texts, isValid (text.getD []) = true) {r : Reader}
    (hrest : r.rest = writeEach config.option texts) :
    ∃ position, r.readHeader config = .ok ⟨position, 0, [], r.errors⟩ := by
  obtain ⟨s, p, -, -, -, hparse⟩ := parseLoop_writeEach_file (fun _ => by simp) hdelimiter
    (taken_header hvalid) hne r.position r.buffered
  rw [Reader.readHeader, Reader.parseCSV, hrest, hparse]
  simp [bind, Except.bind, pure, Except.pure, addRow, DriverType.parses]

variable {text : Option Bytes} {table : Table}

theorem isValid_of_mem_lines (hnull : option.nullStrings = [[]])
    {line : List (Option Bytes)} (hline : line ∈ table.lines option)
    (htext : text ∈ line) : isValid (text.getD []) = true := by
  have htyped {types : List ColumnType} {row : List Cell}
      (h : Forall₂ ColumnType.Holds types row) {cell : Cell} (hcell : cell ∈ row) :
      ∃ type : ColumnType, type.Holds cell := by
    induction h with
    | nil => cases hcell
    | cons hfirst _ ih =>
      rcases mem_cons.mp hcell with rfl | hcell
      · exact ⟨_, hfirst⟩
      · exact ih hcell
  rcases mem_append.mp hline with hline | hline
  · split at hline
    · rw [mem_singleton.mp hline] at htext
      obtain ⟨name, hname, rfl⟩ := mem_map.mp htext
      exact table.names_valid name hname
    · cases hline
  · obtain ⟨row, hrow, rfl⟩ := mem_map.mp hline
    obtain ⟨cell, hcell, rfl⟩ := mem_map.mp htext
    obtain ⟨type, hholds⟩ := htyped (table.rows_typed row hrow) hcell
    exact (copyStringToVector_text hnull hholds).1

theorem Table.line_ne_nil (table : Table) {line : List (Option Bytes)}
    (hline : line ∈ table.lines option) : line ≠ [] := by
  rcases mem_append.mp hline with hline | hline
  · split at hline
    · rw [mem_singleton.mp hline]
      exact fun h => table.names_ne_nil (map_eq_nil_iff.mp h)
    · cases hline
  · obtain ⟨row, hrow, rfl⟩ := mem_map.mp hline
    exact fun h => table.row_ne_nil hrow (map_eq_nil_iff.mp h)

/-- The values of the file after `readBOM`: the first one may have lost its mark. -/
theorem readBOM_writeEach (hnull : option.nullStrings = [[]])
    (hd : option.delimiter = lf) (table : Table) {cell : Option Bytes}
    {cells : List (Option Bytes)} {lines : List (List (Option Bytes))}
    (hlines : table.lines option = (cell :: cells) :: lines) :
    ∃ first position buffered, (first = cell ∧ ¬Marked option cell ∨ Marked option cell ∧ first = stripMark cell) ∧
      (∀ text ∈ first :: cells ++ lines.flatten, isValid (text.getD []) = true) ∧
      (Reader.ofFile (exportCSV option table)).readBOM =
        ⟨position, buffered, writeEach option (first :: cells ++ lines.flatten), []⟩ := by
  obtain ⟨p, b, hbom, hmarked⟩ := readBOM_writeLines option cell cells lines
  have hvalid : ∀ line ∈ (cell :: cells) :: lines, ∀ text ∈ line, isValid (text.getD []) = true :=
    fun line hline text htext => isValid_of_mem_lines hnull (hlines ▸ hline) htext
  rw [exportCSV, hlines]
  generalize writeLines option ((cell :: cells) :: lines) = file at hbom hmarked ⊢
  generalize hfirst : (if byteOrderMark.isPrefixOf file then stripMark cell else cell) = first
    at hbom
  have hcases : first = cell ∧ ¬Marked option cell ∨ Marked option cell ∧ first = stripMark cell := by
    rw [← hfirst]
    split
    · exact Or.inr ⟨hmarked.mp ‹_›, rfl⟩
    · exact Or.inl ⟨rfl, fun h => ‹¬_› (hmarked.mpr h)⟩
  refine ⟨first, p, b, hcases, fun text htext => ?_, ?_⟩
  · rcases mem_append.mp htext with htext | htext
    · rcases mem_cons.mp htext with rfl | htext
      · have hcell := hvalid _ mem_cons_self cell mem_cons_self
        rcases hcases with ⟨h, -⟩ | ⟨h, h'⟩
        · rwa [h]
        · rw [h']
          exact isValid_stripMark h hcell
      · exact hvalid _ mem_cons_self text (mem_cons_of_mem _ htext)
    · obtain ⟨line, hline, htext⟩ := mem_flatten.mp htext
      exact hvalid line (mem_cons_of_mem _ hline) text htext
  · rw [hbom, writeLines_eq_writeEach hd fun line hline => ?_]
    · rfl
    · rcases mem_cons.mp hline with rfl | hline
      · exact cons_ne_nil _ _
      · exact table.line_ne_nil (hlines ▸ mem_cons_of_mem _ hline)

/-- With a header, no row is left. -/
theorem serialScan_newlineDelimiter_header (hplain : option.Plain) (hdelimiter : option.delimiter ≠ option.quoteChar)
    (hd : option.delimiter = lf) (hhas : option.hasHeader = true) :
    serialScan (table.config option) (exportCSV option table) = .ok ⟨[], []⟩ := by
  obtain ⟨name, names, hnames⟩ := exists_cons_of_ne_nil table.names_ne_nil
  have hlines : table.lines option = (some name :: names.map some) :: table.rows.map rowTexts := by
    rw [Table.lines, if_pos hhas, hnames]
    rfl
  obtain ⟨first, p, b, -, hvalid, hbom⟩ := readBOM_writeEach hplain.nullStrings hd table hlines
  let r : Reader := ⟨p, b, writeEach option (first :: names.map some ++ (table.rows.map rowTexts).flatten), []⟩
  obtain ⟨q, hread⟩ : ∃ q, r.readHeader (table.config option) = .ok ⟨q, 0, [], r.errors⟩ :=
    readHeader_writeEach hdelimiter (cons_ne_nil _ _) hvalid rfl
  have hhas' : (table.config option).option.hasHeader = true := hhas
  rw [serialScan_eq hplain, firstBlock, if_pos hhas', hbom, hread]
  exact finalizeScan_nil []

/-! ## Without a header -/

/-- Errors that have been reported stay. -/
theorem readBlocks_errors {fuel : Nat} {r r' : Reader} {rows : List (List Cell)}
    (h : r.readBlocks config fuel = .ok (rows, r')) : r.errors <+: r'.errors := by
  induction fuel generalizing r rows with
  | zero =>
    cases h
    exact prefix_rfl
  | succ fuel ih =>
    simp only [Reader.readBlocks, Reader.parseCSV, bind, Except.bind, pure, Except.pure] at h
    cases hparse : parseLoop config .serial (.start r.position) 0 r.buffered r.rest with
    | error e =>
      rw [hparse] at h
      cases h
    | ok result =>
      rw [hparse] at h
      simp only at h
      split at h
      · cases h
        exact prefix_append _ _
      · split at h
        · cases h
        · rename_i p hblocks
          cases h
          exact (prefix_append _ _).trans (ih hblocks)

variable {p : List (List Cell) × List CopyFromFileError} {errors : List CopyFromFileError}

/-- The errors of a chunk are among those of the scan. -/
theorem scanFrom_errors {s : ParseState} {curRowIdx buffered fuel : Nat} {bytes : Bytes}
    {r : ParseResult} (hparse : parseLoop config .serial s curRowIdx buffered bytes = .ok r)
    (h : scanFrom config fuel s curRowIdx buffered bytes errors = .ok p) :
    errors ++ r.output.errors <+: p.2 := by
  unfold scanFrom at h
  rw [hparse] at h
  simp only [bind, Except.bind] at h
  split at h
  · cases h
    exact prefix_rfl
  · split at h
    · cases h
    · rename_i hblocks
      cases h
      exact readBlocks_errors hblocks

/-- After a step with an error the scan has errors. -/
theorem scanFrom_error {s s' : ParseState} {curRowIdx buffered buffered' fuel : Nat}
    {bytes rest : Bytes} {e : CopyFromFileError}
    (hparse : parseLoop config .serial s curRowIdx buffered bytes =
      continueWith config .serial curRowIdx buffered' rest (.ok (s', ⟨[], [e]⟩)))
    (h : scanFrom config fuel s curRowIdx buffered bytes errors = .ok p) : p.2 ≠ [] := by
  cases hrest : parseLoop config .serial s' (curRowIdx + ([] : List (List Cell)).length) buffered' rest with
  | error e' =>
    have herror : parseLoop config .serial s curRowIdx buffered bytes = .error e' := by
      rw [hparse]
      simp only [continueWith, bind, Except.bind, hrest]
    unfold scanFrom at h
    rw [herror] at h
    cases h
  | ok r =>
    have hok : parseLoop config .serial s curRowIdx buffered bytes = .ok (r.after ⟨[], [e]⟩) := by
      rw [hparse]
      simp only [continueWith, bind, Except.bind, hrest]
      rfl
    have hprefix := scanFrom_errors hok h
    intro hnil
    rw [hnil] at hprefix
    simp [ParseResult.after, Output.append] at hprefix

/-- A scan that is not to ignore errors reports none. -/
theorem finalizeScan_errors {rows : List (List Cell)}
    {result : ScanResult} (hplain : config.option.Plain)
    (h : finalizeScan config rows errors = .ok result) : errors = [] ∧ result = ⟨rows, []⟩ := by
  unfold finalizeScan at h
  rw [hplain.ignoreErrors, if_neg (by decide)] at h
  split at h
  · cases h
    exact ⟨rfl, rfl⟩
  · cases h

/-- A value after the last column is an error, unless it is empty and the first one there. -/
theorem endAct_tooMany {s₀ s : ParseState} {text : Bytes} (hread : ReadValue s₀ s text)
    (hvalid : isValid text = true) (hcolumn : config.numColumns ≤ s₀.column)
    (hnot : ¬(s₀.column = config.numColumns ∧ text = [])) :
    ∃ s' e, endAct config .serial s config.option.delimiter = .ok (s', ⟨[], [e]⟩) := by
  have hnone : config.types[s.column]? = none := by
    rw [hread.column]
    exact getElem?_eq_none hcolumn
  have hadd : ∃ s' e, addValue config .serial s = .ok (s', some e) := by
    rw [← hread.column] at hnot
    simp only [addValue, hread.valueToAdd, hvalid, driverAddValue, hnone, if_neg hnot]
    exact ⟨_, _, rfl⟩
  obtain ⟨s', e, hadd⟩ := hadd
  refine ⟨ignoreError s' config.option.delimiter, e, ?_⟩
  rw [endAct, if_pos rfl, addValueAct, hadd]
  rfl

/-- One empty value after the last column is skipped. -/
theorem valueTaken_trailing : ValueTaken config .serial config.numColumns [] [] where
  valid := rfl
  taken := fun s hs => by
    have hnone : config.types[s.column]? = none := by
      rw [hs]
      exact getElem?_eq_none le_rfl
    simp only [driverAddValue, DriverType.parses, if_true, hnone]
    rw [if_pos ⟨hs, trivial⟩, hs, append_nil]

theorem addRow_afterDelimiter {s : ParseState} (h : AfterDelimiter .serial s s)
    (hcolumn : config.numColumns ≤ s.column) (hne : 0 < config.numColumns) :
    (addRow config .serial { s with
      lineContext := s.lineContext.setEndOfLine s.position }).2 = ⟨[s.row], []⟩ := by
  have h₁ : ¬(s.rowEmpty = true ∧ config.numColumns ≠ 1) := by
    rintro ⟨hempty, hone⟩
    have := h.rowEmpty rfl hempty
    omega
  simp [addRow, if_neg h₁, if_neg (not_lt.mpr hcolumn)]

theorem scanFrom_oneRow (hdelimiter : config.option.delimiter ≠ config.option.quoteChar)
    (htaken : Taken config .serial 0 texts cells) (hlength : config.numColumns ≤ texts.length)
    (hne : 0 < config.numColumns) (position buffered fuel : Nat) :
    scanFrom config fuel (.start position) 0 buffered (writeEach config.option texts) [] = .ok ([cells], []) := by
  have hne' : texts ≠ [] := by
    rintro rfl
    simp only [length_nil] at hlength
    omega
  obtain ⟨s, p, hafter, hcol, hrow, hparse⟩ := parseLoop_writeEach_file (fun _ => by simp)
    hdelimiter htaken hne' position buffered
  rw [addRow_afterDelimiter hafter (hcol ▸ hlength) hne, hrow] at hparse
  unfold scanFrom
  rw [hparse]
  have hblocks : Reader.readBlocks config fuel ⟨p, 0, [], []⟩ = .ok ([], ⟨p, 0, [], []⟩) := by
    cases fuel <;> rfl
  simp only [bind, Except.bind, append_nil, hblocks]
  rfl

theorem Taken.append {column : Nat} {texts texts' : List (Option Bytes)}
    {cells cells' : List Cell} (h : Taken config driver column texts cells)
    (h' : Taken config driver (column + texts.length) texts' cells') :
    Taken config driver column (texts ++ texts') (cells ++ cells') := by
  induction h with
  | nil => exact h'
  | cons hvalue _ ih =>
    rw [append_assoc]
    refine .cons hvalue (ih ?_)
    rwa [length_cons, add_comm _ 1, ← add_assoc] at h'

theorem scanFrom_excess (hdelimiter : config.option.delimiter ≠ config.option.quoteChar)
    {texts more : List (Option Bytes)}
    (htaken : Taken config .serial 0 texts cells) (hlength : config.numColumns ≤ texts.length)
    (hnot : ¬(texts.length = config.numColumns ∧ text.getD [] = []))
    (hvalid : isValid (text.getD []) = true) {position buffered fuel : Nat}
    (h : scanFrom config fuel (.start position) 0 buffered
      (writeEach config.option (texts ++ text :: more)) [] = .ok p) : p.2 ≠ [] := by
  have hsplit : writeEach config.option (texts ++ text :: more) =
      writeEach config.option texts ++ (writeCell config.option text ++ config.option.delimiter ::
        writeEach config.option more) := by
    simp [writeEach]
  obtain ⟨s, s₀, b, hstart, hesc, hcol, -, -, hparse⟩ := parseLoop_writeEach (fun _ => by simp)
    hdelimiter htaken (startsValue_start .serial position) rfl rfl buffered
      (writeCell config.option text ++ config.option.delimiter :: writeEach config.option more)
  obtain ⟨s₁, b₁, hread, hparse₁⟩ := parseLoop_writeCell hstart hesc (fun _ => by simp) (Or.inl rfl)
    (cellEnds_delimiter hdelimiter text) b (writeEach config.option more)
  rw [zero_add] at hcol
  obtain ⟨s', e, hend⟩ := endAct_tooMany hread hvalid (hcol ▸ hlength) (hcol ▸ hnot)
  rw [hend] at hparse₁
  rw [hsplit] at h
  exact scanFrom_error (hparse.trans hparse₁) h

/-- More values than columns make at most one row. -/
theorem scanFrom_tooMany (hdelimiter : config.option.delimiter ≠ config.option.quoteChar)
    (hne : 0 < config.numColumns) {texts more : List (Option Bytes)}
    (htaken : Taken config .serial 0 texts cells) (hlength : texts.length = config.numColumns)
    (hvalid : ∀ t ∈ text :: more, isValid (t.getD []) = true) (position buffered fuel : Nat)
    (h : scanFrom config fuel (.start position) 0 buffered
      (writeEach config.option (texts ++ text :: more)) [] = .ok p) (herrors : p.2 = []) :
    p.1 = [cells] := by
  by_cases hempty : text.getD [] = []
  · -- an empty value is skipped, and anything after it is too much
    have htaken' : Taken config .serial 0 (texts ++ [text]) (cells ++ ([] ++ [])) := by
      refine htaken.append (.cons ?_ .nil)
      rw [zero_add, hlength, hempty]
      exact valueTaken_trailing
    rw [append_nil, append_nil] at htaken'
    have hlength' : (texts ++ [text]).length = config.numColumns + 1 := by simp [hlength]
    cases more with
    | nil =>
      rw [scanFrom_oneRow hdelimiter htaken' (by omega) hne] at h
      cases h
      rfl
    | cons text' more =>
      rw [← singleton_append, ← append_assoc] at h
      exact absurd herrors (scanFrom_excess hdelimiter htaken' (by omega) (by omega) (hvalid text' (by simp)) h)
  · exact absurd herrors (scanFrom_excess hdelimiter htaken hlength.ge
      (fun h => hempty h.2) (hvalid text mem_cons_self) h)

/-- What the first row becomes: what is read back, unless its first cell has lost a mark. -/
theorem decodesTo_first (hplain : option.Plain) {types : List ColumnType} {cell : Cell}
    (htyped : Forall₂ ColumnType.Holds types (cell :: cells)) {first : Option Bytes}
    (hfirst : first = cell.map Value.text ∧ ¬Marked option (cell.map Value.text) ∨
      Marked option (cell.map Value.text) ∧ first = stripMark (cell.map Value.text)) :
    ∃ row, DecodesTo option types (first :: rowTexts cells) row ∧
      (row = cell :: cells ↔ ¬Marked option (cell.map Value.text) ∧ some (.string []) ∉ cell :: cells) := by
  obtain ⟨type, types, hcell, hcells, rfl⟩ := forall₂_cons_right_iff.mp htyped
  rcases hfirst with ⟨rfl, hnot⟩ | ⟨hmarked, rfl⟩
  · refine ⟨(cell :: cells).map readBack, decodesTo_rowTexts hplain.nullStrings htyped, ?_⟩
    rw [and_iff_right hnot]
    have h : [cell :: cells].map (map readBack) = [cell :: cells] ↔
        ∀ row ∈ [cell :: cells], some (.string []) ∉ row := map_readBack_eq_self
    simpa using h
  · match type, cell, hcell with
    | .integer type, some (.integer i), _ =>
      obtain ⟨text, htext, -, hprefix⟩ := hmarked
      cases htext
      exact absurd hprefix (not_byteOrderMark_integerText i)
    | _, none, _ =>
      obtain ⟨text, htext, -⟩ := hmarked
      cases htext
    | .string, some (.string text), hcell =>
      have hcopy := copyStringToVector_string hplain.nullStrings (text.drop 3)
      refine ⟨_, .cons (isValid_stripMark hmarked hcell) (by
        rw [Option.map_some, getD_stripMark]
        exact hcopy) (decodesTo_rowTexts hplain.nullStrings hcells), ?_⟩
      refine iff_of_false (fun heq => ?_) fun h => h.1 hmarked
      exact drop_byteOrderMark_ne hmarked (cons.inj heq).1

/-- The newline as delimiter: one row without a header, or no row at all. -/
theorem serialScan_newlineDelimiter_iff (hplain : option.Plain) (hdelimiter : option.delimiter ≠ option.quoteChar)
    (hd : option.delimiter = lf) :
    serialScan (table.config option) (exportCSV option table) = .ok ⟨table.rows, []⟩ ↔
      (∀ row ∈ table.rows, some (.string []) ∉ row) ∧ ¬MarkLost option table ∧
        (table.rows = [] ∨ option.hasHeader = false ∧ table.rows.length = 1) := by
  have hcolumns : 0 < (table.config option).numColumns := length_pos_of_ne_nil table.types_ne_nil
  by_cases hhas : option.hasHeader = true
  · rw [serialScan_newlineDelimiter_header hplain hdelimiter hd hhas]
    constructor
    · intro h
      have hrows : table.rows = [] := (ScanResult.mk.inj (Except.ok.inj h)).1.symm
      refine ⟨fun row hrow => ?_, fun hmark => ?_, Or.inl hrows⟩
      · rw [hrows] at hrow
        cases hrow
      · rw [hmark.1] at hhas
        cases hhas
    · rintro ⟨-, -, hrows | ⟨hfalse, -⟩⟩
      · rw [hrows]
      · rw [hfalse] at hhas
        cases hhas
  have hhas' : option.hasHeader = false := Bool.not_eq_true _ ▸ hhas
  have hfirst (file : Bytes) : firstBlock (table.config option) file = .ok (Reader.ofFile file).readBOM := if_neg hhas
  have hlines : table.lines option = table.rows.map rowTexts := by
    rw [Table.lines, if_neg hhas, nil_append]
  cases hrows : table.rows with
  | nil =>
    have hfile : exportCSV option table = [] := by
      rw [exportCSV, hlines, hrows]
      rfl
    refine iff_of_true ?_ ⟨fun row hrow => absurd hrow not_mem_nil, fun hmark => ?_, Or.inl rfl⟩
    · rw [hfile]
      have hbom : (Reader.ofFile []).readBOM = ⟨0, 0, [], []⟩ := rfl
      rw [serialScan_eq hplain, hfirst]
      exact finalizeScan_nil []
    · obtain ⟨-, text, cells, rows, h, -⟩ := hmark
      rw [hrows] at h
      cases h
  | cons row rows =>
    obtain ⟨cell, cells, rfl⟩ := exists_cons_of_ne_nil (table.row_ne_nil (hrows ▸ mem_cons_self))
    have hlines' : table.lines option =
        (cell.map Value.text :: rowTexts cells) :: rows.map rowTexts := by rw [hlines, hrows]; rfl
    have htyped := table.rows_typed
    rw [hrows] at htyped
    obtain ⟨first, p, b, hcases, hvalid, hbom⟩ := readBOM_writeEach hplain.nullStrings hd table hlines'
    obtain ⟨read, hread, hiff⟩ := decodesTo_first hplain (htyped _ mem_cons_self) hcases
    have hmark : MarkLost option table ↔ Marked option (cell.map Value.text) := by
      constructor
      · rintro ⟨-, text, cells', rows', h, hquotes, hprefix⟩
        rw [hrows] at h
        cases h
        exact ⟨text, rfl, hquotes, hprefix⟩
      · rintro ⟨text, htext, hquotes, hprefix⟩
        rcases cell with _ | t | i <;> cases htext
        · exact ⟨hhas', t, cells, rows, hrows, hquotes, hprefix⟩
        · exact absurd hprefix (not_byteOrderMark_integerText i)
    have htaken : Taken (table.config option) .serial 0 (first :: rowTexts cells) read :=
      hread.taken rfl [] [] (append_nil _).symm
    have hlength : (first :: rowTexts cells).length = (table.config option).numColumns := hread.length
    rw [serialScan_eq hplain, hfirst, hbom]
    simp only [bind, Except.bind]
    rw [hmark]
    cases rows with
    | nil =>
      have hscan : scanFrom (table.config option) (exportCSV option table).length (.start p) 0 b
          (writeEach option (first :: rowTexts cells)) [] = .ok ([read], []) :=
        scanFrom_oneRow hdelimiter htaken hlength.ge hcolumns p b _
      rw [map_nil, flatten_nil, append_nil, hscan]
      simp only
      rw [finalizeScan_nil]
      simp only [Except.ok.injEq, ScanResult.mk.injEq, cons.injEq, and_true, hiff, hhas']
      rw [and_comm]
      simp
    | cons row' rows =>
      obtain ⟨cell', cells', rfl⟩ := exists_cons_of_ne_nil
        (table.row_ne_nil (show row' ∈ table.rows by rw [hrows]; simp))
      refine iff_of_false (fun h => ?_) ?_
      · split at h
        · cases h
        · rename_i result hscan
          obtain ⟨herrors, hresult⟩ := finalizeScan_errors hplain h
          have hone : result.1 = [read] := by
            refine scanFrom_tooMany hdelimiter hcolumns htaken hlength ?_ p b _ hscan herrors
            exact fun t ht => hvalid t (mem_append_right _ ht)
          have hrows' := (ScanResult.mk.inj hresult).1
          rw [hone] at hrows'
          cases hrows'
      · rintro ⟨-, -, h | ⟨-, h⟩⟩
        · cases h
        · simp at h

end

end CycleJoin.Csv
