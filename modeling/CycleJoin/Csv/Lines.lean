import CycleJoin.Csv.Values

/-!
# CSV: written lines are read back

`parseLoop_writeLine` reads a line that was written for a row, and `scanFrom_writeLines` all the
lines of a file, over the chunks of the serial reader. What the driver makes of the texts is a
parameter (`Taken`), so that the header and the rows share the argument.
-/

namespace CycleJoin.Csv

open List

section
variable {config : ReaderConfig} {driver : DriverType}

/-- The driver takes a text as the value of a column, and writes `cells` to the row: one cell, or
none if it keeps nothing. -/
structure ValueTaken (config : ReaderConfig) (driver : DriverType) (column : Nat) (text : Bytes)
    (cells : List Cell) : Prop where
  valid : isValid text = true
  taken : ∀ s : ParseState, s.column = column → driverAddValue config driver s text = ({ s with
      row := s.row ++ cells
      rowEmpty := if driver.parses then text.isEmpty && column == 0 else s.rowEmpty }, none)

/-- The driver takes the texts as the values of the columns from `column` on. -/
inductive Taken (config : ReaderConfig) (driver : DriverType) :
    Nat → List (Option Bytes) → List Cell → Prop where
  | nil {column : Nat} : Taken config driver column [] []
  | cons {column : Nat} {text : Option Bytes} {texts : List (Option Bytes)} {cells cells' : List Cell} :
    ValueTaken config driver column (text.getD []) cells →
    Taken config driver (column + 1) texts cells' →
    Taken config driver column (text :: texts) (cells ++ cells')

theorem ValueTaken.addValue {column : Nat} {text : Bytes} {cells : List Cell} {s₀ s : ParseState}
    (h : ValueTaken config driver column text cells) (hread : ReadValue s₀ s text)
    (hcolumn : s₀.column = column) :
    addValue config driver s = .ok ({ s with
      escapePositions := []
      row := s₀.row ++ cells
      rowEmpty := if driver.parses then text.isEmpty && column == 0 else s.rowEmpty }, none) := by
  have htaken := h.taken { s with escapePositions := [] } (hread.column.trans hcolumn)
  simp only [Csv.addValue, hread.valueToAdd, h.valid]
  rw [← hread.row]
  exact congrArg Except.ok htaken

/-- The texts, each followed by the delimiter. -/
def writeEach (option : CSVOption) (texts : List (Option Bytes)) : Bytes :=
  texts.flatMap fun text => writeCell option text ++ [option.delimiter]

theorem writeEach_cons (option : CSVOption) (text : Option Bytes) (texts : List (Option Bytes)) :
    writeEach option (text :: texts) = writeCell option text ++ option.delimiter :: writeEach option texts := by
  simp [writeEach]

theorem writeCells_concat (option : CSVOption) (texts : List (Option Bytes)) (last : Option Bytes) :
    writeCells option (texts ++ [last]) = writeEach option texts ++ writeCell option last := by
  induction texts with
  | nil => rfl
  | cons text texts ih =>
    have hcons : writeCells option (text :: (texts ++ [last])) =
        writeCell option text ++ option.delimiter :: writeCells option (texts ++ [last]) := by
      cases texts <;> rfl
    rw [cons_append, hcons, ih, writeEach_cons, append_assoc, cons_append]

/-- The delimiter is never taken for a quote. -/
theorem cellEnds_delimiter {option : CSVOption} (h : option.delimiter ≠ option.quoteChar)
    (cell : Option Bytes) : CellEnds option option.delimiter cell := fun heq => absurd heq h

/-- The reader stands after a delimiter. -/
structure AfterDelimiter (driver : DriverType) (s s₀ : ParseState) : Prop where
  label : s.label = .valueStart
  same : s = s₀
  value : s.value = []
  rowEmpty : driver.parses = true → s.rowEmpty = true → s.column = 1

theorem parseLoop_writeEach (hserial : ∀ blockEnd, driver ≠ .parallel blockEnd)
    (hdelimiter : config.option.delimiter ≠ config.option.quoteChar) {column : Nat}
    {texts : List (Option Bytes)} {cells : List Cell} (htaken : Taken config driver column texts cells)
    {s s₀ : ParseState} {curRowIdx : Nat} (hstart : StartsValue config driver curRowIdx s s₀)
    (hescapes : s₀.escapePositions = []) (hcolumn : s₀.column = column) (buffered : Nat) (rest : Bytes) :
    ∃ s' s₀' buffered', StartsValue config driver curRowIdx s' s₀' ∧ s₀'.escapePositions = [] ∧
      s₀'.column = column + texts.length ∧ s₀'.row = s₀.row ++ cells ∧
      (AfterDelimiter driver s s₀ ∨ texts ≠ [] → AfterDelimiter driver s' s₀') ∧
      parseLoop config driver s curRowIdx buffered (writeEach config.option texts ++ rest) =
        parseLoop config driver s' curRowIdx buffered' rest := by
  induction htaken generalizing s s₀ buffered with
  | nil => exact ⟨s, s₀, buffered, hstart, hescapes, hcolumn, (append_nil _).symm,
      fun h => h.resolve_right fun h => h rfl, rfl⟩
  | @cons column text texts cells cells' hvalue _ ih =>
    rw [writeEach_cons, append_assoc, cons_append]
    obtain ⟨s₁, b₁, hread, hparse⟩ := parseLoop_writeCell hstart hescapes hserial (Or.inl rfl)
      (cellEnds_delimiter hdelimiter text) buffered (writeEach config.option texts ++ rest)
    let s₂ : ParseState := { s₁ with
      escapePositions := []
      row := s₀.row ++ cells
      rowEmpty := if driver.parses then (text.getD []).isEmpty && column == 0 else s₁.rowEmpty
      position := s₁.position + 1
      label := .valueStart
      column := s₁.column + 1
      value := [] }
    have hend : endAct config driver s₁ config.option.delimiter = .ok (s₂, .empty) := by
      rw [endAct, if_pos rfl, addValueAct, hvalue.addValue hread hcolumn]
      rfl
    have hstart₂ : StartsValue config driver curRowIdx s₂ s₂ := fun _ _ => rfl
    obtain ⟨s', s₀', b', hs', hesc', hcol', hrow', hlabel', hrest⟩ :=
      ih hstart₂ rfl (by rw [← hcolumn, ← hread.column]) b₁
    refine ⟨s', s₀', b', hs', hesc', ?_, ?_, fun _ => ?_, ?_⟩
    · rw [length_cons]
      omega
    · rw [hrow', append_assoc]
    · refine hlabel' (Or.inl ⟨rfl, rfl, rfl, fun hparses hempty => ?_⟩)
      simp only [s₂, hparses, if_true, Bool.and_eq_true, beq_iff_eq] at hempty
      show s₁.column + 1 = 1
      rw [hread.column, hcolumn, hempty.2]
    · rw [hparse, hend, continueWith_ok_empty, hrest]

/-- The state after a line. -/
structure LineDone (s : ParseState) : Prop where
  label : s.label = .rowEnd
  column : s.column = 0
  value : s.value = []
  escapePositions : s.escapePositions = []
  row : s.row = []

/-- The driver adds the row with its cells, whatever the position. -/
def RowTaken (config : ReaderConfig) (driver : DriverType) (numValues : Nat) (rowEmpty : Bool)
    (row : List Cell) : Prop :=
  ∀ s : ParseState, s.column = numValues → s.rowEmpty = rowEmpty → s.row = row →
    (addRow config driver s).2 = ⟨[row], []⟩

theorem parseLoop_writeLine (hserial : ∀ blockEnd, driver ≠ .parallel blockEnd)
    (hdelimiter : config.option.delimiter ≠ config.option.quoteChar)
    (hnewline : config.option.delimiter ≠ lf) {texts : List (Option Bytes)} {last : Option Bytes}
    {cells cells' : List Cell} (htaken : Taken config driver 0 texts cells)
    (hlast : ValueTaken config driver texts.length (last.getD []) cells')
    (hends : CellEnds config.option lf last)
    (hrow : ∀ b, driver.parses = false ∨ b = ((last.getD []).isEmpty && texts.length == 0) →
      RowTaken config driver (texts.length + 1) b (cells ++ cells'))
    {s s₀ : ParseState} {curRowIdx : Nat} (hstart : StartsValue config driver curRowIdx s s₀)
    (hescapes : s₀.escapePositions = []) (hcolumn : s₀.column = 0) (hrow₀ : s₀.row = [])
    (buffered : Nat) (rest : Bytes) :
    ∃ s' buffered', LineDone s' ∧ parseLoop config driver s curRowIdx buffered
          (writeLine config.option (texts ++ [last]) ++ rest) =
        continueWith config driver curRowIdx buffered' rest (.ok (s', ⟨[cells ++ cells'], []⟩)) := by
  rw [writeLine, writeCells_concat, append_assoc, append_assoc, cons_append, nil_append]
  obtain ⟨s₁, s₁', b₁, hstart₁, hesc₁, hcol₁, hrow₁, -, hparse₁⟩ :=
    parseLoop_writeEach hserial hdelimiter htaken hstart hescapes hcolumn buffered
      (writeCell config.option last ++ lf :: rest)
  obtain ⟨s₂, b₂, hread, hparse₂⟩ := parseLoop_writeCell hstart₁ hesc₁ hserial (Or.inr rfl) hends b₁ rest
  rw [hparse₁, hparse₂]
  rw [Nat.zero_add] at hcol₁
  rw [hrow₀] at hrow₁
  -- `add_row`: the end of the line, the last value, and the row
  let s₃ : ParseState := { s₂ with lineContext := s₂.lineContext.setEndOfLine s₂.position }
  let s₄ : ParseState := { s₃ with
    escapePositions := []
    row := cells ++ cells'
    rowEmpty := if driver.parses then (last.getD []).isEmpty && texts.length == 0 else s₂.rowEmpty
    column := s₂.column + 1 }
  have hread₃ : ReadValue { s₁' with lineContext := s₃.lineContext } s₃ (last.getD []) :=
    ⟨hread.valueToAdd, hread.column, hread.row, hread.rowEmpty, rfl⟩
  have hadd := hlast.addValue hread₃ hcol₁
  have hout : (addRow config driver s₄).2 = ⟨[cells ++ cells'], []⟩ := by
    refine hrow s₄.rowEmpty ?_ s₄ ?_ rfl rfl
    · by_cases hparses : driver.parses = true
      · exact Or.inr (by simp [s₄, hparses])
      · exact Or.inl (Bool.not_eq_true _ ▸ hparses)
    · simp [s₄, hread.column, hcol₁]
  have hend : endAct config driver s₂ lf = .ok ({ (addRow config driver s₄).1.consume .rowEnd with
      column := 0
      value := []
      lineContext := (addRow config driver s₄).1.lineContext.setNewLine
        ((addRow config driver s₄).1.position + 1) }, ⟨[cells ++ cells'], []⟩) := by
    rw [endAct, if_neg (Ne.symm hnewline), ← hout]
    unfold addRowAct
    simp only [bind]
    rw [show addValue config driver s₃ = _ from hadd, hrow₁]
    rfl
  refine ⟨_, b₂, ?_, by rw [hend]⟩
  have hnext : (addRow config driver s₄).1 = { s₄ with row := [], rowEmpty := false } := by
    unfold addRow
    repeat' split
    all_goals rfl
  rw [hnext]
  exact ⟨rfl, rfl, rfl, rfl, rfl⟩

end

/-! ## Rows -/

section
variable {config : ReaderConfig}

/-- The texts of a row, one for each column, and what they are cast to. -/
inductive DecodesTo (option : CSVOption) :
    List ColumnType → List (Option Bytes) → List Cell → Prop where
  | nil : DecodesTo option [] [] []
  | cons {type : ColumnType} {types : List ColumnType} {text : Option Bytes}
    {texts : List (Option Bytes)} {cell : Cell} {cells : List Cell} :
    isValid (text.getD []) = true → copyStringToVector option type (text.getD []) = .ok cell →
    DecodesTo option types texts cells →
    DecodesTo option (type :: types) (text :: texts) (cell :: cells)

theorem valueTaken_serial {column : Nat} {type : ColumnType} {text : Bytes} {cell : Cell}
    (htype : config.types[column]? = some type) (hvalid : isValid text = true)
    (hcopy : copyStringToVector config.option type text = .ok cell) :
    ValueTaken config .serial column text [cell] where
  valid := hvalid
  taken := fun s hs => by simp [driverAddValue, DriverType.parses, hs, htype, hcopy]

variable {texts : List (Option Bytes)} {cells : List Cell} {types : List ColumnType}
  {option : CSVOption}

section
variable (h : DecodesTo option types texts cells)
include h

theorem DecodesTo.taken (hoption : config.option = option) (before after : List ColumnType)
    (htypes : config.types = before ++ types ++ after) :
    Taken config .serial before.length texts cells := by
  subst hoption
  induction h generalizing before with
  | nil => exact .nil
  | @cons type types text texts cell cells hvalid hcopy _ ih =>
    refine .cons (valueTaken_serial ?_ hvalid hcopy) ?_
    · rw [htypes]
      simp
    · have := ih (before ++ [type]) (by rw [htypes]; simp)
      rwa [length_append] at this

theorem DecodesTo.split (hne : types ≠ []) :
    ∃ types' type texts' text cells' cell, types = types' ++ [type] ∧ texts = texts' ++ [text] ∧
      cells = cells' ++ [cell] ∧ DecodesTo option types' texts' cells' ∧
      isValid (text.getD []) = true ∧ copyStringToVector option type (text.getD []) = .ok cell := by
  induction h with
  | nil => exact absurd rfl hne
  | @cons type types text texts cell cells hvalid hcopy hrest ih =>
    by_cases htypes : types = []
    · subst htypes
      cases hrest
      exact ⟨[], type, [], text, [], cell, rfl, rfl, rfl, .nil, hvalid, hcopy⟩
    · obtain ⟨types', type', texts', text', cells', cell', rfl, rfl, rfl, hsplit, hlast⟩ :=
        ih htypes
      exact ⟨type :: types', type', text :: texts', text', cell :: cells', cell', rfl, rfl, rfl,
        .cons hvalid hcopy hsplit, hlast⟩

theorem DecodesTo.length : texts.length = types.length := by
  induction h with
  | nil => rfl
  | cons _ _ _ ih => rw [length_cons, length_cons, ih]

end

/-- A row with as many values as there are columns is added, also if it is an empty line of a
table with one column. -/
theorem rowTaken_serial {numValues : Nat} {b : Bool} {row : List Cell}
    (hcolumns : config.numColumns = numValues + 1) (hempty : b = true → numValues = 0) :
    RowTaken config .serial (numValues + 1) b row := by
  intro s hcolumn hb hrow
  have h₁ : ¬(s.rowEmpty = true ∧ config.numColumns ≠ 1) := by
    rintro ⟨h, hne⟩
    exact hne (by rw [hcolumns, hempty (hb ▸ h)])
  have h₂ : ¬s.column < config.numColumns := by omega
  simp [addRow, if_neg h₁, if_neg h₂, hrow]

/-- The scan of the rest of the file, in the middle of a chunk. -/
def scanFrom (config : ReaderConfig) (fuel : Nat) (s : ParseState) (curRowIdx buffered : Nat)
    (bytes : Bytes) (errors : List CopyFromFileError) :
    Except ErrorMessage (List (List Cell) × List CopyFromFileError) := do
  let r ← parseLoop config .serial s curRowIdx buffered bytes
  if curRowIdx = 0 ∧ r.output.rows = [] then return ([], errors ++ r.output.errors)
  else
    let (rows, reader) ← Reader.readBlocks config fuel
      ⟨r.position, r.buffered, r.rest, errors ++ r.output.errors⟩
    return (r.output.rows ++ rows, reader.errors)

theorem readBlocks_succ (config : ReaderConfig) (fuel : Nat) (r : Reader) :
    (r.readBlocks config (fuel + 1)).map (fun p => (p.1, p.2.errors)) =
      scanFrom config fuel (.start r.position) 0 r.buffered r.rest r.errors := by
  unfold scanFrom
  simp only [Reader.readBlocks, Reader.parseCSV, bind, Except.bind, true_and, pure, Except.pure]
  cases parseLoop config .serial (.start r.position) 0 r.buffered r.rest with
  | error e => rfl
  | ok result =>
    simp only
    split
    · rfl
    · cases Reader.readBlocks config fuel
        ⟨result.position, result.buffered, result.rest, r.errors ++ result.output.errors⟩ <;> rfl

/-- The reader stands between two lines: at the start of a chunk, or after a line of it. -/
inductive AtBoundary : ParseState → Nat → Prop where
  | chunk (position : Nat) : AtBoundary (.start position) 0
  | line {s : ParseState} {curRowIdx : Nat} : LineDone s → 0 < curRowIdx → AtBoundary s curRowIdx

theorem startsValue_start (driver : DriverType) (position : Nat) :
    StartsValue config driver 0 (.start position) (.start position) := fun _ _ => rfl

variable {s : ParseState} {curRowIdx : Nat}

theorem startsValue_line {driver : DriverType} (h : LineDone s) (hdone : driver.done curRowIdx s.position = false) :
    StartsValue config driver curRowIdx s s := fun inBuffer c => by
  simp [act, h.label, hdone]

/-- The rows of the lines before, in front. -/
def prepend (rows : List (List Cell))
    (r : Except ErrorMessage (List (List Cell) × List CopyFromFileError)) :
    Except ErrorMessage (List (List Cell) × List CopyFromFileError) :=
  r.map fun p => (rows ++ p.1, p.2)

theorem scanFrom_continueWith {s s' : ParseState} {curRowIdx buffered buffered' fuel : Nat}
    {bytes rest : Bytes} {row : List Cell} {errors : List CopyFromFileError}
    (h : parseLoop config .serial s curRowIdx buffered bytes =
      continueWith config .serial curRowIdx buffered' rest (.ok (s', ⟨[row], []⟩))) :
    scanFrom config fuel s curRowIdx buffered bytes errors =
      prepend [row] (scanFrom config fuel s' (curRowIdx + 1) buffered' rest errors) := by
  unfold scanFrom prepend
  rw [h]
  simp only [continueWith, bind, Except.bind, pure, Except.pure]
  cases parseLoop config .serial s' (curRowIdx + 1) buffered' rest with
  | error e => rfl
  | ok r =>
    simp only [ParseResult.after, Output.append, nil_append, cons_append, cons_ne_nil, and_false]
    cases Reader.readBlocks config fuel ⟨r.position, r.buffered, r.rest, errors ++ r.output.errors⟩ <;> rfl

/-- A full chunk is handed out and the next one starts at the same place. -/
theorem scanFrom_full (config : ReaderConfig) (hs : LineDone s) (hpos : 0 < curRowIdx)
    (hdone : DriverType.serial.done curRowIdx s.position = true) (buffered fuel : Nat) (c : UInt8)
    (rest : Bytes) (errors : List CopyFromFileError) :
    ∃ buffered', scanFrom config (fuel + 1) s curRowIdx buffered (c :: rest) errors =
      scanFrom config fuel (.start s.position) 0 buffered' (c :: rest) errors := by
  have hstop : parseLoop config .serial s curRowIdx buffered (c :: rest) =
      .ok ⟨.empty, s.position, maybeReadBuffer buffered s.remaining (rest.length + 1), c :: rest⟩ := by
    rw [parseLoop]
    simp only [act, hs.label, hdone]
    rfl
  refine ⟨maybeReadBuffer buffered s.remaining (rest.length + 1), ?_⟩
  rw [scanFrom, hstop]
  have hblocks := readBlocks_succ config fuel ⟨s.position,
    maybeReadBuffer buffered s.remaining (rest.length + 1), c :: rest, errors⟩
  simp only [bind, Except.bind, Output.empty, append_nil, hpos.ne']
  rw [← hblocks]
  cases Reader.readBlocks config (fuel + 1) ⟨s.position,
    maybeReadBuffer buffered s.remaining (rest.length + 1), c :: rest, errors⟩ <;> rfl

/-- The options under which the serial reader reads what was written: the delimiter is not the
quote character, and not the newline that ends a row. -/
structure Separated (option : CSVOption) : Prop where
  quote : option.delimiter ≠ option.quoteChar
  newline : option.delimiter ≠ lf

theorem scanFrom_writeLine (hsep : Separated config.option) (hne : config.types ≠ [])
    (hdecodes : DecodesTo config.option config.types texts cells)
    (hends : ∀ last ∈ texts.getLast?, CellEnds config.option lf last)
    {curRowIdx buffered fuel : Nat} (hs : AtBoundary s curRowIdx) {rest : Bytes}
    (hfuel : (writeLine config.option texts ++ rest).length ≤ fuel) (errors : List CopyFromFileError) :
    ∃ s' curRowIdx' buffered' fuel', AtBoundary s' curRowIdx' ∧ rest.length ≤ fuel' ∧
      scanFrom config fuel s curRowIdx buffered (writeLine config.option texts ++ rest) errors =
        prepend [cells] (scanFrom config fuel' s' curRowIdx' buffered' rest errors) := by
  obtain ⟨types', type, texts', last, cells', cell, htypes, rfl, rfl, hsplit, hvalid, hcopy⟩ := hdecodes.split hne
  have hlen : config.numColumns = texts'.length + 1 := by
    rw [ReaderConfig.numColumns, htypes, length_append, length_singleton, hsplit.length]
  have htaken : Taken config .serial 0 texts' cells' := hsplit.taken rfl [] [type] htypes
  have hlast : ValueTaken config .serial texts'.length (last.getD []) [cell] :=
    valueTaken_serial (by rw [htypes, hsplit.length]; simp) hvalid hcopy
  have hline (s s₀ : ParseState) (curRowIdx buffered fuel : Nat)
      (hstart : StartsValue config .serial curRowIdx s s₀) (hescapes : s₀.escapePositions = [])
      (hcolumn : s₀.column = 0) (hrow₀ : s₀.row = []) :
      ∃ s' buffered', LineDone s' ∧ scanFrom config fuel s curRowIdx buffered
            (writeLine config.option (texts' ++ [last]) ++ rest) errors =
          prepend [cells' ++ [cell]] (scanFrom config fuel s' (curRowIdx + 1) buffered' rest errors) := by
    obtain ⟨s', b', hdone, hparse⟩ := parseLoop_writeLine (fun _ => by simp) hsep.quote
      hsep.newline htaken hlast (hends last (by simp)) (fun b hb => rowTaken_serial hlen fun htrue => by
          rcases hb with hb | hb
          · cases hb
          · rw [htrue] at hb
            simpa using (Bool.and_eq_true_iff.mp hb.symm).2)
      hstart hescapes hcolumn hrow₀ buffered rest
    exact ⟨s', b', hdone, scanFrom_continueWith hparse⟩
  have hlength : rest.length < (writeLine config.option (texts' ++ [last]) ++ rest).length := by
    simp only [writeLine, length_append, length_singleton]
    omega
  cases hs with
  | chunk position =>
    obtain ⟨s', b', hdone, hscan⟩ := hline (.start position) (.start position) 0 buffered fuel
      (startsValue_start .serial position) rfl rfl rfl
    exact ⟨s', 0 + 1, b', fuel, .line hdone (Nat.succ_pos _), by omega, hscan⟩
  | line hs hpos =>
    cases hfull : DriverType.serial.done curRowIdx s.position with
    | false =>
      obtain ⟨s', b', hdone, hscan⟩ := hline s s curRowIdx buffered fuel (startsValue_line hs hfull)
        hs.escapePositions hs.column hs.row
      exact ⟨s', curRowIdx + 1, b', fuel, .line hdone (Nat.succ_pos _), by omega, hscan⟩
    | true =>
      -- the chunk is full: the line is the first one of the next chunk
      obtain ⟨c, bytes, hbytes⟩ : ∃ c bytes, writeLine config.option (texts' ++ [last]) ++ rest = c :: bytes :=
        exists_cons_of_ne_nil (ne_nil_of_length_pos (by omega))
      obtain ⟨fuel, rfl⟩ : ∃ f, fuel = f + 1 := ⟨fuel - 1, by omega⟩
      obtain ⟨b₁, hnext⟩ := scanFrom_full config hs hpos hfull buffered fuel c bytes errors
      obtain ⟨s', b', hdone, hscan⟩ := hline (.start s.position) (.start s.position) 0 b₁ fuel
        (startsValue_start .serial s.position) rfl rfl rfl
      rw [← hbytes] at hnext
      exact ⟨s', 0 + 1, b', fuel, .line hdone (Nat.succ_pos _), by omega, hnext.trans hscan⟩

theorem scanFrom_nil (hs : AtBoundary s curRowIdx) (buffered fuel : Nat) (errors : List CopyFromFileError) :
    scanFrom config fuel s curRowIdx buffered [] errors = .ok ([], errors) := by
  cases hs with
  | chunk position =>
    unfold scanFrom
    simp [parseLoop, finish, ParseState.start, Output.empty, Except.map, bind, Except.bind, pure, Except.pure]
  | line hs hpos =>
    have hfinish : finish config .serial s = .ok .empty := by
      simp [finish, hs.label, finalState, hs.value, hs.column, pure, Except.pure]
    have hblocks (r : Reader) (hr : r.rest = []) :
        r.readBlocks config fuel = .ok ([], { r with buffered := if fuel = 0 then r.buffered else 0 }) := by
      cases fuel with
      | zero => rfl
      | succ fuel =>
        simp [Reader.readBlocks, Reader.parseCSV, hr, parseLoop, finish, ParseState.start,
          Output.empty, Except.map, bind, Except.bind, pure, Except.pure]
    unfold scanFrom
    simp only [parseLoop, hfinish, Except.map, bind, Except.bind, Output.empty, hpos.ne', append_nil]
    rw [hblocks _ rfl]
    rfl

theorem scanFrom_writeLines (hsep : Separated config.option) (hne : config.types ≠ [])
    {lines : List (List (Option Bytes))} {rows : List (List Cell)}
    (hdecodes : Forall₂ (DecodesTo config.option config.types) lines rows)
    (hends : ∀ line ∈ lines, ∀ last ∈ line.getLast?, CellEnds config.option lf last)
    {curRowIdx buffered fuel : Nat} (hs : AtBoundary s curRowIdx)
    (hfuel : (writeLines config.option lines).length ≤ fuel) (errors : List CopyFromFileError) :
    scanFrom config fuel s curRowIdx buffered (writeLines config.option lines) errors = .ok (rows, errors) := by
  induction hdecodes generalizing s curRowIdx buffered fuel with
  | nil => exact scanFrom_nil hs buffered fuel errors
  | @cons line cells lines rows hline _ ih =>
    have hcons : writeLines config.option (line :: lines) =
        writeLine config.option line ++ writeLines config.option lines := rfl
    rw [hcons] at hfuel ⊢
    obtain ⟨s', n', b', fuel', hs', hfuel', hscan⟩ := scanFrom_writeLine hsep hne hline
      (hends line mem_cons_self) hs hfuel errors
    rw [hscan, ih (fun l hl => hends l (mem_cons_of_mem _ hl)) hs' hfuel']
    rfl

end

end CycleJoin.Csv
