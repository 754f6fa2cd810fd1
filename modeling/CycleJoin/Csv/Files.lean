import CycleJoin.Csv.Lines

/-!
# CSV: the scan of a written file

The beginning of a file: the byte order mark that `readBOM` takes away, and the header. With
`serialScan_writeLines` the lines after it are read back, whatever their texts are.
-/

namespace CycleJoin.Csv

open Reader List

section
variable {config : ReaderConfig}

/-- The options of a statement that gives the header flag and the three characters only. -/
structure CSVOption.Plain (option : CSVOption) : Prop where
  skipNum : option.skipNum = 0
  ignoreErrors : option.ignoreErrors = false
  nullStrings : option.nullStrings = [[]]

theorem CSVOption.plain_ofChars (hasHeader : Bool) (e d q : {c : UInt8 // c < 0x80}) :
    (CSVOption.ofChars hasHeader e d q).Plain := ⟨rfl, rfl, rfl⟩

/-! ## The byte order mark -/

theorem readBOM_ofFile (file : Bytes) : ∃ buffered, (ofFile file).readBOM =
    if byteOrderMark.isPrefixOf file then ⟨3, buffered, file.drop 3, []⟩
    else ⟨0, buffered, file, []⟩ := by
  have hbuffered : maybeReadBuffer 0 0 file.length = min initialBufferSize file.length := rfl
  have htake : byteOrderMark.isPrefixOf (file.take (maybeReadBuffer 0 0 file.length)) =
      byteOrderMark.isPrefixOf file := by
    rw [Bool.eq_iff_iff, List.isPrefixOf_iff_prefix, List.isPrefixOf_iff_prefix]
    constructor
    · exact fun h => h.trans ( take_prefix _ _)
    · intro h
      have hlen := h.length_le
      refine prefix_take_iff.mpr ⟨h, ?_⟩
      have hthree : byteOrderMark.length = 3 := rfl
      rw [hbuffered, initialBufferSize]
      omega
  unfold readBOM ofFile
  simp only [htake]
  split
  · exact ⟨_, rfl⟩
  · exact ⟨_, rfl⟩

/-- A text before an ASCII byte starts with the mark if the two together do. -/
theorem byteOrderMark_isPrefix {text rest : Bytes} {t : UInt8} (ht : t < 0x80)
    (h : byteOrderMark <+: text ++ t :: rest) : byteOrderMark <+: text := by
  have hmark : ∀ c ∈ byteOrderMark, ¬c < 0x80 := by decide +kernel
  match text with
  | [] =>
    simp only [byteOrderMark, nil_append, cons_prefix_cons] at h
    exact absurd ht (h.1 ▸ hmark _ (by decide))
  | [a] =>
    simp only [byteOrderMark, cons_append, nil_append, cons_prefix_cons] at h
    exact absurd ht (h.2.1 ▸ hmark _ (by decide))
  | [a, b] =>
    simp only [byteOrderMark, cons_append, nil_append, cons_prefix_cons] at h
    exact absurd ht (h.2.2.1 ▸ hmark _ (by decide))
  | a :: b :: c :: text =>
    simp only [byteOrderMark, cons_append, cons_prefix_cons] at h ⊢
    exact ⟨h.1, h.2.1, h.2.2.1, nil_prefix⟩

/-- The cell is written without quotes and starts with the byte order mark. -/
def Marked (option : CSVOption) (cell : Option Bytes) : Prop :=
  ∃ text, cell = some text ∧ requireQuotes option text = false ∧ byteOrderMark <+: text

/-- A line is its first cell, an ASCII byte and what follows. -/
theorem writeLine_cons (option : CSVOption) (cells : List (Option Bytes)) :
    ∃ t rest, t < 0x80 ∧ ∀ cell', writeLine option (cell' :: cells) = writeCell option cell' ++ t :: rest := by
  cases cells with
  | nil => exact ⟨lf, [], by decide, fun _ => rfl⟩
  | cons c cells =>
    exact ⟨option.delimiter, writeCells option (c :: cells) ++ [lf], option.delimiter_ascii,
      fun cell' => by simp [writeLine, writeCells]⟩

/-- The file starts with the mark only if its first cell does. -/
theorem byteOrderMark_isPrefix_writeLine {option : CSVOption} {cell : Option Bytes}
    {cells : List (Option Bytes)} {rest : Bytes} :
    byteOrderMark <+: writeLine option (cell :: cells) ++ rest ↔ Marked option cell := by
  obtain ⟨t, rest', ht, hline⟩ := writeLine_cons option cells
  rw [hline, append_assoc]
  have hascii {c : UInt8} {bytes : Bytes} (hc : c < 0x80) : ¬byteOrderMark <+: c :: bytes :=
    fun h => by
      have hnil : byteOrderMark <+: [] := byteOrderMark_isPrefix hc h
      exact absurd hnil (by decide)
  constructor
  · intro h
    cases cell with
    | none => exact absurd h (hascii ht)
    | some text =>
      by_cases hquotes : requireQuotes option text = true
      · rw [writeCell, writeString_quoted hquotes] at h
        exact absurd h (hascii option.quoteChar_ascii)
      · have hplain := Bool.not_eq_true _ ▸ hquotes
        rw [writeCell, writeString_plain hplain] at h
        exact ⟨text, rfl, hplain, byteOrderMark_isPrefix ht h⟩
  · rintro ⟨text, rfl, hplain, hmark⟩
    rw [writeCell, writeString_plain hplain]
    exact hmark.trans ( prefix_append _ _)

/-- What is left of a cell when the reader takes the mark away. -/
def stripMark (cell : Option Bytes) : Option Bytes :=
  match cell with
  | none => none
  | some text => if text.drop 3 = [] then none else some (text.drop 3)

theorem getD_stripMark (text : Bytes) : (stripMark (some text)).getD [] = text.drop 3 := by
  unfold stripMark
  simp only
  split
  · rename_i h
    exact h.symm
  · rfl

/-- What is left after a mark needs no quotes either. -/
theorem requireQuotes_drop {option : CSVOption} {text : Bytes}
    (hplain : requireQuotes option text = false) (hne : text.drop 3 ≠ []) :
    requireQuotes option (text.drop 3) = false := by
  obtain ⟨-, hall⟩ := requireQuotes_eq_false hplain
  rw [requireQuotes, Bool.or_eq_false_iff, any_eq_false]
  refine ⟨by simpa using hne, fun c hc => ?_⟩
  obtain ⟨h₁, h₂, h₃⟩ := hall c (mem_of_mem_drop hc)
  simp [h₁, h₂, h₃]

/-- The file without the mark is what is written for the line without it. -/
theorem drop_writeLine {option : CSVOption} {cell : Option Bytes} (hmarked : Marked option cell)
    (cells : List (Option Bytes)) (rest : Bytes) :
    (writeLine option (cell :: cells) ++ rest).drop 3 = writeLine option (stripMark cell :: cells) ++ rest := by
  obtain ⟨text, rfl, hplain, ⟨text', rfl⟩⟩ := hmarked
  obtain ⟨t, rest', -, hline⟩ := writeLine_cons option cells
  have hdrop : (byteOrderMark ++ text').drop 3 = text' := rfl
  have hstrip : writeCell option (stripMark (some (byteOrderMark ++ text'))) = text' := by
    unfold stripMark
    simp only [hdrop]
    split
    · rename_i hnil
      rw [hnil]
      rfl
    · rename_i hne
      exact writeString_plain (requireQuotes_drop hplain hne)
  rw [hline, hline, hstrip, writeCell, writeString_plain hplain]
  rfl

/-! ## The header -/

theorem taken_header {column : Nat} {texts : List (Option Bytes)}
    (hvalid : ∀ text ∈ texts, isValid (text.getD []) = true) : Taken config .header column texts [] := by
  induction texts generalizing column with
  | nil => exact .nil
  | cons text texts ih =>
    show Taken config .header column (text :: texts) ([] ++ [])
    refine .cons ⟨hvalid text mem_cons_self, fun s _ => ?_⟩ (ih fun t ht => hvalid t (mem_cons_of_mem _ ht))
    simp [driverAddValue, DriverType.parses]

theorem readHeader_writeLine (hsep : Separated config.option) {texts : List (Option Bytes)}
    (hne : texts ≠ []) (hvalid : ∀ text ∈ texts, isValid (text.getD []) = true)
    (hends : ∀ last ∈ texts.getLast?, CellEnds config.option lf last) {r : Reader} {rest : Bytes}
    (hrest : r.rest = writeLine config.option texts ++ rest) :
    ∃ position buffered, r.readHeader config = .ok ⟨position, buffered, rest, r.errors⟩ := by
  obtain ⟨texts', last, rfl⟩ := eq_nil_or_concat' texts |>.resolve_left hne
  have htaken : Taken config .header 0 texts' [] := taken_header fun t ht => hvalid t (mem_append_left _ ht)
  have hlast : ValueTaken config .header texts'.length (last.getD []) [] :=
    ⟨hvalid last (by simp), fun s _ => by simp [driverAddValue, DriverType.parses]⟩
  obtain ⟨s', b', hdone, hparse⟩ := parseLoop_writeLine (fun _ => by simp) hsep.quote hsep.newline
    htaken hlast (hends last (by simp)) (fun b _ s _ _ hrow => by
      simp [addRow, DriverType.parses, hrow])
    (startsValue_start .header r.position) rfl rfl rfl r.buffered rest
  -- the driver is done after one line
  obtain ⟨p, b, hstop⟩ : ∃ p b, parseLoop config .header s' 1 b' rest = .ok ⟨.empty, p, b, rest⟩ := by
    cases rest with
    | nil =>
      have hfinish : finish config .header s' = .ok .empty := by
        simp [finish, hdone.label, finalState, hdone.value, hdone.column, pure, Except.pure]
      exact ⟨_, _, by rw [parseLoop, hfinish]; rfl⟩
    | cons c rest =>
      refine ⟨s'.position, maybeReadBuffer b' s'.remaining (rest.length + 1), ?_⟩
      rw [parseLoop]
      simp only [act, hdone.label]
      rfl
  rw [readHeader, parseCSV, hrest, hparse]
  simp only [continueWith, bind, Except.bind, length_singleton, hstop]
  simp [pure, Except.pure, ParseResult.after, Output.append, Output.empty]

/-! ## The scan -/

/-- The first block when no lines are skipped. -/
def firstBlock (config : ReaderConfig) (file : Bytes) : Except ErrorMessage Reader :=
  if config.option.hasHeader then (ofFile file).readBOM.readHeader config
  else .ok (ofFile file).readBOM

theorem serialScan_eq (hplain : config.option.Plain) (file : Bytes) : serialScan config file = (do
      let r ← firstBlock config file
      let p ← scanFrom config file.length (.start r.position) 0 r.buffered r.rest r.errors
      finalizeScan config p.1 p.2) := by
  have hfirst : (ofFile file).handleFirstBlock config = firstBlock config file := by
    unfold handleFirstBlock firstBlock
    rw [hplain.skipNum]
    simp only [Nat.lt_irrefl, if_false]
    split
    · cases (ofFile file).readBOM.readHeader config <;> rfl
    · rfl
  rw [serialScan, hfirst]
  cases firstBlock config file with
  | error e => rfl
  | ok r =>
    simp only [bind, Except.bind]
    rw [← readBlocks_succ]
    cases r.readBlocks config (file.length + 1) <;> rfl

theorem finalizeScan_nil (rows : List (List Cell)) : finalizeScan config rows [] = .ok ⟨rows, []⟩ := by
  simp [finalizeScan]

/-- The header line of a file, if the options ask for one. -/
def headerLines (option : CSVOption) (header : List (Option Bytes)) : List (List (Option Bytes)) :=
  if option.hasHeader then [header] else []

/-- The scan reads the lines of a file that does not start with a byte order mark, or what is left
of them after it. -/
theorem serialScan_writeLines (config : ReaderConfig) (hplain : config.option.Plain) (hsep : Separated config.option)
    (hne : config.types ≠ []) {header : List (Option Bytes)} (hheader : header ≠ [])
    (hvalid : ∀ text ∈ header, isValid (text.getD []) = true)
    {lines : List (List (Option Bytes))} {rows : List (List Cell)}
    (hdecodes : Forall₂ (DecodesTo config.option config.types) lines rows)
    (hends : ∀ line ∈ headerLines config.option header ++ lines, ∀ last ∈ line.getLast?,
      CellEnds config.option lf last) {file rest : Bytes} {position buffered : Nat}
    (hbom : (ofFile file).readBOM = ⟨position, buffered, rest, []⟩)
    (hrest : rest = writeLines config.option (headerLines config.option header ++ lines))
    (hfile : (writeLines config.option lines).length ≤ file.length) :
    serialScan config file = .ok ⟨rows, []⟩ := by
  rw [serialScan_eq hplain, firstBlock, hbom, hrest]
  unfold headerLines at hends ⊢
  split
  · rename_i hhas
    simp only [hhas] at hends ⊢
    let r : Reader := ⟨position, buffered, writeLines config.option ([header] ++ lines), []⟩
    have hrest : r.rest = writeLine config.option header ++ writeLines config.option lines := rfl
    obtain ⟨p, b, hread⟩ := readHeader_writeLine hsep hheader hvalid (hends header (by simp)) hrest
    rw [hread]
    simp only [bind, Except.bind]
    rw [scanFrom_writeLines hsep hne hdecodes (fun l hl => hends l (by simp [hl])) (.chunk p) hfile]
    exact finalizeScan_nil rows
  · rename_i hhas
    simp only [hhas, nil_append] at hends ⊢
    simp only [bind, Except.bind]
    rw [scanFrom_writeLines hsep hne hdecodes hends (.chunk position) hfile]
    exact finalizeScan_nil rows

end

end CycleJoin.Csv
