import CycleJoin.Csv.Reader
import CycleJoin.Csv.Export

/-!
# CSV: a written value is read back

`parseLoop_writeCell`: the reader, at the start of a value, goes through what the writer wrote for
a cell and stands at the byte that ends it with the text of the cell as the value to add. The byte
that ends a cell is the delimiter or the newline; when it is the quote character as well
(`CellEnds` says what is needed then), the reader takes it for a quote.
-/

namespace CycleJoin.Csv

open List ParseState

/-! ## Removing escapes -/

theorem removeEscapes_append {value w : Bytes} {prev : Nat} {escapes : List Nat}
    (hprev : prev ≤ value.length) (h : ∀ p ∈ escapes, p < value.length) :
    removeEscapes (value ++ w) prev escapes = removeEscapes value prev escapes ++ w := by
  induction escapes generalizing prev with
  | nil => exact drop_append_of_le_length hprev
  | cons p rest ih =>
    have hp := h p mem_cons_self
    simp only [removeEscapes]
    rw [ih hp fun q hq => h q (mem_cons_of_mem _ hq), drop_append_of_le_length hprev,
      take_append_of_le_length (by rw [length_drop]; omega), append_assoc]

theorem removeEscapes_snoc {value : Bytes} {prev p : Nat} {escapes : List Nat}
    (hprev : prev ≤ p) (h : ∀ q ∈ escapes, q < p) :
    removeEscapes value prev (escapes ++ [p]) = removeEscapes (value.take p) prev escapes ++ value.drop (p + 1) := by
  induction escapes generalizing prev with
  | nil => simp [removeEscapes, drop_take]
  | cons q rest ih =>
    have hq := h q mem_cons_self
    simp only [cons_append, removeEscapes]
    rw [ih hq fun q' hq' => h q' (mem_cons_of_mem _ hq'), append_assoc, drop_take, take_take]
    congr 2
    omega

/-- The value and the escape positions of a state hold the text `str`. -/
structure Holds (s : ParseState) (str : Bytes) : Prop where
  text : removeEscapes s.value 0 s.escapePositions = str
  bound : ∀ p ∈ s.escapePositions, p < s.value.length

namespace Holds

variable {s : ParseState} {str : Bytes}

theorem keep (h : Holds s str) (label : Label) (c : UInt8) : Holds (s.keep label c) (str ++ [c]) where
  text := by
    rw [← h.text]
    exact removeEscapes_append (Nat.zero_le _) h.bound
  bound := fun p hp => by
    have := h.bound p hp
    simp only [ParseState.keep, length_append]
    omega

theorem bound_concat (h : Holds s str) {p n : Nat} (hp : p < n) (hn : s.value.length ≤ n) :
    ∀ p' ∈ s.escapePositions ++ [p], p' < n := by
  intro p' hmem
  obtain hmem | hmem := mem_append.mp hmem
  · exact (h.bound p' hmem).trans_le hn
  · exact mem_singleton.mp hmem ▸ hp

theorem escape (h : Holds s str) (label label' : Label) (e c : UInt8) : Holds ({ s.keep label e with
      escapePositions := s.escapePositions ++ [s.value.length] }.keep label' c) (str ++ [c]) where
  text := by
    simp only [ParseState.keep, consume, append_assoc]
    rw [removeEscapes_snoc (Nat.zero_le _) h.bound, take_left' rfl, h.text]
    simp
  bound := h.bound_concat (by simp [ParseState.keep]) (by simp [ParseState.keep])

/-- A quote that is escaped by a quote; the second one is recorded as the escape. -/
theorem doubled (h : Holds s str) (label label' : Label) (q c : UInt8) : Holds { (s.keep label q).keep label' c with
      escapePositions := s.escapePositions ++ [(s.keep label q).value.length] } (str ++ [q]) where
  text := by
    have hlen : (s.value ++ [q]).length = s.value.length + 1 := by simp
    simp only [ParseState.keep]
    rw [removeEscapes_snoc (Nat.zero_le _) fun p hp => by
      have := h.bound p hp
      omega]
    rw [take_left' rfl, drop_of_length_le (by simp), append_nil, removeEscapes_append (Nat.zero_le _) h.bound, h.text]
  bound := h.bound_concat (by simp [ParseState.keep]) (by simp [ParseState.keep])

end Holds

/-! ## Steps of the loop -/

section
variable {config : ReaderConfig} {driver : DriverType}

/-- The run after a step: the machine goes on with the rest of the file. -/
def continueWith (config : ReaderConfig) (driver : DriverType) (curRowIdx buffered : Nat)
    (rest : Bytes) (next : Except ErrorMessage (ParseState × Output)) :
    Except ErrorMessage ParseResult := do
  let (s, out) ← next
  let r ← parseLoop config driver s (curRowIdx + out.rows.length) buffered rest
  return r.after out

theorem parseLoop_cons {s : ParseState} {curRowIdx : Nat} {c : UInt8} (buffered : Nat) (rest : Bytes)
    (next : Except ErrorMessage (ParseState × Output))
    (h : act config driver (driver.done curRowIdx s.position) (0 < buffered) s c = Step.ofNext next) :
    parseLoop config driver s curRowIdx buffered (c :: rest) = continueWith config driver curRowIdx
        (maybeReadBuffer buffered s.remaining (rest.length + 1) - 1) rest next := by
  rw [parseLoop, h]
  cases next <;> rfl

theorem continueWith_ok_empty (curRowIdx buffered : Nat) (rest : Bytes) (s : ParseState) :
    continueWith config driver curRowIdx buffered rest (.ok (s, .empty)) =
      parseLoop config driver s curRowIdx buffered rest := by
  simp only [continueWith, bind, Except.bind, Output.empty]
  cases parseLoop config driver s curRowIdx buffered rest <;> rfl

/-- The reader moves through `text` without output, from `s` to `s'`; the state of its buffer
aside. -/
def Passes (config : ReaderConfig) (driver : DriverType) (s : ParseState) (text : Bytes)
    (s' : ParseState) : Prop :=
  ∀ curRowIdx buffered rest, ∃ buffered',
    parseLoop config driver s curRowIdx buffered (text ++ rest) =
      parseLoop config driver s' curRowIdx buffered' rest

namespace Passes

variable {s s' s'' : ParseState} {t u : Bytes}

theorem refl (s : ParseState) : Passes config driver s [] s := fun _ buffered _ => ⟨buffered, rfl⟩

theorem trans (h : Passes config driver s t s') (h' : Passes config driver s' u s'') :
    Passes config driver s (t ++ u) s'' := by
  intro curRowIdx buffered rest
  obtain ⟨b, hb⟩ := h curRowIdx buffered (u ++ rest)
  obtain ⟨b', hb'⟩ := h' curRowIdx b rest
  exact ⟨b', by rw [append_assoc, hb, hb']⟩

theorem single {c : UInt8} (h : ∀ done inBuffer, act config driver done inBuffer s c =
    .ok (.next s' .empty)) : Passes config driver s [c] s' := by
  intro curRowIdx buffered rest
  have hcons := parseLoop_cons buffered rest (.ok (s', .empty)) (h (driver.done curRowIdx s.position) (0 < buffered))
  rw [continueWith_ok_empty] at hcons
  exact ⟨_, hcons⟩

end Passes

theorem passes_normal {s : ParseState} (hlabel : s.label = .normal) (text : Bytes)
    (htext : ∀ c ∈ text, isNewLine c = false ∧ c ≠ config.option.delimiter) :
    Passes config driver s text
      { s with position := s.position + text.length, value := s.value ++ text } := by
  induction text generalizing s with
  | nil =>
    rw [append_nil]
    exact Passes.refl s
  | cons c text ih =>
    obtain ⟨hnl, hdel⟩ := htext c mem_cons_self
    have hstep : Passes config driver s [c] (s.keep .normal c) := Passes.single fun _ _ => by
      simp only [act, hlabel, normalAct, if_neg hdel, hnl]
      rfl
    have hrest := ih (s := s.keep .normal c) rfl fun c' hc' => htext c' (mem_cons_of_mem _ hc')
    have hall := hstep.trans hrest
    simp only [keep, consume, append_assoc, cons_append, nil_append] at hall
    rw [length_cons, add_comm text.length, ← add_assoc]
    convert hall using 2

section
variable {s : ParseState} {str : Bytes} (hlabel : s.label = .inQuotes) (hholds : Holds s str)
  (hserial : ∀ blockEnd, driver ≠ .parallel blockEnd)
include hlabel hholds hserial

theorem passes_escapeByte (c : UInt8) :
    ∃ s', Passes config driver s (escapeByte config.option c) s' ∧ s'.label = .inQuotes ∧ Holds s' (str ++ [c]) ∧
      s' = { s with
        position := s'.position
        value := s'.value
        escapePositions := s'.escapePositions } := by
  unfold escapeByte
  by_cases hspecial : c = config.option.quoteChar ∨ c = config.option.escapeChar
  · rw [if_pos hspecial]
    by_cases heq : config.option.escapeChar = config.option.quoteChar
    · -- a quote is escaped by a quote: out of the quotes and in again
      have hc : c = config.option.quoteChar := hspecial.elim id fun h => h.trans heq
      let s₁ := s.keep .unquote config.option.escapeChar
      let s₂ := { s₁.keep .inQuotes c with
        escapePositions := s.escapePositions ++ [s₁.value.length] }
      have hfirst : Passes config driver s [config.option.escapeChar] s₁ :=
        Passes.single fun _ _ => by simp [s₁, act, hlabel, inQuotesAct, heq]
      have hsecond : Passes config driver s₁ [c] s₂ := Passes.single fun _ _ => by
        show Step.ofNext (unquoteAct config driver s₁ c) = _
        rw [unquoteAct, if_pos ⟨hc, Or.inr heq⟩]
        rfl
      refine ⟨s₂, hfirst.trans hsecond, rfl, ?_, ?_⟩
      · rw [hc, ← heq]
        exact hholds.doubled _ _ _ _
      · simp [s₂, s₁, keep, consume, hlabel]
    · let s₁ := { s.keep .handleEscape config.option.escapeChar with
        escapePositions := s.escapePositions ++ [s.value.length] }
      have hfirst : Passes config driver s [config.option.escapeChar] s₁ :=
        Passes.single fun _ _ => by simp [s₁, act, hlabel, inQuotesAct, heq]
      have hsecond : Passes config driver s₁ [c] (s₁.keep .inQuotes c) := Passes.single fun _ _ => by
        have hnot : ¬(c ≠ config.option.quoteChar ∧ c ≠ config.option.escapeChar) :=
          fun h => hspecial.elim h.1 h.2
        simp [s₁, act, keep, consume, handleEscapeAct, if_neg hnot]
      refine ⟨s₁.keep .inQuotes c, hfirst.trans hsecond, rfl, hholds.escape .handleEscape .inQuotes _ _, ?_⟩
      simp [s₁, keep, consume, hlabel]
  · rw [if_neg hspecial]
    rw [not_or] at hspecial
    refine ⟨s.keep .inQuotes c, Passes.single fun _ _ => ?_, rfl, hholds.keep _ _, ?_⟩
    · have hin : inQuotesAct config driver s c = (s.keep .inQuotes c, .empty) := by
        unfold inQuotesAct
        rw [if_neg hspecial.1, if_neg hspecial.2]
        split
        · split
          · exact absurd rfl (hserial _)
          · rfl
        · rfl
      simp [act, hlabel, hin]
    · simp [keep, consume, hlabel]

theorem passes_escapeText (text : Bytes) :
    ∃ s', Passes config driver s (escapeText config.option text) s' ∧ s'.label = .inQuotes ∧ Holds s' (str ++ text) ∧
      s' = { s with
        position := s'.position
        value := s'.value
        escapePositions := s'.escapePositions } := by
  induction text generalizing s str with
  | nil => exact ⟨s, Passes.refl s, hlabel, by rwa [append_nil], rfl⟩
  | cons c text ih =>
    obtain ⟨s₁, hpass₁, hlabel₁, hholds₁, heq₁⟩ := passes_escapeByte hlabel hholds hserial c
    obtain ⟨s₂, hpass₂, hlabel₂, hholds₂, heq₂⟩ := ih hlabel₁ hholds₁
    refine ⟨s₂, hpass₁.trans hpass₂, hlabel₂, ?_, ?_⟩
    · rwa [append_assoc] at hholds₂
    · rw [heq₁] at heq₂
      exact heq₂

end

/-- `add_value` or `add_row`, at the byte that ends a value. -/
def endAct (config : ReaderConfig) (driver : DriverType) (s : ParseState) (t : UInt8) :
    Except ErrorMessage (ParseState × Output) :=
  if t = config.option.delimiter then addValueAct config driver s t else addRowAct config driver s t

/-- What the byte `t` after a cell needs when it is the quote character: there is a value before
it, and it is not taken for an escaped quote. -/
def CellEnds (option : CSVOption) (t : UInt8) (cell : Option Bytes) : Prop :=
  t = option.quoteChar → ∃ text, cell = some text ∧
    (option.escapeChar = 0 ∨ option.escapeChar = option.quoteChar →
      requireQuotes option text = false)

/-- The reader at the start of a value: its next step is `value_start` in the state `s₀`. -/
def StartsValue (config : ReaderConfig) (driver : DriverType) (curRowIdx : Nat)
    (s s₀ : ParseState) : Prop :=
  ∀ inBuffer c, act config driver (driver.done curRowIdx s.position) inBuffer s c =
    Step.ofNext (valueStartAct config driver s₀ c)

/-- The first byte of a value, when it adds nothing to the output. -/
theorem StartsValue.first {s s₀ : ParseState} (s₁ : ParseState) {curRowIdx : Nat} {c : UInt8}
    (hstart : StartsValue config driver curRowIdx s s₀)
    (hact : valueStartAct config driver s₀ c = .ok (s₁, .empty)) (buffered : Nat) (rest : Bytes) :
    ∃ buffered', parseLoop config driver s curRowIdx buffered (c :: rest) =
      parseLoop config driver s₁ curRowIdx buffered' rest := by
  have h := parseLoop_cons buffered rest _ ((hstart (0 < buffered) c).trans (congrArg Step.ofNext hact))
  rw [continueWith_ok_empty] at h
  exact ⟨_, h⟩

/-- The state `s₀` when the current value has been read. -/
structure ReadValue (s₀ s : ParseState) (text : Bytes) : Prop where
  valueToAdd : s.valueToAdd = text
  column : s.column = s₀.column
  row : s.row = s₀.row
  rowEmpty : s.rowEmpty = s₀.rowEmpty
  lineContext : s.lineContext = s₀.lineContext

theorem parseLoop_writeCell {s s₀ : ParseState} {curRowIdx : Nat} {t : UInt8}
    {cell : Option Bytes} (hstart : StartsValue config driver curRowIdx s s₀)
    (hescapes : s₀.escapePositions = []) (hserial : ∀ blockEnd, driver ≠ .parallel blockEnd)
    (ht : t = config.option.delimiter ∨ t = lf) (hends : CellEnds config.option t cell)
    (buffered : Nat) (rest : Bytes) :
    ∃ s₁ buffered', ReadValue s₀ s₁ (cell.getD []) ∧
      parseLoop config driver s curRowIdx buffered (writeCell config.option cell ++ t :: rest) =
        continueWith config driver curRowIdx buffered' rest (endAct config driver s₁ t) := by
  have hnewline : t ≠ config.option.delimiter → isNewLine t = true := fun h => by
    rw [ht.resolve_left h]
    rfl
  have hend (s₁ : ParseState) : normalAct config driver s₁ t = endAct config driver s₁ t := by
    unfold normalAct endAct
    split
    · rfl
    · rw [if_pos (hnewline ‹_›)]
  cases cell with
  | none =>
    have htq : t ≠ config.option.quoteChar := fun h => by
      obtain ⟨text, hnone, -⟩ := hends h
      cases hnone
    have hstep := parseLoop_cons buffered rest (endAct config driver { s₀ with hasQuotes := false, value := [] } t)
      ((hstart (0 < buffered) t).trans (by rw [valueStartAct, if_neg htq, hend]))
    refine ⟨{ s₀ with hasQuotes := false, value := [] }, _, ⟨?_, rfl, rfl, rfl, rfl⟩, hstep⟩
    simp [valueToAdd, hescapes, removeEscapes]
  | some text =>
    by_cases hquotes : requireQuotes config.option text = true
    · -- in quotes
      rw [writeCell, writeString_quoted hquotes]
      let s₁ : ParseState := { s₀.consume .inQuotes with hasQuotes := true, value := [] }
      have hholds : Holds s₁ [] := by
        refine ⟨?_, fun p hp => ?_⟩
        · simp [s₁, consume, hescapes, removeEscapes]
        · simp [s₁, consume, hescapes] at hp
      obtain ⟨s₂, hpass, hlabel₂, hholds₂, heq₂⟩ : ∃ s₂, Passes config driver s₁ (escapeText config.option text) s₂ ∧
            s₂.label = .inQuotes ∧ Holds s₂ ([] ++ text) ∧ _ :=
        passes_escapeText rfl hholds hserial text
      have hquote : Passes config driver s₂ [config.option.quoteChar]
          (s₂.keep .unquote config.option.quoteChar) := Passes.single fun _ _ => by
        simp [act, hlabel₂, inQuotesAct]
      -- the opening quote, the text, the closing quote, and the byte that ends the cell
      obtain ⟨b₁, hopen⟩ := hstart.first s₁ (by
        rw [valueStartAct, if_pos rfl]
        rfl) buffered ((escapeText config.option text ++ [config.option.quoteChar]) ++ t :: rest)
      obtain ⟨b₂, hclose⟩ := (hpass.trans hquote) curRowIdx b₁ (t :: rest)
      have hunquote : unquoteAct config driver (s₂.keep .unquote config.option.quoteChar) t =
          endAct config driver (s₂.keep .unquote config.option.quoteChar) t := by
        have hnot : ¬(t = config.option.quoteChar ∧ (config.option.escapeChar = 0 ∨
            config.option.escapeChar = config.option.quoteChar)) := by
          rintro ⟨h, h'⟩
          obtain ⟨text', htext', hplain⟩ := hends h
          cases htext'
          rw [hplain h'] at hquotes
          cases hquotes
        rw [unquoteAct, if_neg hnot, endAct]
        by_cases hd : t = config.option.delimiter
        · rw [if_pos (Or.inl hd), if_pos hd]
        · have hlist : ¬(t = config.option.delimiter ∨ t = listEndChar) := by
            rintro (h | h)
            · exact hd h
            · rw [ht.resolve_left hd] at h
              exact absurd h (by decide)
          rw [if_neg hlist, if_neg hd, if_pos (hnewline hd)]
      have hlast := hclose.trans (parseLoop_cons b₂ rest _ (congrArg Step.ofNext hunquote))
      refine ⟨s₂.keep .unquote config.option.quoteChar, _,
        ⟨?_, (congrArg column heq₂ :), (congrArg row heq₂ :), (congrArg rowEmpty heq₂ :),
          (congrArg lineContext heq₂ :)⟩, hopen.trans hlast⟩
      have hq : s₂.hasQuotes = true := congrArg hasQuotes heq₂
      simp only [valueToAdd, keep, consume, hq, dropLast_concat]
      exact hholds₂.text
    · -- without quotes: there is a first byte, and nothing special
      have hquotes' := Bool.not_eq_true _ ▸ hquotes
      obtain ⟨hne, hplain⟩ := requireQuotes_eq_false hquotes'
      rw [writeCell, writeString_plain hquotes']
      obtain ⟨c, text, rfl⟩ := exists_cons_of_ne_nil hne
      obtain ⟨hc, hcq, hcd⟩ := hplain c mem_cons_self
      let s₁ : ParseState := { s₀ with hasQuotes := false, value := [] }.keep .normal c
      obtain ⟨b₁, hfirst⟩ := hstart.first s₁ (by
        rw [valueStartAct, if_neg hcq, normalAct, if_neg hcd, hc]
        rfl) buffered (text ++ t :: rest)
      have hpass : Passes config driver s₁ text { s₁ with
          position := s₁.position + text.length
          value := s₁.value ++ text } :=
        passes_normal rfl text fun c' hc' => ⟨(hplain c' (mem_cons_of_mem _ hc')).1,
          (hplain c' (mem_cons_of_mem _ hc')).2.2⟩
      obtain ⟨b₂, htext⟩ := hpass curRowIdx b₁ (t :: rest)
      have hlast := htext.trans (parseLoop_cons b₂ rest _ (congrArg Step.ofNext (hend _)))
      refine ⟨{ s₁ with position := s₁.position + text.length, value := s₁.value ++ text }, _,
        ⟨?_, rfl, rfl, rfl, rfl⟩, hfirst.trans hlast⟩
      simp [s₁, valueToAdd, keep, consume, hescapes, removeEscapes]

end

end CycleJoin.Csv
