import Mathlib

/-!
# CSV: options, texts and cells

The data that the CSV export function (`function/export/export_csv_function.cpp`) and the CSV
readers (`processor/operator/persistent/reader/csv`) share: bytes, the parsing options, and the
column types with the casts from the text of a cell to its value
(`function/cast_from_string_functions.cpp`).

Texts are lists of bytes. The reader validates every value with `Utf8Proc::isValid`, which is
modelled here as the source computes it.
-/

namespace CycleJoin.Csv

abbrev Bytes := List UInt8

/-- The byte `\n`, `ExportCSVConstants::DEFAULT_CSV_NEWLINE[0]`. -/
def lf : UInt8 := 10

/-- The byte `\r`, `ExportCSVConstants::DEFAULT_CSV_NEWLINE[1]`. -/
def cr : UInt8 := 13

/-- `BaseCSVReader::isNewLine`. -/
def isNewLine (c : UInt8) : Bool := c == lf || c == cr

/-- `CopyConstants::DEFAULT_CSV_LIST_END_CHAR`, the byte `]`. -/
def listEndChar : UInt8 := 93

/-! ## UTF-8 -/

/-- The bytes after the first one of a sequence, as `UTF8ExtraByteLoop` folds them into the code
point; `none` when one of them is missing or is not a continuation byte. -/
def extraBytes : Nat → Nat → Bytes → Option (Nat × Bytes)
  | 0, utf8char, rest => some (utf8char, rest)
  | _ + 1, _, [] => none
  | n + 1, utf8char, c :: rest =>
    if c.toNat &&& 0xC0 = 0x80 then extraBytes n (utf8char * 64 + (c.toNat &&& 0x3F)) rest
    else none

/-- `UTF8ExtraByteLoop<nextraBytes, mask>`: the bytes after the sequence if it is a valid one. -/
def utf8ExtraByteLoop (nextraBytes mask utf8char : Nat) (rest : Bytes) : Option Bytes :=
  match extraBytes nextraBytes utf8char rest with
  | none => none
  | some (utf8char, rest) =>
    if utf8char &&& mask = 0 then none
    else if 0x10FFFF < utf8char then none
    else if utf8char &&& 0x1FFF800 = 0xD800 then none
    else some rest

/-- One round of the loop of `Utf8Proc::analyze`: the bytes after the first character. -/
def analyzeChar (c : UInt8) (rest : Bytes) : Option Bytes :=
  if c.toNat &&& 0x80 = 0 then some rest
  else if c.toNat &&& 0xE0 = 0xC0 then utf8ExtraByteLoop 1 0x000780 (c.toNat &&& 0x1F) rest
  else if c.toNat &&& 0xF0 = 0xE0 then utf8ExtraByteLoop 2 0x00F800 (c.toNat &&& 0x0F) rest
  else if c.toNat &&& 0xF8 = 0xF0 then utf8ExtraByteLoop 3 0x1F0000 (c.toNat &&& 0x07) rest
  else none

/-- The loop of `Utf8Proc::analyze`, at most `fuel` rounds. -/
def analyze : Nat → Bytes → Bool
  | _, [] => true
  | 0, _ :: _ => false
  | fuel + 1, c :: rest =>
    match analyzeChar c rest with
    | none => false
    | some rest => analyze fuel rest

/-- `Utf8Proc::isValid`. Every round reads at least one byte, so there are at most as many rounds
as bytes. -/
def isValid (s : Bytes) : Bool := analyze s.length s

theorem extraBytes_length {n u u' : Nat} {rest rest' : Bytes}
    (h : extraBytes n u rest = some (u', rest')) : rest'.length ≤ rest.length := by
  induction n generalizing u rest with
  | zero =>
    simp only [extraBytes, Option.some.injEq, Prod.mk.injEq] at h
    exact Nat.le_of_eq (congrArg List.length h.2.symm)
  | succ n ih =>
    cases rest with
    | nil => simp [extraBytes] at h
    | cons c rest =>
      simp only [extraBytes] at h
      split at h
      · exact Nat.le_succ_of_le (ih h)
      · cases h

theorem utf8ExtraByteLoop_length {n mask u : Nat} {rest rest' : Bytes}
    (h : utf8ExtraByteLoop n mask u rest = some rest') : rest'.length ≤ rest.length := by
  unfold utf8ExtraByteLoop at h
  split at h
  · cases h
  · rename_i hextra
    repeat' split at h
    all_goals cases h
    exact extraBytes_length hextra

theorem analyzeChar_length {c : UInt8} {rest rest' : Bytes}
    (h : analyzeChar c rest = some rest') : rest'.length ≤ rest.length := by
  unfold analyzeChar at h
  repeat' split at h
  · cases h
    exact Nat.le_refl _
  · exact utf8ExtraByteLoop_length h
  · exact utf8ExtraByteLoop_length h
  · exact utf8ExtraByteLoop_length h
  · cases h

/-- Any fuel that covers the text gives the same answer. -/
theorem analyze_eq_isValid {fuel : Nat} {s : Bytes} (h : s.length ≤ fuel) : analyze fuel s = isValid s := by
  unfold isValid
  generalize hn : s.length = n at h ⊢
  have hs : s.length ≤ n := Nat.le_of_eq hn
  clear hn
  induction n generalizing fuel s with
  | zero =>
    rw [List.length_eq_zero_iff.mp (Nat.le_zero.mp hs)]
    cases fuel <;> rfl
  | succ n ih =>
    cases s with
    | nil => cases fuel <;> rfl
    | cons c rest =>
      obtain ⟨fuel, rfl⟩ : ∃ f, fuel = f + 1 := ⟨fuel - 1, by omega⟩
      simp only [analyze]
      cases hc : analyzeChar c rest with
      | none => rfl
      | some rest' =>
        have hlen := analyzeChar_length hc
        exact ih (by omega) (by simp only [List.length_cons] at hs; omega)

theorem isValid_cons (c : UInt8) (rest : Bytes) : isValid (c :: rest) = match analyzeChar c rest with
      | none => false
      | some rest => isValid rest := by
  unfold isValid
  simp only [List.length_cons, analyze]
  cases hc : analyzeChar c rest with
  | none => rfl
  | some rest' => exact analyze_eq_isValid (analyzeChar_length hc)

theorem analyzeChar_ascii {c : UInt8} (hc : c < 0x80) (rest : Bytes) : analyzeChar c rest = some rest := by
  have h : c.toNat &&& 0x80 = 0 := by
    have : ∀ n < 128, n &&& 0x80 = 0 := by decide
    exact this _ hc
  simp [analyzeChar, h]

theorem isValid_of_ascii {s : Bytes} (h : ∀ c ∈ s, c < 0x80) : isValid s = true := by
  induction s with
  | nil => rfl
  | cons c rest ih =>
    rw [isValid_cons, analyzeChar_ascii (h c List.mem_cons_self)]
    exact ih fun c' hc' => h c' (List.mem_cons_of_mem _ hc')

/-- The byte order mark `BaseCSVReader::readBOM` skips. -/
def byteOrderMark : Bytes := [0xEF, 0xBB, 0xBF]

theorem isValid_byteOrderMark_append (s : Bytes) : isValid (byteOrderMark ++ s) = isValid s := by
  have h : analyzeChar 0xEF (0xBB :: 0xBF :: s) = some s := by rfl
  simp only [byteOrderMark, List.cons_append, List.nil_append]
  rw [isValid_cons, h]

/-! ## Options -/

/-- `bindParsingOptionValue`: the character an option text stands for. -/
def bindParsingOptionValue (value : Bytes) : Option UInt8 :=
  match value with
  | [92, 116] => some 9
  | [c] => some c
  | [92, c] => some c
  | _ => none

/-- `CSVOption`, as far as the export function and the readers use it. The three characters are
`char`s bound by `bindParsingOptionValue`: the writer compares them with `uint8_t`s, which agrees
with the comparison of bytes because they are ASCII (`CSVOption.ofChars`). -/
structure CSVOption where
  escapeChar : UInt8
  delimiter : UInt8
  quoteChar : UInt8
  hasHeader : Bool
  skipNum : Nat
  ignoreErrors : Bool
  nullStrings : List Bytes
  escapeChar_ascii : escapeChar < 0x80
  delimiter_ascii : delimiter < 0x80
  quoteChar_ascii : quoteChar < 0x80

/-- The options a `COPY` statement has when it gives the header flag and the three characters:
no lines are skipped, errors are not ignored, and the null string is the empty one. -/
def CSVOption.ofChars (hasHeader : Bool) (escapeChar delimiter quoteChar : {c : UInt8 // c < 0x80}) :
    CSVOption where
  escapeChar := escapeChar.1
  delimiter := delimiter.1
  quoteChar := quoteChar.1
  hasHeader := hasHeader
  skipNum := 0
  ignoreErrors := false
  nullStrings := [[]]
  escapeChar_ascii := escapeChar.2
  delimiter_ascii := delimiter.2
  quoteChar_ascii := quoteChar.2

end CycleJoin.Csv
