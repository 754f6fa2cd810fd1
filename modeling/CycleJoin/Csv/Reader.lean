import CycleJoin.Csv.Cells

/-!
# CSV: the reader

`BaseCSVReader::parseCSV`, with the drivers of `driver.cpp`. The source is a state machine of
labels and `goto`s over a buffer; every label looks at the byte at `position`, and at the end of
the file if there is none. Here `act` is what the label does with its byte, `finish` what it does
at the end of the file, and `parseLoop` runs them over the rest of the file.

Positions are offsets in the file (`getFileOffset`). The buffer is represented by the number of
bytes that it still holds: it is refilled when it runs out, and the only place where the code can
tell is `skipCurrentLine`, whose inner loop stops at its end.
-/

namespace CycleJoin.Csv

/-- `CopyConstants::INITIAL_BUFFER_SIZE`. -/
def initialBufferSize : Nat := 16384

/-- `DEFAULT_VECTOR_CAPACITY`, the number of rows of a chunk. -/
def vectorCapacity : Nat := 2048

/-- Where the machine stands; the names of the source's labels. `lineStart` is the head of the
outer loop and `rowEnd` the test of `driver.done` after a line end; `skipLine` and `skipNewlines`
are the two loops of `skipCurrentLine`. -/
inductive Label where
  | lineStart
  | valueStart
  | normal
  | inQuotes
  | unquote
  | handleEscape
  | carriageReturn
  | rowEnd
  | skipLine
  | skipNewlines
  deriving DecidableEq

/-- `DriverType`, as far as a scan uses them. -/
inductive DriverType where
  | header
  | skipRow (skipNum : Nat)
  | serial
  | parallel (blockEnd : Nat)
  deriving DecidableEq

/-- `done`: whether the driver takes no further row. `ParallelParsingDriver::doneEarly` is
`finishedBlock`, which compares the offset in the file with the end of the block. -/
def DriverType.done : DriverType → (rowNum position : Nat) → Bool
  | .header, _, _ => true
  | .skipRow skipNum, rowNum, _ => skipNum ≤ rowNum
  | .serial, rowNum, _ => vectorCapacity ≤ rowNum
  | .parallel blockEnd, rowNum, position => vectorCapacity ≤ rowNum || blockEnd < position

/-- Whether the driver is a `ParsingDriver`; the others drop what they are given. -/
def DriverType.parses : DriverType → Bool
  | .header | .skipRow _ => false
  | .serial | .parallel _ => true

/-- `LineContext`: the line that is reported with an error. -/
structure LineContext where
  startByteOffset : Nat
  endByteOffset : Nat
  isCompleteLine : Bool
  deriving DecidableEq

/-- `LineContext::setNewLine`. -/
def LineContext.setNewLine (context : LineContext) (start : Nat) : LineContext :=
  { context with startByteOffset := start, isCompleteLine := false }

/-- `LineContext::setEndOfLine`. -/
def LineContext.setEndOfLine (context : LineContext) (endOffset : Nat) : LineContext :=
  { context with endByteOffset := endOffset, isCompleteLine := true }

/-- `CopyFromFileError`, with the byte range of the record it is about. -/
structure CopyFromFileError where
  message : ErrorMessage
  startByteOffset : Nat
  endByteOffset : Nat
  completedLine : Bool
  deriving DecidableEq

/-- The reader's configuration: its options and the types of the columns. -/
structure ReaderConfig where
  option : CSVOption
  types : List ColumnType

/-- `BaseCSVReader::getNumColumns`. -/
def ReaderConfig.numColumns (config : ReaderConfig) : Nat := config.types.length

/-- The variables of `parseCSV` and of its driver. `value` is the buffer from `start` to
`position`, and `row` what the driver has written to the current row of the chunk. -/
structure ParseState where
  label : Label
  column : Nat
  value : Bytes
  hasQuotes : Bool
  escapePositions : List Nat
  row : List Cell
  rowEmpty : Bool
  position : Nat
  lineContext : LineContext

/-- What a part of the file gives: the rows of the chunk and the errors, in order. The drivers
that keep nothing give empty rows. -/
structure Output where
  rows : List (List Cell)
  errors : List CopyFromFileError
  deriving DecidableEq

namespace Output

def empty : Output := ⟨[], []⟩

def append (o o' : Output) : Output := ⟨o.rows ++ o'.rows, o.errors ++ o'.errors⟩

end Output

namespace ParseState

/-- The state in which `parseCSV` is entered at an offset of the file. -/
def start (position : Nat) : ParseState where
  label := .lineStart
  column := 0
  value := []
  hasQuotes := false
  escapePositions := []
  row := []
  rowEmpty := false
  position := position
  lineContext := ⟨position, 0, false⟩

/-- Past the byte at `position`, which the current value does not keep. -/
def consume (s : ParseState) (label : Label) : ParseState :=
  { s with position := s.position + 1, label := label }

/-- Past the byte at `position`, which becomes part of the current value. -/
def keep (s : ParseState) (label : Label) (c : UInt8) : ParseState :=
  { s.consume label with value := s.value ++ [c] }

/-- `BaseCSVReader::handleCopyException` of an error that need not be thrown at once. -/
def copyException (s : ParseState) (message : ErrorMessage) : CopyFromFileError where
  message := message
  startByteOffset := s.lineContext.startByteOffset
  endByteOffset := if s.lineContext.isCompleteLine then s.lineContext.endByteOffset else s.position
  completedLine := s.lineContext.isCompleteLine

end ParseState

/-- The loop of `BaseCSVReader::addValue` that removes the escape characters. -/
def removeEscapes (strVal : Bytes) : Nat → List Nat → Bytes
  | prevPos, [] => strVal.drop prevPos
  | prevPos, nextPos :: rest =>
    (strVal.drop prevPos).take (nextPos - prevPos) ++ removeEscapes strVal (nextPos + 1) rest

/-- `valueToAdd` of `BaseCSVReader::addValue`: the current value without its closing quote and its
escape characters. -/
def ParseState.valueToAdd (s : ParseState) : Bytes :=
  removeEscapes (if s.hasQuotes then s.value.dropLast else s.value) 0 s.escapePositions

section
variable (config : ReaderConfig) (driver : DriverType)

/-- The driver's `addValue`; on the left of the result the error that it has reported, on which
it returns `false`. -/
def driverAddValue (s : ParseState) (value : Bytes) : ParseState × Option CopyFromFileError :=
  if driver.parses then
    let s := { s with rowEmpty := value.isEmpty && s.column == 0 }
    match config.types[s.column]? with
    | none =>
      -- a single trailing delimiter is skipped
      if s.column = config.numColumns ∧ value = [] then (s, none)
      else (s, some (s.copyException (.tooManyValues config.numColumns)))
    | some type =>
      match copyStringToVector config.option type value with
      | .ok cell => ({ s with row := s.row ++ [cell] }, none)
      | .error message => (s, some (s.copyException message))
  else (s, none)

/-- `BaseCSVReader::addValue`; a value that is not UTF-8 is an exception. -/
def addValue (s : ParseState) : Except ErrorMessage (ParseState × Option CopyFromFileError) :=
  let value := s.valueToAdd
  if isValid value then .ok (driverAddValue config driver { s with escapePositions := [] } value)
  else .error .invalidUtf8

/-- The driver's `addRow`, after the values of the row. -/
def addRow (s : ParseState) : ParseState × Output :=
  let next := { s with row := [], rowEmpty := false }
  if driver.parses then
    if s.rowEmpty ∧ config.numColumns ≠ 1 then (next, .empty)
    else if s.column < config.numColumns then
      (next, ⟨[], [s.copyException (.tooFewValues config.numColumns s.column)]⟩)
    else (next, ⟨[s.row], []⟩)
  else (next, ⟨[s.row], []⟩)

section
variable (s : ParseState) (c : UInt8)

/-- `ignore_error` at the byte `c`: `skipCurrentLine` looks for the end of the line. -/
def ignoreError : ParseState :=
  if isNewLine c then s.consume .skipNewlines else s.consume .skipLine

/-- `add_value`, at a delimiter. -/
def addValueAct : Except ErrorMessage (ParseState × Output) := do
  let (s, error) ← addValue config driver s
  match error with
  | some error => return (ignoreError s c, ⟨[], [error]⟩)
  | none => return ({ s.consume .valueStart with column := s.column + 1, value := [] }, .empty)

/-- `add_row`, at a line end. -/
def addRowAct : Except ErrorMessage (ParseState × Output) := do
  let s := { s with lineContext := s.lineContext.setEndOfLine s.position }
  let (s, error) ← addValue config driver s
  match error with
  | some error => return (ignoreError s c, ⟨[], [error]⟩)
  | none =>
    let (s, out) := addRow config driver { s with column := s.column + 1 }
    return ({ s.consume (if c = cr then .carriageReturn else .rowEnd) with
      column := 0
      value := []
      lineContext := s.lineContext.setNewLine (s.position + 1) }, out)

/-- `normal`. -/
def normalAct : Except ErrorMessage (ParseState × Output) :=
  if c = config.option.delimiter then addValueAct config driver s c
  else if isNewLine c then addRowAct config driver s c
  else return (s.keep .normal c, .empty)

/-- `value_start`. -/
def valueStartAct : Except ErrorMessage (ParseState × Output) :=
  if c = config.option.quoteChar then
    return ({ s.consume .inQuotes with hasQuotes := true, value := [] }, .empty)
  else normalAct config driver { s with hasQuotes := false, value := [] } c

/-- The head of the outer loop of `parseCSV`. -/
def lineStartAct : Except ErrorMessage (ParseState × Output) :=
  valueStartAct config driver { s with
      column := 0
      value := []
      hasQuotes := false
      escapePositions := []
      row := []
      lineContext := s.lineContext.setNewLine s.position } c

/-- `in_quotes`. `SerialCSVReader::handleQuotedNewline` lets the newline pass, the parallel reader
reports it. -/
def inQuotesAct : ParseState × Output :=
  if c = config.option.quoteChar then (s.keep .unquote c, .empty)
  else if c = config.option.escapeChar then
    ({ s.keep .handleEscape c with
      escapePositions := s.escapePositions ++ [s.value.length] }, .empty)
  else if isNewLine c then
    match driver with
    | .parallel _ =>
      let s := { s with lineContext := s.lineContext.setEndOfLine s.position }
      (ignoreError s c, ⟨[], [s.copyException .quotedNewline]⟩)
    | _ => (s.keep .inQuotes c, .empty)
  else (s.keep .inQuotes c, .empty)

/-- `unquote`. -/
def unquoteAct : Except ErrorMessage (ParseState × Output) :=
  if c = config.option.quoteChar ∧
      (config.option.escapeChar = 0 ∨ config.option.escapeChar = config.option.quoteChar) then
    return ({ s.keep .inQuotes c with
      escapePositions := s.escapePositions ++ [s.value.length] }, .empty)
  else if c = config.option.delimiter ∨ c = listEndChar then addValueAct config driver s c
  else if isNewLine c then addRowAct config driver s c
  else return (ignoreError s c, ⟨[], [s.copyException .afterQuote]⟩)

/-- `handle_escape`. -/
def handleEscapeAct : ParseState × Output :=
  if c ≠ config.option.quoteChar ∧ c ≠ config.option.escapeChar then
    -- the invalid character is consumed before the rest of the line is skipped
    let s := s.consume .skipLine
    (s, ⟨[], [s.copyException .afterEscape]⟩)
  else (s.keep .inQuotes c, .empty)

end

/-- What a label does with its byte: the machine moves past it, or it stops before it because the
driver is done. `inBuffer` says that the byte has been read into the buffer already. -/
inductive Step where
  | next (s : ParseState) (out : Output)
  | stop

def Step.ofNext (r : Except ErrorMessage (ParseState × Output)) : Except ErrorMessage Step :=
  r.map fun (s, out) => .next s out

/-- One byte. -/
def act (done : Bool) (inBuffer : Bool) (s : ParseState) (c : UInt8) : Except ErrorMessage Step :=
  match s.label with
  | .lineStart => Step.ofNext (lineStartAct config driver s c)
  | .valueStart => Step.ofNext (valueStartAct config driver s c)
  | .normal => Step.ofNext (normalAct config driver s c)
  | .inQuotes => .ok (.next (inQuotesAct config driver s c).1 (inQuotesAct config driver s c).2)
  | .unquote => Step.ofNext (unquoteAct config driver s c)
  | .handleEscape => .ok (.next (handleEscapeAct config s c).1 (handleEscapeAct config s c).2)
  | .carriageReturn =>
    if c = lf then .ok (.next (s.consume .rowEnd) .empty)
    else if done then .ok .stop
    else Step.ofNext (valueStartAct config driver s c)
  | .rowEnd =>
    if done then .ok .stop else Step.ofNext (valueStartAct config driver s c)
  | .skipLine => .ok (.next (ignoreError s c) .empty)
  | .skipNewlines =>
    if inBuffer ∧ isNewLine c then .ok (.next (s.consume .skipNewlines) .empty)
    else if done then .ok .stop
    else Step.ofNext (lineStartAct config driver s c)

/-- `final_state`. -/
def finalState (s : ParseState) : Except ErrorMessage Output := do
  let s := { s with lineContext := s.lineContext.setEndOfLine s.position }
  if s.value = [] then
    return if 0 < s.column then (addRow config driver s).2 else .empty
  else
    let (s, error) ← addValue config driver s
    match error with
    | some error => return ⟨[], [error]⟩
    | none => return (addRow config driver { s with column := s.column + 1 }).2

/-- The end of the file. -/
def finish (s : ParseState) : Except ErrorMessage Output :=
  match s.label with
  | .lineStart | .skipLine | .skipNewlines => .ok .empty
  | .inQuotes =>
    let s := { s with lineContext := s.lineContext.setEndOfLine s.position }
    .ok ⟨[], [s.copyException .unterminatedQuotes]⟩
  | .handleEscape =>
    let s := { s with lineContext := s.lineContext.setEndOfLine s.position }
    .ok ⟨[], [s.copyException .escapeAtEndOfFile]⟩
  | .valueStart | .normal | .unquote | .carriageReturn | .rowEnd => finalState config driver s

/-- The loop of `readBuffer` that doubles the size of the read. -/
def growReadSize (remaining : Nat) : Nat → Nat → Nat
  | 0, bufferReadSize => bufferReadSize
  | fuel + 1, bufferReadSize =>
    if bufferReadSize < remaining then growReadSize remaining fuel (bufferReadSize * 2)
    else bufferReadSize

/-- `maybeReadBuffer`: the number of bytes the buffer holds from `position` on, when `available`
bytes of the file are left. `remaining` bytes of the old buffer are kept. -/
def maybeReadBuffer (buffered remaining available : Nat) : Nat :=
  if 0 < buffered then buffered
  else min (growReadSize remaining remaining initialBufferSize) available

/-- The bytes of the buffer that a read must keep: those of the current value. `skipCurrentLine`
and the head of the outer loop keep none. -/
def ParseState.remaining (s : ParseState) : Nat :=
  match s.label with
  | .lineStart | .skipLine | .skipNewlines => 0
  | _ => s.value.length

/-- What a call of `parseCSV` leaves: its output, the offset, and the rest of the file with the
number of its bytes in the buffer. -/
structure ParseResult where
  output : Output
  position : Nat
  buffered : Nat
  rest : Bytes

/-- The output of the bytes before, in front. -/
def ParseResult.after (out : Output) (r : ParseResult) : ParseResult :=
  { r with output := out.append r.output }

/-- `parseCSV` in the state `s`, with `curRowIdx` rows in the chunk and `buffered` bytes in the
buffer, over the rest of the file. -/
def parseLoop : ParseState → (curRowIdx buffered : Nat) → Bytes → Except ErrorMessage ParseResult
  | s, _, _, [] => (finish config driver s).map fun out => ⟨out, s.position, 0, []⟩
  | s, curRowIdx, buffered, c :: rest => do
    let filled := maybeReadBuffer buffered s.remaining (rest.length + 1)
    match ← act config driver (driver.done curRowIdx s.position) (0 < buffered) s c with
    | .stop => return ⟨.empty, s.position, filled, c :: rest⟩
    | .next s out =>
      let r ← parseLoop s (curRowIdx + out.rows.length) (filled - 1) rest
      return r.after out

end

/-! ## Scans -/

/-- A `BaseCSVReader` between two calls of `parseCSV`: the offset, the rest of the file from
there with the number of its bytes in the buffer, and the errors reported so far. -/
structure Reader where
  position : Nat
  buffered : Nat
  rest : Bytes
  errors : List CopyFromFileError

namespace Reader

/-- A new reader of a file. -/
def ofFile (file : Bytes) : Reader := ⟨0, 0, file, []⟩

/-- `BaseCSVReader::readBOM`. -/
def readBOM (r : Reader) : Reader :=
  let buffered := maybeReadBuffer r.buffered 0 r.rest.length
  if byteOrderMark.isPrefixOf (r.rest.take buffered) then
    { r with position := r.position + 3, buffered := buffered - 3, rest := r.rest.drop 3 }
  else { r with buffered := buffered }

/-- A call of `parseCSV`: the rows of the chunk and the reader afterwards. -/
def parseCSV (config : ReaderConfig) (driver : DriverType) (r : Reader) :
    Except ErrorMessage (List (List Cell) × Reader) := do
  let result ← parseLoop config driver (.start r.position) 0 r.buffered r.rest
  return (result.output.rows,
    ⟨result.position, result.buffered, result.rest, r.errors ++ result.output.errors⟩)

/-- `BaseCSVReader::readHeader`. -/
def readHeader (config : ReaderConfig) (r : Reader) : Except ErrorMessage Reader := do
  let (_, r) ← r.parseCSV config .header
  return r

/-- `BaseCSVReader::handleFirstBlock`. -/
def handleFirstBlock (config : ReaderConfig) (r : Reader) : Except ErrorMessage Reader := do
  let mut r := r.readBOM
  if 0 < config.option.skipNum then
    let (_, r') ← r.parseCSV config (.skipRow config.option.skipNum)
    r := r'
  if config.option.hasHeader then
    r ← r.readHeader config
  return r

/-- The calls of `SerialCSVReader::parseBlock` that follow: every call gives a chunk, and the
first empty one ends the file (`SerialCSVScanSharedState::read`). -/
def readBlocks (config : ReaderConfig) : Nat → Reader →
    Except ErrorMessage (List (List Cell) × Reader)
  | 0, r => .ok ([], r)
  | fuel + 1, r => do
    let (rows, r) ← r.parseCSV config .serial
    if rows = [] then return ([], r)
    else
      let (rows', r) ← readBlocks config fuel r
      return (rows ++ rows', r)

end Reader

/-- What a scan gives: its rows and, where errors are ignored, the records left out. -/
structure ScanResult where
  rows : List (List Cell)
  warnings : List CopyFromFileError
  deriving DecidableEq

/-- `finalizeReader`: an error that is not ignored is thrown at the end of the file. -/
def finalizeScan (config : ReaderConfig) (rows : List (List Cell))
    (errors : List CopyFromFileError) : Except ErrorMessage ScanResult :=
  if config.option.ignoreErrors then .ok ⟨rows, errors⟩
  else match errors with
    | [] => .ok ⟨rows, []⟩
    | e :: _ => .error e.message

/-- The scan of a file by the serial reader. Every chunk that is not empty takes at least one byte
of the file. -/
def serialScan (config : ReaderConfig) (file : Bytes) : Except ErrorMessage ScanResult := do
  let r ← (Reader.ofFile file).handleFirstBlock config
  let (rows, r) ← r.readBlocks config (file.length + 1)
  finalizeScan config rows r.errors

end CycleJoin.Csv
