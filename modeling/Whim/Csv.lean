import Whim.CsvCore

/-!
# Strict incremental decoding of comma-separated values

The reader state that runs a validator next to the record reader, and the loop that hands it the chunks of a handle.
-/

namespace Whim.Csv

open CsvCore

/-- The errors, with the numbers they are reported by. -/
inductive Code
  | unterminatedQuotedField | invalidClosingEnclosure | invalidOpeningEnclosure
  deriving DecidableEq

def Code.number : Code → ℕ
  | .unterminatedQuotedField => 1
  | .invalidClosingEnclosure => 2
  | .invalidOpeningEnclosure => 3

inductive StrictState
  | fieldStart | unquoted | quoted | closingEnclosure | carriageReturn
  deriving DecidableEq

abbrev RawRecord : Type := Bytes × List ℕ

structure ReaderState (R : Type) where
  reader : R
  output : Bytes
  ends : List ℕ
  strict : StrictState
  fresh : Bool

variable {R : Type} (crate : Crate R) (d : Dialect)

def ReaderState.new : ReaderState R := ⟨crate.new,[],[],.fieldStart,true⟩

/-! ## Validation -/

/-- The validator between a delimiter, or the start of a line, and the next byte. -/
def validateStart (b : UInt8) : StrictState :=
  if b = d.quote then .quoted
  else if b = CsvCore.carriageReturn then .carriageReturn
  else if b = lineFeed then .fieldStart
  else if b = d.delimiter then .fieldStart
  else .unquoted

def validateByte : StrictState → UInt8 → Except Code StrictState
  | .carriageReturn, b => if b = lineFeed then .ok .fieldStart else .ok (validateStart d b)
  | .fieldStart, b => .ok (validateStart d b)
  | .unquoted, b =>
    if b = d.quote then .error .invalidOpeningEnclosure
    else if b = CsvCore.carriageReturn then .ok .carriageReturn
    else if b = lineFeed then .ok .fieldStart
    else if b = d.delimiter then .ok .fieldStart
    else .ok .unquoted
  | .quoted, b => if b = d.quote then .ok .closingEnclosure else .ok .quoted
  | .closingEnclosure, b =>
    if b = d.quote then .ok .quoted
    else if b = d.delimiter then .ok .fieldStart
    else if b = CsvCore.carriageReturn then .ok .carriageReturn
    else if b = lineFeed then .ok .fieldStart
    else .error .invalidClosingEnclosure

def validate : StrictState → Bytes → Except Code StrictState
  | strict, [] => .ok strict
  | strict, b::input => do
    let strict ← validateByte d strict b
    validate strict input

/-! ## Reading -/

/-- How much of the input is an empty line, decided by the validator alone. -/
def blankRecordLength (s : ReaderState R) (input : Bytes) : Option ℕ :=
  if input.isEmpty || (s.strict ≠ .fieldStart && s.strict ≠ .carriageReturn) then none
  else
    let start := (s.strict = .carriageReturn && input.head? = some lineFeed).toNat
    match input[start]? with
    | none => none
    | some b =>
      if b = CsvCore.carriageReturn && input[start+1]? = some lineFeed then some (start+2)
      else if isNewline b then some (start+1)
      else none

def finishRecord (s : ReaderState R) : Except Code (ReaderState R) :=
  if s.strict = .quoted then .error .unterminatedQuotedField
  else .ok (if s.strict = .carriageReturn then s else { s with strict := .fieldStart })

/-- The output collected so far is handed over. -/
def takeRecord (s : ReaderState R) :
    RawRecord × ReaderState R := ((s.output,s.ends),{ s with output := [], ends := [] })

def outputSpace : ℕ := 4096

def endsSpace : ℕ := 128

/-- What a call reads of its input in one turn of its loop. The very first byte is read alone, so that the record
reader never sees a byte order mark. -/
def piece (s : ReaderState R) (input : Bytes) : Bytes := if s.fresh then input.take 1 else input

def absorb (s : ReaderState R) (strict : StrictState) (r : ReadRecord R) : ReaderState R :=
  { reader := r.reader, output := s.output++r.written, ends := s.ends++r.ends, strict, fresh := false }

theorem piece_progress {s : ReaderState R} {i : Bytes} {r : ReadRecord R}
    (hr : crate.readRecord d s.reader outputSpace endsSpace (piece s i) = r) (hrecord : r.result ≠ .record)
    (hfinished : r.result ≠ .finished) : i.length-r.read < i.length := by
  subst hr
  have hpiece : piece s i ≠ [] := by
    intro hnil
    rw [hnil] at hrecord hfinished
    exact (crate.ends (by decide)).elim hrecord hfinished
  have hne : i ≠ [] := by
    rintro rfl
    refine hpiece ?_
    unfold piece
    split <;> rfl
  have hread : 0 < (crate.readRecord d s.reader outputSpace endsSpace (piece s i)).read :=
    crate.progress (by decide) (by decide) hpiece
  have := List.length_pos_iff.mpr hne
  omega

/-- The loop of a call: the state after it, the bytes it consumed and perhaps a record. -/
def readLoop (s : ReaderState R) (consumed : ℕ) (input : Bytes) :
    Except Code (ReaderState R × ℕ × Option RawRecord) :=
  let r := crate.readRecord d s.reader outputSpace endsSpace (piece s input)
  match validate d s.strict ((piece s input).take r.read) with
  | .error code => .error code
  | .ok strict =>
    match _hresult : r.result with
    | .record => do
      let s ← finishRecord (absorb s strict r)
      .ok ((takeRecord s).2,consumed+r.read,some (takeRecord s).1)
    | .finished => .ok (absorb s strict r,consumed+r.read,none)
    | .inputEmpty =>
      if input.length ≤ r.read then .ok (absorb s strict r,consumed+r.read,none)
      else readLoop (absorb s strict r) (consumed+r.read) (input.drop r.read)
    | .outputFull => readLoop (absorb s strict r) (consumed+r.read) (input.drop r.read)
    | .outputEndsFull => readLoop (absorb s strict r) (consumed+r.read) (input.drop r.read)
termination_by input.length
decreasing_by
  all_goals
    rw [List.length_drop]
    exact piece_progress crate d rfl (by rw [_hresult]; decide) (by rw [_hresult]; decide)

def read (s : ReaderState R) (input : Bytes) : Except Code (ReaderState R × ℕ × Option RawRecord) :=
  if input.isEmpty && s.strict = .quoted then .error .unterminatedQuotedField
  else
    match blankRecordLength s input with
    | some length => do
      let r := crate.readRecord d s.reader 2 2 (input.take length)
      let strict ← validate d s.strict (input.take r.read)
      .ok (absorb s strict r,r.read,some ([],[0]))
    | none => readLoop crate d s 0 input

/-! ## The loop over a handle -/

structure Stream (R : Type) where
  state : ReaderState R
  buffer : Bytes
  finished : Bool
  handle : List Bytes

inductive Next (R : Type)
  | malformed (code : Code)
  | record (record : RawRecord) (stream : Stream R)
  | ended

/-- One turn of `next`; `pull` goes on with the next chunk of the handle. -/
def turn (s : Stream R) (pull : ReaderState R → Next R) : Next R :=
  if s.buffer ≠ [] || s.finished then
    match read crate d s.state s.buffer with
    | .error code => .malformed code
    | .ok (state,consumed,some record) =>
      .record record { s with state, buffer := s.buffer.drop consumed }
    | .ok (state,_,none) => if s.finished then .ended else pull state
  else pull s.state

/-- An empty chunk, and the end of the handle, finish the stream. -/
def next (state : ReaderState R) (buffer : Bytes) (finished : Bool) : List Bytes → Next R
  | [] => turn crate d ⟨state,buffer,finished,[]⟩ fun state => turn crate d ⟨state,[],true,[]⟩ fun _ => .ended
  | chunk::handle => turn crate d ⟨state,buffer,finished,chunk::handle⟩
      fun state => next state chunk chunk.isEmpty handle

/-- What a reader yields: its records, and the error it stops at. -/
structure Yield where
  records : List RawRecord
  error : Option Code
  deriving DecidableEq

/-- At most `calls` calls of `next`; nothing if they are not enough. -/
def readAll : ℕ → Stream R → Option Yield
  | 0, _ => none
  | calls+1, s =>
    match next crate d s.state s.buffer s.finished s.handle with
    | .malformed code => some ⟨[],some code⟩
    | .ended => some ⟨[],none⟩
    | .record record s => (readAll calls s).map fun yield => { yield with records := record::yield.records }

def Stream.new (chunks : List Bytes) : Stream R := ⟨.new crate,[],false,chunks⟩

end Whim.Csv
