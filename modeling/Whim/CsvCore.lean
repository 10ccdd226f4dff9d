import Mathlib.Data.UInt
import Mathlib.Algebra.Order.Ring.Nat

/-!
# The record reader of the csv_core crate

The crate is a parameter. Its documentation describes a reader that goes byte by byte, wherever its input is cut, and
skips empty lines; this is what is assumed of it, and it leaves no choice.
-/

namespace Whim.CsvCore

abbrev Bytes := List UInt8

def carriageReturn : UInt8 := 13

def lineFeed : UInt8 := 10

def isNewline (b : UInt8) : Bool := b = carriageReturn || b = lineFeed

/-- Two bytes that are told apart from each other and from line ends. -/
structure Dialect where
  delimiter : UInt8
  quote : UInt8
  distinct : delimiter ≠ quote
  delimiter_newline : isNewline delimiter = false
  quote_newline : isNewline quote = false

inductive Result
  | inputEmpty | outputFull | outputEndsFull | record | finished
  deriving DecidableEq

/-- What a call gives: the bytes read, the bytes of fields and where fields end. -/
structure ReadRecord (R : Type) where
  result : Result
  reader : R
  read : ℕ
  written : Bytes
  ends : List ℕ

/-- A call has the dialect, a reader, the space for bytes and for ends, and the input. The loop that calls it ends
because it reads something. -/
structure Crate (R : Type) where
  new : R
  readRecord : Dialect → R → ℕ → ℕ → Bytes → ReadRecord R
  progress {d : Dialect} {r : R} {space endsSpace : ℕ} {input : Bytes} : 0 < space → 0 < endsSpace → input ≠ [] →
    0 < (readRecord d r space endsSpace input).read
  ends {d : Dialect} {r : R} {space endsSpace : ℕ} : 0 < endsSpace →
    (readRecord d r space endsSpace []).result = .record ∨ (readRecord d r space endsSpace []).result = .finished

/-! ## What a byte does -/

inductive Phase
  | between | fieldStart | unquoted | quoted | closing
  deriving DecidableEq

/-- What the calls to come depend on. -/
structure View where
  phase : Phase
  position : ℕ
  started : Bool
  deriving DecidableEq

structure Effect where
  phase : Phase
  copied : Bool
  endsField : Bool
  endsRecord : Bool

variable (d : Dialect)

def fieldEffect (b : UInt8) : Effect :=
  if b = d.delimiter then ⟨.fieldStart,false,true,false⟩
  else if isNewline b then ⟨.between,false,true,true⟩
  else ⟨.unquoted,true,false,false⟩

def startEffect (b : UInt8) : Effect := if b = d.quote then ⟨.quoted,false,false,false⟩ else fieldEffect d b

/-- Line ends between records are skipped, and a quote inside an enclosure is doubled. -/
def effect : Phase → UInt8 → Effect
  | .between, b => if isNewline b then ⟨.between,false,false,false⟩ else startEffect d b
  | .fieldStart, b => startEffect d b
  | .unquoted, b => fieldEffect d b
  | .quoted, b => if b = d.quote then ⟨.closing,false,false,false⟩ else ⟨.quoted,true,false,false⟩
  | .closing, b => if b = d.quote then ⟨.quoted,true,false,false⟩ else fieldEffect d b

variable {R S : Type}

def ReadRecord.map (f : R → S) (r : ReadRecord R) : ReadRecord S := { r with reader := f r.reader }

/-- What a call gives behind a byte that gave the first. -/
def ReadRecord.behind (first : ReadRecord S) (more : ReadRecord R) : ReadRecord R :=
  { more with read := first.read+more.read, written := first.written++more.written, ends := first.ends++more.ends }

/-- A call on one byte. -/
def readByte (v : View) (b : UInt8) : ReadRecord View :=
  let x := effect d v.phase b
  { result := if x.endsRecord then .record else .inputEmpty
    reader := ⟨x.phase,if x.endsRecord then 0 else v.position+x.copied.toNat,true⟩
    read := 1
    written := if x.copied then [b] else []
    ends := if x.endsField then [v.position+x.copied.toNat] else [] }

/-- A call at the end of the text: what has been read of a record is a record. -/
def readEnd (v : View) : ReadRecord View :=
  if v.phase = .between then ⟨.finished,{ v with started := true },0,[],[]⟩
  else ⟨.record,⟨.between,0,true⟩,0,[],[v.position]⟩

/-- A call on no room for the output. -/
def readFull (v : View) (space : ℕ) : ReadRecord View :=
  ⟨if space = 0 then .outputFull else .outputEndsFull,{ v with started := true },0,[],[]⟩

/-- The input does not start with a byte order mark that is skipped. -/
def View.Plain (v : View) (input : Bytes) : Prop := v.started = true ∨ input.head? ≠ some 0xef

/-- The laws of a record reader, with what its readers are seen as. -/
structure Crate.Laws (crate : Crate R) where
  view : R → View
  new : view crate.new = ⟨.between,0,false⟩
  nil {d : Dialect} {r : R} {space endsSpace : ℕ} : 0 < endsSpace →
    (crate.readRecord d r space endsSpace []).map view = readEnd (view r)
  byte {d : Dialect} {r : R} {space endsSpace : ℕ} {b : UInt8} : 0 < space → 0 < endsSpace →
    (crate.readRecord d r space endsSpace [b]).map view = readByte d (view r) b
  /-- A record ends a call. -/
  record {d : Dialect} {r : R} {space endsSpace : ℕ} {b : UInt8} {input : Bytes} : 0 < space → 0 < endsSpace →
    (view r).Plain (b::input) → (crate.readRecord d r space endsSpace [b]).result = .record →
    (crate.readRecord d r space endsSpace (b::input)).map view = (crate.readRecord d r space endsSpace [b]).map view
  /-- Otherwise it goes on as a call on the rest of the input would. -/
  cons {d : Dialect} {r : R} {space endsSpace : ℕ} {b : UInt8} {input : Bytes} : 0 < space → 0 < endsSpace →
    (view r).Plain (b::input) → input ≠ [] → (crate.readRecord d r space endsSpace [b]).result = .inputEmpty →
    let first := crate.readRecord d r space endsSpace [b]
    (crate.readRecord d r space endsSpace (b::input)).map view = first.behind
      ((crate.readRecord d first.reader (space-first.written.length) (endsSpace-first.ends.length) input).map view)
  full {d : Dialect} {r : R} {space endsSpace : ℕ} {input : Bytes} : space = 0 ∨ endsSpace = 0 →
    (view r).started = true → (view r).phase ≠ .between → input ≠ [] →
    (crate.readRecord d r space endsSpace input).map view = readFull (view r) space

/-! ## Calls on any input -/

/-- A call on an input without a byte order mark. -/
def readBytes (v : View) (space endsSpace : ℕ) : Bytes → ReadRecord View
  | [] => readEnd v
  | b::input =>
    if space = 0 ∨ endsSpace = 0 then readFull v space
    else
      let first := readByte d v b
      if first.result = .record ∨ input = [] then first
      else first.behind (readBytes first.reader (space-first.written.length) (endsSpace-first.ends.length) input)

variable {d} {v : View} {space endsSpace : ℕ} {b : UInt8} {input : Bytes}

theorem readByte_result (v : View) (b : UInt8) :
    (readByte d v b).result = if (effect d v.phase b).endsRecord then .record else .inputEmpty := rfl

theorem readByte_result_cases (v : View) (b : UInt8) :
    (readByte d v b).result = .record ∨ (readByte d v b).result = .inputEmpty := by
  rw [readByte_result]
  split
  · exact .inl rfl
  · exact .inr rfl

theorem readBytes_started (v : View) (space endsSpace : ℕ) (input : Bytes) :
    (readBytes d v space endsSpace input).reader.started = true := by
  induction input generalizing v space endsSpace with
  | nil =>
    rw [readBytes,readEnd]
    split <;> rfl
  | cons b input ih =>
    rw [readBytes]
    dsimp only
    split_ifs
    · rfl
    · rfl
    · exact ih _ _ _

/-- Where a byte fills the output, the next call is inside a record. -/
theorem effect_phase {p : Phase} (h : (effect d p b).endsRecord = false)
    (hfull : (effect d p b).copied = true ∨ (effect d p b).endsField = true) : (effect d p b).phase ≠ .between := by
  have hfield : (fieldEffect d b).endsRecord = false → (fieldEffect d b).phase ≠ .between := by
    unfold fieldEffect
    split_ifs <;> simp
  have hstart : (startEffect d b).endsRecord = false → (startEffect d b).phase ≠ .between := by
    unfold startEffect
    split_ifs
    · simp
    · exact hfield
  cases p with
  | between =>
    rw [effect] at h hfull ⊢
    split_ifs at h hfull ⊢
    · simp at hfull
    · exact hstart h
  | fieldStart => exact hstart h
  | unquoted => exact hfield h
  | quoted =>
    rw [effect]
    split_ifs <;> simp
  | closing =>
    rw [effect] at h ⊢
    split_ifs at h ⊢
    · simp
    · exact hfield h

/-- Behind a byte that ends no record there is room, or the reader is inside a record. -/
theorem room_byte (hspace : 0 < space) (hends : 0 < endsSpace) (h : (readByte d v b).result ≠ .record) :
    0 < space-(readByte d v b).written.length ∧ 0 < endsSpace-(readByte d v b).ends.length ∨
      (readByte d v b).reader.phase ≠ .between := by
  by_cases hfull : (effect d v.phase b).copied = true ∨ (effect d v.phase b).endsField = true
  · refine .inr (effect_phase ?_ hfull)
    by_contra hrecord
    exact h (if_pos (by simpa using hrecord))
  · simp only [not_or,Bool.not_eq_true] at hfull
    left
    simp [readByte,hfull.1,hfull.2,hspace,hends]

/-- A record reader that meets the laws reads in this way. -/
theorem Crate.Laws.readRecord_eq {crate : Crate R} (laws : crate.Laws) {r : R} (hne : input ≠ [])
    (hplain : (laws.view r).Plain input)
    (hroom : 0 < space ∧ 0 < endsSpace ∨ (laws.view r).started = true ∧ (laws.view r).phase ≠ .between) :
    (crate.readRecord d r space endsSpace input).map laws.view = readBytes d (laws.view r) space endsSpace input := by
  induction input generalizing r space endsSpace with
  | nil => exact absurd rfl hne
  | cons b input ih =>
    rw [readBytes]
    by_cases hfull : space = 0 ∨ endsSpace = 0
    · obtain ⟨hstarted,hphase⟩ := hroom.resolve_left fun h => by omega
      rw [if_pos hfull]
      exact laws.full hfull hstarted hphase (List.cons_ne_nil b input)
    obtain ⟨hspace,hends⟩ : 0 < space ∧ 0 < endsSpace := by omega
    have hbyte := laws.byte (d := d) (r := r) (b := b) hspace hends
    have hresult : (crate.readRecord d r space endsSpace [b]).result = (readByte d (laws.view r) b).result :=
      congrArg ReadRecord.result hbyte
    rw [if_neg hfull]
    dsimp only
    by_cases hrecord : (readByte d (laws.view r) b).result = .record
    · rw [if_pos (.inl hrecord),laws.record hspace hends hplain (hresult.trans hrecord),hbyte]
    by_cases hinput : input = []
    · rw [if_pos (.inr hinput),hinput,hbyte]
    -- the rest of the input is read as by a call of its own
    have hgoes := (readByte_result_cases (d := d) (laws.view r) b).resolve_left hrecord
    rw [if_neg (not_or.mpr ⟨hrecord,hinput⟩),laws.cons hspace hends hplain hinput (hresult.trans hgoes)]
    have hreader : laws.view (crate.readRecord d r space endsSpace [b]).reader = (readByte d (laws.view r) b).reader :=
      congrArg ReadRecord.reader hbyte
    have hwritten : (crate.readRecord d r space endsSpace [b]).written = (readByte d (laws.view r) b).written :=
      congrArg ReadRecord.written hbyte
    have hfields : (crate.readRecord d r space endsSpace [b]).ends = (readByte d (laws.view r) b).ends :=
      congrArg ReadRecord.ends hbyte
    have hread : (crate.readRecord d r space endsSpace [b]).read = (readByte d (laws.view r) b).read :=
      congrArg ReadRecord.read hbyte
    have hnext := room_byte (d := d) (v := laws.view r) (b := b) hspace hends hrecord
    rw [ih hinput (.inl (by rw [hreader]; rfl))
      (by rw [hreader,hwritten,hfields]; exact hnext.imp_right fun h => ⟨rfl,h⟩)]
    rw [hreader,hwritten,hfields,ReadRecord.behind,ReadRecord.behind,hread,hwritten,hfields]

/-! ## A reader of its own -/

def byteOrderMark : Bytes := [0xef,0xbb,0xbf]

/-- A byte order mark at the start is skipped. -/
def readRecord (d : Dialect) (v : View) (space endsSpace : ℕ) (input : Bytes) : ReadRecord View :=
  if v.started = false ∧ byteOrderMark.isPrefixOf input then
    let read := readBytes d v space endsSpace (input.drop 3)
    { read with read := read.read+3 }
  else readBytes d v space endsSpace input

theorem readRecord_plain (h : v.Plain input ∨ input.length ≤ 1) :
    readRecord d v space endsSpace input = readBytes d v space endsSpace input := by
  refine if_neg ?_
  rintro ⟨hstarted,hmark⟩
  rcases h with (h | h) | h
  · rw [hstarted] at h
    cases h
  · cases input with
    | nil => cases hmark
    | cons b input =>
      simp only [byteOrderMark,List.isPrefixOf,Bool.and_eq_true,beq_iff_eq] at hmark
      exact h (by rw [List.head?_cons,← hmark.1])
  · have := (List.isPrefixOf_iff_prefix.mp hmark).length_le
    simp only [byteOrderMark,List.length_cons,List.length_nil] at this
    omega

theorem readBytes_progress (hspace : 0 < space) (hends : 0 < endsSpace) (hne : input ≠ []) :
    0 < (readBytes d v space endsSpace input).read := by
  cases input with
  | nil => exact absurd rfl hne
  | cons b input =>
    rw [readBytes,if_neg (by omega)]
    dsimp only
    split_ifs
    · exact Nat.one_pos
    · exact Nat.add_pos_left Nat.one_pos _

theorem readRecord_nil (v : View) (space endsSpace : ℕ) : readRecord d v space endsSpace [] = readEnd v := by
  rw [readRecord_plain (.inr (by simp)),readBytes]

theorem readRecord_byte (hspace : 0 < space) (hends : 0 < endsSpace) :
    readRecord d v space endsSpace [b] = readByte d v b := by
  rw [readRecord_plain (.inr (by simp)),readBytes,if_neg (by omega)]
  exact if_pos (.inr rfl)

/-- The automaton of the phases. -/
def automaton : Crate View where
  new := ⟨.between,0,false⟩
  readRecord := readRecord
  progress hspace hends hne := by
    unfold readRecord
    split
    · exact Nat.succ_pos _
    · exact readBytes_progress hspace hends hne
  ends _ := by
    rw [readRecord_nil,readEnd]
    split
    · exact .inr rfl
    · exact .inl rfl

/-- It is a reader as the laws ask for. -/
def automatonLaws : automaton.Laws where
  view := id
  new := rfl
  nil _ := readRecord_nil _ _ _
  byte hspace hends := readRecord_byte hspace hends
  record {d r space endsSpace b input} hspace hends hplain hresult := by
    change (readRecord d r space endsSpace [b]).result = _ at hresult
    change readRecord d r space endsSpace (b::input) = readRecord d r space endsSpace [b]
    rw [readRecord_byte hspace hends] at hresult ⊢
    rw [readRecord_plain (v := r) (.inl hplain),readBytes,if_neg (by omega)]
    exact if_pos (.inl hresult)
  cons {d r space endsSpace b input} hspace hends hplain hne hresult := by
    change (readRecord d r space endsSpace [b]).result = _ at hresult
    dsimp only [automaton]
    rw [readRecord_byte hspace hends] at hresult ⊢
    rw [readRecord_plain (v := r) (.inl hplain),readRecord_plain (.inl (.inl rfl)),readBytes,if_neg (by omega)]
    dsimp only
    rw [if_neg (not_or.mpr ⟨by rw [hresult]; nofun,hne⟩)]
    rfl
  full {d r space endsSpace input} hfull hstarted _ hne := by
    dsimp only [automaton]
    obtain ⟨b,input,rfl⟩ := List.exists_cons_of_ne_nil hne
    rw [readRecord_plain (v := r) (.inl (.inl hstarted)),readBytes,if_pos hfull]
    rfl

end Whim.CsvCore
