import Whim.Csv

/-!
# What a text of comma-separated values means

The records of a text, read byte by byte. The record reader and the validator agree with them wherever a call does not
start at an empty line inside a record.
-/

namespace Whim.Csv

open CsvCore List

inductive Mode
  | start | afterReturn | fieldStart | unquoted | quoted | closing
  deriving DecidableEq

def Mode.inRecord : Mode → Bool
  | .start => false
  | .afterReturn => false
  | _ => true

def Mode.strict : Mode → StrictState
  | .start => .fieldStart
  | .afterReturn => .carriageReturn
  | .fieldStart => .fieldStart
  | .unquoted => .unquoted
  | .quoted => .quoted
  | .closing => .closingEnclosure

structure Progress where
  mode : Mode
  output : Bytes
  ends : List ℕ

namespace Progress

def new : Progress := ⟨.start,[],[]⟩

def record (p : Progress) : RawRecord := (p.output,p.ends++[p.output.length])

end Progress

variable (d : Dialect)

/-- A byte of a field without enclosure, or its end. -/
def feedField (p : Progress) (b : UInt8) : Progress × Option RawRecord :=
  if b = d.delimiter then (⟨.fieldStart,p.output,p.ends++[p.output.length]⟩,none)
  else if b = CsvCore.carriageReturn then (⟨.afterReturn,[],[]⟩,some p.record)
  else if b = lineFeed then (⟨.start,[],[]⟩,some p.record)
  else (⟨.unquoted,p.output++[b],p.ends⟩,none)

def feedStart (p : Progress) (b : UInt8) : Progress × Option RawRecord :=
  if b = d.quote then (⟨.quoted,p.output,p.ends⟩,none) else feedField d p b

def feed (p : Progress) (b : UInt8) : Except Code (Progress × Option RawRecord) :=
  match p.mode with
  | .start => .ok (feedStart d p b)
  | .afterReturn => .ok (if b = lineFeed then (⟨.start,[],[]⟩,none) else feedStart d p b)
  | .fieldStart => .ok (feedStart d p b)
  | .unquoted => if b = d.quote then .error .invalidOpeningEnclosure else .ok (feedField d p b)
  | .quoted => .ok (if b = d.quote then ⟨.closing,p.output,p.ends⟩ else ⟨.quoted,p.output++[b],p.ends⟩,none)
  | .closing =>
    if b = d.quote then .ok (⟨.quoted,p.output++[b],p.ends⟩,none)
    else if b = d.delimiter || isNewline b then .ok (feedField d p b)
    else .error .invalidClosingEnclosure

/-- The records of a text, and the point it ends at or the error it stops at. -/
structure Run where
  records : List RawRecord
  result : Except Code Progress

def Run.cons (record : RawRecord) (run : Run) : Run := { run with records := record::run.records }

def run (p : Progress) : Bytes → Run
  | [] => ⟨[],.ok p⟩
  | b::rest =>
    match feed d p b with
    | .error code => ⟨[],.error code⟩
    | .ok (p,none) => run p rest
    | .ok (p,some record) => (run p rest).cons record

/-- At the end of the text, what there is of a record is a record. -/
def Run.yield (run : Run) : Yield :=
  match run.result with
  | .error code => ⟨run.records,some code⟩
  | .ok p =>
    if p.mode = .quoted then ⟨run.records,some .unterminatedQuotedField⟩
    else if p.mode.inRecord then ⟨run.records++[p.record],none⟩
    else ⟨run.records,none⟩

/-! ## The reader in line with the meaning -/

def Mode.phase : Mode → Phase
  | .start => .between
  | .afterReturn => .between
  | .fieldStart => .fieldStart
  | .unquoted => .unquoted
  | .quoted => .quoted
  | .closing => .closing

/-- The record reader at a point of a text. -/
structure Sync (v : View) (p : Progress) : Prop where
  phase : v.phase = p.mode.phase
  position : v.position = p.output.length
  between : p.mode.inRecord = false → p.output = [] ∧ p.ends = []
  delimited : p.mode = .fieldStart → p.ends ≠ []

/-- The input does not start with an empty line that the record reader would skip. -/
def NoBlank (p : Progress) : Bytes → Prop
  | [] => True
  | b::rest => p.mode.inRecord = true ∨ isNewline b = false ∨
      (p.mode = .afterReturn ∧ b = lineFeed ∧ ∀ c ∈ rest.head?, isNewline c = false)

/-- What one byte does to the meaning and to the record reader. -/
structure Steps (p : Progress) (result : Progress × Option RawRecord) (b : UInt8) (x : Effect) : Prop where
  phase : result.1.mode.phase = x.phase
  between : result.1.mode.inRecord = false → result.1.output = [] ∧ result.1.ends = []
  delimited : result.1.mode = .fieldStart → result.1.ends ≠ []
  goes : x.endsRecord = false → result.2 = none ∧ result.1.output = p.output++(if x.copied then [b] else []) ∧
    result.1.ends = p.ends++(if x.endsField then [p.output.length+x.copied.toNat] else [])
  ends : x.endsRecord = true → x.copied = false ∧ x.endsField = true ∧ result.2 = some p.record ∧
    result.1.mode.inRecord = false

variable {d} {p : Progress} {v : View} {b : UInt8} {i : Bytes}

/-- The five kinds of bytes. -/
inductive Kind (d : Dialect) (b : UInt8) : Prop
  | quote (hq : b = d.quote) (hd : b ≠ d.delimiter) (hr : b ≠ CsvCore.carriageReturn) (hf : b ≠ lineFeed)
  | delimiter (hq : b ≠ d.quote) (hd : b = d.delimiter) (hr : b ≠ CsvCore.carriageReturn) (hf : b ≠ lineFeed)
  | carriageReturn (hq : b ≠ d.quote) (hd : b ≠ d.delimiter) (hr : b = CsvCore.carriageReturn) (hf : b ≠ lineFeed)
  | lineFeed (hq : b ≠ d.quote) (hd : b ≠ d.delimiter) (hr : b ≠ CsvCore.carriageReturn) (hf : b = lineFeed)
  | other (hq : b ≠ d.quote) (hd : b ≠ d.delimiter) (hr : b ≠ CsvCore.carriageReturn) (hf : b ≠ lineFeed)

theorem kind (d : Dialect) (b : UInt8) : Kind d b := by
  have hquote := d.quote_newline
  have hdelimiter := d.delimiter_newline
  simp only [isNewline,Bool.or_eq_false_iff,decide_eq_false_iff_not] at hquote hdelimiter
  by_cases hq : b = d.quote
  · exact .quote hq (hq ▸ d.distinct.symm) (hq ▸ hquote.1) (hq ▸ hquote.2)
  by_cases hd : b = d.delimiter
  · exact .delimiter hq hd (hd ▸ hdelimiter.1) (hd ▸ hdelimiter.2)
  by_cases hr : b = CsvCore.carriageReturn
  · exact .carriageReturn hq hd hr (hr ▸ by decide)
  by_cases hf : b = CsvCore.lineFeed
  · exact .lineFeed hq hd hr hf
  · exact .other hq hd hr hf

/-- A byte inside a field. -/
theorem steps_inside {mode : Mode} {phase : Phase} {output : Bytes} {copied : Bool} (hphase : mode.phase = phase)
    (hin : mode.inRecord = true) (hmode : mode ≠ .fieldStart)
    (houtput : output = p.output++(if copied then [b] else [])) :
    Steps p (⟨mode,output,p.ends⟩,none) b ⟨phase,copied,false,false⟩ where
  phase := hphase
  between hbetween := by
    rw [hin] at hbetween
    cases hbetween
  delimited h := absurd h hmode
  goes _ := ⟨rfl,houtput,(append_nil p.ends).symm⟩
  ends h := by cases h

theorem fieldEffect_steps : Steps p (feedField d p b) b (fieldEffect d b) := by
  unfold feedField fieldEffect isNewline
  by_cases hdelimiter : b = d.delimiter
  · simp only [if_pos hdelimiter]
    exact ⟨rfl,nofun,fun _ => by simp,fun _ => ⟨rfl,by simp,rfl⟩,nofun⟩
  by_cases hreturn : b = CsvCore.carriageReturn
  · subst hreturn
    simp only [if_neg hdelimiter,decide_true,Bool.true_or,if_true]
    exact ⟨rfl,fun _ => ⟨rfl,rfl⟩,nofun,nofun,fun _ => ⟨rfl,rfl,rfl,rfl⟩⟩
  by_cases hf : b = lineFeed
  · subst hf
    simp only [if_neg hdelimiter,if_neg hreturn,decide_true,Bool.or_true,if_true]
    exact ⟨rfl,fun _ => ⟨rfl,rfl⟩,nofun,nofun,fun _ => ⟨rfl,rfl,rfl,rfl⟩⟩
  · simp only [if_neg hdelimiter,hreturn,hf,decide_false,Bool.or_self,Bool.false_eq_true,if_false]
    exact steps_inside rfl rfl (by decide) rfl

theorem startEffect_steps : Steps p (feedStart d p b) b (startEffect d b) := by
  unfold feedStart startEffect
  by_cases hquote : b = d.quote
  · simp only [if_pos hquote]
    exact steps_inside rfl rfl (by decide) (append_nil p.output).symm
  · simp only [if_neg hquote]
    exact fieldEffect_steps

theorem feedField_strict (h : b ≠ d.quote) : (feedField d p b).1.mode.strict = validateStart d b := by
  unfold feedField validateStart
  rcases kind d b with ⟨hq,hd,hr,hf⟩ | ⟨hq,hd,hr,hf⟩ | ⟨hq,hd,hr,hf⟩ | ⟨hq,hd,hr,hf⟩ | ⟨hq,hd,hr,hf⟩
  · exact absurd hq h
  · simp only [if_neg hq,if_pos hd,if_neg hr,if_neg hf,Mode.strict]
  · simp only [if_neg hq,if_neg hd,if_pos hr,Mode.strict]
  · simp only [if_neg hq,if_neg hd,if_neg hr,if_pos hf,Mode.strict]
  · simp only [if_neg hq,if_neg hd,if_neg hr,if_neg hf,Mode.strict]

theorem validateStart_feedStart (p : Progress) (b : UInt8) : (feedStart d p b).1.mode.strict = validateStart d b := by
  unfold feedStart
  split
  next hq => rw [validateStart,if_pos hq,Mode.strict]
  next hq => exact feedField_strict hq

/-- The validator follows the meaning. -/
theorem validate_feed (d : Dialect) (p : Progress) (b : UInt8) :
    validateByte d p.mode.strict b = (feed d p b).map fun r => r.1.mode.strict := by
  cases hm : p.mode with
  | start =>
    rw [feed,hm,Except.map,validateStart_feedStart]
    rfl
  | afterReturn =>
    rw [feed,hm,Except.map]
    by_cases hfeed : b = lineFeed
    · rw [if_pos hfeed]
      exact if_pos hfeed
    · rw [if_neg hfeed,validateStart_feedStart]
      exact if_neg hfeed
  | fieldStart =>
    rw [feed,hm,Except.map,validateStart_feedStart]
    rfl
  | unquoted =>
    rw [feed,hm,Mode.strict,validateByte]
    by_cases hq : b = d.quote
    · rw [if_pos hq,if_pos hq]
      rfl
    · rw [if_neg hq,if_neg hq,Except.map,feedField_strict hq,validateStart,if_neg hq]
      simp only [apply_ite Except.ok]
  | quoted =>
    rw [feed,hm,Mode.strict,validateByte]
    dsimp only
    by_cases hq : b = d.quote
    · rw [if_pos hq,if_pos hq]
      rfl
    · rw [if_neg hq,if_neg hq]
      rfl
  | closing =>
    rw [feed,hm,Mode.strict,validateByte]
    dsimp only
    rcases kind d b with ⟨hq,hd,hr,hf⟩ | ⟨hq,hd,hr,hf⟩ | ⟨hq,hd,hr,hf⟩ | ⟨hq,hd,hr,hf⟩ | ⟨hq,hd,hr,hf⟩
    · rw [if_pos hq,if_pos hq]
      rfl
    · rw [if_neg hq,if_pos hd,if_neg hq,if_pos (by simp [hd]),Except.map,feedField_strict hq,validateStart,if_neg hq,
        if_neg hr,if_neg hf,if_pos hd]
    · rw [if_neg hq,if_neg hd,if_pos hr,if_neg hq,if_pos (by simp [isNewline,hr]),Except.map,feedField_strict hq,
        validateStart,if_neg hq,if_pos hr]
    · rw [if_neg hq,if_neg hd,if_neg hr,if_pos hf,if_neg hq,if_pos (by simp [isNewline,hf]),Except.map,
        feedField_strict hq,validateStart,if_neg hq,if_neg hr,if_pos hf]
    · rw [if_neg hq,if_neg hd,if_neg hr,if_neg hf,if_neg hq,if_neg (by simp [isNewline,hd,hr,hf])]
      rfl

/-- Between records, only the line feed behind a carriage return is a line end. -/
theorem NoBlank.not_newline {rest : Bytes} (h : NoBlank p (b::rest)) (hbetween : p.mode.inRecord = false)
    (hreturn : p.mode = .afterReturn → b ≠ lineFeed) : isNewline b = false := by
  rcases h with hin | hnewline | ⟨hmode,hfeed,-⟩
  · rw [hbetween] at hin
    cases hin
  · exact hnewline
  · exact absurd hfeed (hreturn hmode)

/-- The first byte of a record. -/
theorem between_steps (hnewline : isNewline b = false) : Steps p (feedStart d p b) b (effect d .between b) := by
  rw [effect,if_neg (by rw [hnewline]; decide)]
  exact startEffect_steps

/-- The second byte of a line end. -/
theorem lineFeed_steps (houtput : p.output = []) (hends : p.ends = []) :
    Steps p (⟨.start,[],[]⟩,none) lineFeed (effect d .between lineFeed) where
  phase := rfl
  between _ := ⟨rfl,rfl⟩
  delimited h := by cases h
  goes _ := by
    rw [houtput,hends]
    exact ⟨rfl,rfl,rfl⟩
  ends h := by cases h

/-- A byte that does not start an empty line is read in step. -/
theorem feed_steps (h : Sync v p) {rest : Bytes} (hblank : NoBlank p (b::rest))
    {r : Progress × Option RawRecord} (hf : feed d p b = .ok r) : Steps p r b (effect d v.phase b) := by
  unfold feed at hf
  rw [h.phase]
  cases hm : p.mode with
  | start =>
    have hnewline := hblank.not_newline (by rw [hm]; rfl) fun hreturn => by
      rw [hm] at hreturn
      cases hreturn
    rw [hm] at hf
    cases hf
    exact between_steps hnewline
  | afterReturn =>
    rw [hm] at hf
    cases hf
    by_cases hfeed : b = lineFeed
    · obtain ⟨houtput,hends⟩ := h.between (by rw [hm]; rfl)
      rw [if_pos hfeed,hfeed]
      exact lineFeed_steps houtput hends
    · rw [if_neg hfeed]
      exact between_steps (hblank.not_newline (by rw [hm]; rfl) fun _ => hfeed)
  | fieldStart =>
    rw [hm] at hf
    cases hf
    exact startEffect_steps
  | unquoted =>
    rw [hm] at hf
    dsimp only at hf
    split at hf
    · cases hf
    cases hf
    exact fieldEffect_steps
  | quoted =>
    rw [hm] at hf
    cases hf
    rw [Mode.phase,effect]
    by_cases hquote : b = d.quote
    · rw [if_pos hquote,if_pos hquote]
      exact steps_inside rfl rfl (by decide) (append_nil p.output).symm
    · rw [if_neg hquote,if_neg hquote]
      exact steps_inside rfl rfl (by decide) rfl
  | closing =>
    rw [hm] at hf
    dsimp only at hf
    rw [Mode.phase,effect]
    split at hf
    next hquote =>
      cases hf
      rw [if_pos hquote]
      exact steps_inside rfl rfl (by decide) rfl
    next hquote =>
      split at hf <;> cases hf
      rw [if_neg hquote]
      exact fieldEffect_steps

/-- The record reader stays at the point of the text. -/
theorem Steps.sync {r : Progress × Option RawRecord} (h : Steps p r b (effect d v.phase b)) (hs : Sync v p) :
    Sync (readByte d v b).reader r.1 where
  phase := h.phase.symm
  position := by
    rw [readByte]
    dsimp only
    split
    next hrecord => rw [(h.between (h.ends hrecord).2.2.2).1,length_nil]
    next hgoes =>
      rw [hs.position,(h.goes (Bool.not_eq_true _ ▸ hgoes)).2.1,length_append]
      cases (effect d v.phase b).copied <;> rfl
  between := h.between
  delimited := h.delimited

end Whim.Csv
