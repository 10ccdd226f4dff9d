import Whim.CsvReading

/-!
# Empty lines

A call that starts at a line end right behind a delimiter gives an empty record, as at an empty line, and so loses the
record that ends there.
-/

namespace Whim.Csv

open CsvCore List Bool

variable {d : Dialect} {p : Progress} {v : View} {b : UInt8} {i : Bytes}

/-! ## Empty lines -/

abbrev AtLine (p : Progress) : Prop := p = ⟨.start,[],[]⟩ ∨ p = ⟨.afterReturn,[],[]⟩

theorem between_eq (h : Sync v p) (hbetween : p.mode.inRecord = false) : AtLine p := by
  obtain ⟨houtput,hends⟩ := h.between hbetween
  obtain ⟨mode,output,ends⟩ := p
  subst houtput hends
  cases mode with
  | start => exact .inl rfl
  | afterReturn => exact .inr rfl
  | _ => cases hbetween

theorem newline_cases (h : isNewline b) : b = CsvCore.carriageReturn ∨ b = lineFeed := by
  simpa [isNewline] using h

theorem newline_of_kind (h : isNewline b) : b ≠ d.quote ∧ b ≠ d.delimiter := by
  constructor <;> rintro rfl
  · rw [d.quote_newline] at h
    cases h
  · rw [d.delimiter_newline] at h
    cases h

/-- A line end at the start of a line, or behind a field, ends a record. -/
theorem feedStart_newline (h : isNewline b) : feedStart d p b =
    (⟨if b = CsvCore.carriageReturn then .afterReturn else .start,[],[]⟩,some p.record) := by
  obtain ⟨hquote,hdelimiter⟩ := newline_of_kind (d := d) h
  rw [feedStart,if_neg hquote,feedField,if_neg hdelimiter]
  rcases newline_cases h with rfl | rfl
  · rfl
  · rfl

theorem readByte_newline {pos : ℕ} {started : Bool} (h : isNewline b) :
    readByte d ⟨.between,pos,started⟩ b = ⟨.inputEmpty,⟨.between,pos,true⟩,1,[],[]⟩ := by
  have heffect : effect d .between b = ⟨.between,false,false,false⟩ := if_pos h
  rw [readByte,heffect]
  rfl

/-- The record reader skips line ends between records. -/
theorem readBytes_newlines {space room : ℕ} (pos : ℕ) (started : Bool) (hspace : 0 < space) (hroom : 0 < room)
    (hne : i ≠ [])
    (h : ∀ c ∈ i, isNewline c) :
    readBytes d ⟨.between,pos,started⟩ space room i = ⟨.inputEmpty,⟨.between,pos,true⟩,i.length,[],[]⟩ := by
  induction i generalizing started with
  | nil => exact absurd rfl hne
  | cons b i ih =>
    rw [readBytes,if_neg (by omega),readByte_newline (h b mem_cons_self)]
    dsimp only
    cases i with
    | nil => exact if_pos (.inr rfl)
    | cons c i =>
      have hrest := ih true (cons_ne_nil c i) fun e he => h e (mem_cons_of_mem b he)
      rw [if_neg (by simp),length_nil,length_nil,Nat.sub_zero,Nat.sub_zero,hrest,ReadRecord.behind]
      simp only [length_cons,nil_append,Nat.add_comm]

/-- Lines that are read as one empty record, and the point behind them. -/
structure Blank (d : Dialect) (p : Progress) (lines : Bytes) (p' : Progress) : Prop where
  ne_nil : lines ≠ []
  newlines : ∀ c ∈ lines, isNewline c = true
  between : p' = ⟨.start,[],[]⟩ ∨ p' = ⟨.afterReturn,[],[]⟩
  strict : validate d p.mode.strict lines = .ok p'.mode.strict
  runs : ∀ more, run d p (lines++more) = (run d p' more).cons ([],[0])

theorem blank_single (hp : AtLine p) (h : isNewline b) (hf : p.mode = .afterReturn → b ≠ lineFeed) :
    Blank d p [b] ⟨if b = CsvCore.carriageReturn then .afterReturn else .start,[],[]⟩ := by
  have hfed : feed d p b =
      .ok (⟨if b = CsvCore.carriageReturn then .afterReturn else .start,[],[]⟩,some ([],[0])) := by
    rcases hp with rfl | rfl
    · rw [feed,feedStart_newline h]
      rfl
    · rw [feed,if_neg (hf rfl),feedStart_newline h]
      rfl
  refine ⟨by simp,by simpa using h,?_,?_,fun more => run_record hfed more⟩
  · by_cases hreturn : b = CsvCore.carriageReturn
    · rw [if_pos hreturn]
      exact .inr rfl
    · rw [if_neg hreturn]
      exact .inl rfl
  · rw [validate_cons,validate_feed,hfed]
    rfl

/-- A line feed behind a carriage return belongs to the same line end. -/
theorem run_lineFeed (more : Bytes) : run d ⟨.afterReturn,[],[]⟩ (lineFeed::more) = run d ⟨.start,[],[]⟩ more := by
  refine run_next ?_ more
  rw [feed]
  exact congrArg Except.ok (if_pos rfl)

theorem validate_lineFeed (ls : Bytes) : validate d .carriageReturn (lineFeed::ls) = validate d .fieldStart ls := by
  rw [validate_cons,validateByte,if_pos rfl]
  rfl

theorem blank_double (hp : AtLine p) : Blank d p [CsvCore.carriageReturn,lineFeed] ⟨.start,[],[]⟩ := by
  have hsingle : Blank d p [CsvCore.carriageReturn] ⟨.afterReturn,[],[]⟩ := blank_single hp rfl fun _ => by decide
  refine ⟨by simp,by decide +kernel,.inl rfl,?_,fun more => ?_⟩
  · have hstrict := hsingle.strict
    rw [validate_cons] at hstrict ⊢
    obtain ⟨middle,hb,hr⟩ := Validation.bind_eq_ok.mp hstrict
    cases hr
    rw [hb]
    exact validate_lineFeed (d := d) []
  · have hrun := hsingle.runs (lineFeed::more)
    rw [run_lineFeed] at hrun
    exact hrun

variable {p' : Progress}

theorem blank_after {ls : Bytes} (h : Blank d ⟨.start,[],[]⟩ ls p') :
    Blank d ⟨.afterReturn,[],[]⟩ (lineFeed::ls) p' := by
  refine ⟨by simp,fun c hc => ?_,h.between,?_,fun more => ?_⟩
  · rcases mem_cons.mp hc with rfl | hc
    · rfl
    · exact h.newlines c hc
  · exact (validate_lineFeed ls).trans h.strict
  · exact (run_lineFeed (ls++more)).trans (h.runs more)

/-- The start of the input that counts as an empty line. -/
def leadingLine : Bytes → Option ℕ
  | [] => none
  | b::rest =>
    if b = CsvCore.carriageReturn && rest.head? = some lineFeed then some 2
    else if isNewline b then some 1
    else none

theorem leadingLine_none (h : leadingLine i = none) : ∀ c ∈ i.head?, isNewline c = false := by
  intro c hc
  cases i with
  | nil => cases hc
  | cons =>
    cases hc
    rw [leadingLine] at h
    split at h
    · cases h
    split at h
    · cases h
    next hnewline => exact eq_false_iff.mpr hnewline

variable {k : ℕ}

theorem leadingLine_some (h : leadingLine i = some k)
    (hp : p = ⟨.start,[],[]⟩ ∨ (p = ⟨.afterReturn,[],[]⟩ ∧ i.head? ≠ some lineFeed)) :
    ∃ ls rest p', i = ls++rest ∧ ls.length = k ∧ Blank d p ls p' := by
  have hpoint : AtLine p := hp.imp_right And.left
  cases i with
  | nil => cases h
  | cons b rest =>
    rw [leadingLine] at h
    split at h
    next hdouble =>
      cases h
      rw [and_eq_true,decide_eq_true_eq,decide_eq_true_eq] at hdouble
      cases rest with
      | nil => cases hdouble.2
      | cons c rest =>
        obtain ⟨rfl,hc⟩ := hdouble
        cases hc
        exact ⟨[CsvCore.carriageReturn,lineFeed],rest,_,rfl,rfl,blank_double hpoint⟩
    next =>
      split at h
      next hnewline =>
        cases h
        refine ⟨[b],rest,_,rfl,rfl,blank_single hpoint hnewline fun hm => ?_⟩
        rcases hp with rfl | ⟨_,hhead⟩
        · cases hm
        · exact fun heq => hhead (by rw [heq]; rfl)
      next => cases h

variable {R : Type} {crate : Crate R} {laws : crate.Laws} {s : ReaderState R}

theorem blankRecordLength_plain {st : StrictState} (hstrict : s.strict = st)
    (h : st = .fieldStart ∨ (st = .carriageReturn ∧ i.head? ≠ some lineFeed)) :
    blankRecordLength s i = leadingLine i := by
  have hstart : (st = .carriageReturn && i.head? = some lineFeed) = false := by
    rcases h with rfl | ⟨rfl,hhead⟩
    · rfl
    · simpa using hhead
  have hopen : (st ≠ .fieldStart && st ≠ .carriageReturn) = false := by
    rcases h with rfl | ⟨rfl,_⟩ <;> rfl
  cases i with
  | nil => rfl
  | cons =>
    unfold blankRecordLength
    rw [hstrict,hopen,hstart]
    dsimp only [isEmpty_cons,Bool.or_false,Bool.toNat_false]
    rw [if_neg (by decide),leadingLine]
    simp only [getElem?_cons_zero,Nat.zero_add,getElem?_cons_succ,head?_eq_getElem?]

theorem blankRecordLength_lineFeed (hstrict : s.strict = .carriageReturn) (rest : Bytes) :
    blankRecordLength s (lineFeed::rest) = (leadingLine rest).map (1 + ·) := by
  unfold blankRecordLength
  rw [hstrict]
  dsimp only [isEmpty_cons,head?_cons]
  rw [if_neg (by decide)]
  simp only [decide_true,Bool.and_self,Bool.toNat_true]
  cases rest with
  | nil => rfl
  | cons =>
    rw [leadingLine]
    simp only [getElem?_cons_zero,getElem?_cons_succ,head?_eq_getElem?]
    split
    · rfl
    split
    · rfl
    · rfl

/-- The start of a line, where the check for an empty line is right. -/
theorem blank_lines (h : Matches laws s p) (hbetween : p.mode.inRecord = false) (hk : blankRecordLength s i = some k) :
    ∃ ls rest p', i = ls++rest ∧ ls.length = k ∧ Blank d p ls p' := by
  have hstrict := h.strict
  rcases between_eq h.sync hbetween with hp | hp <;> rw [hp] at hstrict
  · rw [blankRecordLength_plain hstrict (.inl rfl)] at hk
    exact leadingLine_some hk (.inl hp)
  by_cases hhead : i.head? = some lineFeed
  · obtain ⟨rest,rfl⟩ := head?_eq_some_iff.mp hhead
    rw [blankRecordLength_lineFeed hstrict] at hk
    obtain ⟨k,hleading,rfl⟩ := Option.map_eq_some_iff.mp hk
    obtain ⟨ls,rest,p',rfl,rfl,hblank⟩ := leadingLine_some (d := d) hleading (.inl rfl)
    rw [hp]
    exact ⟨lineFeed::ls,rest,p',rfl,Nat.add_comm _ 1,blank_after hblank⟩
  · rw [blankRecordLength_plain hstrict (.inr ⟨rfl,hhead⟩)] at hk
    exact leadingLine_some hk (.inr ⟨hp,hhead⟩)

theorem noBlank_of_none (h : Matches laws s p) (hn : blankRecordLength s i = none) : NoBlank p i := by
  cases hin : p.mode.inRecord with
  | true => exact noBlank_of_inRecord hin
  | false =>
    have hplain : leadingLine i = none → NoBlank p i := by
      intro hleading
      cases i with
      | nil => trivial
      | cons b => exact .inr (.inl (leadingLine_none hleading b rfl))
    have hstrict := h.strict
    rcases between_eq h.sync hin with hp | hp <;> rw [hp] at hstrict
    · rw [blankRecordLength_plain hstrict (.inl rfl)] at hn
      exact hplain hn
    by_cases hhead : i.head? = some lineFeed
    · obtain ⟨rest,rfl⟩ := head?_eq_some_iff.mp hhead
      rw [blankRecordLength_lineFeed hstrict] at hn
      exact .inr (.inr ⟨congrArg Progress.mode hp,rfl,leadingLine_none (Option.map_eq_none_iff.mp hn)⟩)
    · rw [blankRecordLength_plain hstrict (.inr ⟨rfl,hhead⟩)] at hn
      exact hplain hn

/-! ## A call -/

/-- A line end is no byte order mark. -/
theorem readRecord_newline (laws : crate.Laws) (r : R) (hnewline : isNewline b) (rest : Bytes) :
    (crate.readRecord d r 2 2 (b::rest)).map laws.view = readBytes d (laws.view r) 2 2 (b::rest) := by
  refine laws.readRecord_eq (cons_ne_nil b rest) (.inr fun hmark => ?_) (.inl ⟨Nat.two_pos,Nat.two_pos⟩)
  rw [Option.some.inj hmark] at hnewline
  cases hnewline

/-- The record reader takes in the lines of an empty record without an output. -/
theorem readRecord_blank (h : Matches laws s p) (hbetween : p.mode.inRecord = false) {ls : Bytes}
    (hblank : Blank d p ls p') :
    (crate.readRecord d s.reader 2 2 ls).map laws.view = ⟨.inputEmpty,⟨.between,0,true⟩,ls.length,[],[]⟩ := by
  have hphase : (laws.view s.reader).phase = .between := by
    rw [h.sync.phase]
    rcases between_eq h.sync hbetween with rfl | rfl <;> rfl
  have hpos : (laws.view s.reader).position = 0 := by rw [h.sync.position,(h.sync.between hbetween).1]; rfl
  have hlines := readBytes_newlines (d := d) 0 (laws.view s.reader).started Nat.two_pos Nat.two_pos
    hblank.ne_nil hblank.newlines
  have hview : laws.view s.reader = ⟨.between,0,(laws.view s.reader).started⟩ := by rw [← hphase,← hpos]
  rw [← hview] at hlines
  cases ls with
  | nil => exact absurd rfl hblank.ne_nil
  | cons b rest => exact (readRecord_newline laws s.reader (hblank.newlines b mem_cons_self) rest).trans hlines

theorem read_blank (h : Matches laws s p) (hbetween : p.mode.inRecord = false)
    (hk : blankRecordLength s i = some k) : Answers laws d p 0 i (read crate d s i) := by
  obtain ⟨ls,rest,p',rfl,rfl,hblank⟩ := blank_lines (d := d) h hbetween hk
  have hne : ¬((ls++rest).isEmpty && s.strict = .quoted) = true := by simp [hblank.ne_nil]
  have hread := readRecord_blank h hbetween hblank
  rw [read,if_neg hne,hk]
  dsimp only
  rw [take_left]
  generalize crate.readRecord d s.reader 2 2 ls = r at hread
  obtain ⟨result,reader,count,written,ends⟩ := r
  obtain ⟨rfl,hreader,rfl,rfl,rfl⟩ := ReadRecord.mk.inj hread
  dsimp only
  rw [take_left,h.strict,hblank.strict,← Nat.zero_add ls.length]
  have hp : p.output = [] ∧ p.ends = [] := h.sync.between hbetween
  have hmatches : Matches laws (absorb s p'.mode.strict ⟨.inputEmpty,reader,0+ls.length,[],[]⟩) p' := by
    refine ⟨rfl,?_,?_,?_,?_⟩
    · show s.output++[] = p'.output
      rw [h.output,hp.1]
      rcases hblank.between with rfl | rfl <;> rfl
    · show s.ends++[] = p'.ends
      rw [h.ends,hp.2]
      rcases hblank.between with rfl | rfl <;> rfl
    · show Sync (laws.view reader) p'
      rw [hreader]
      rcases hblank.between with rfl | rfl <;> exact ⟨rfl,rfl,fun _ => ⟨rfl,rfl⟩,nofun⟩
    · show false = !(laws.view reader).started
      rw [hreader]
      rfl
  refine .record hmatches ?_ (length_pos_iff.mpr hblank.ne_nil) fun more => ?_
  · rcases hblank.between with rfl | rfl <;> rfl
  · rw [drop_left,append_assoc]
    exact hblank.runs (rest++more)

/-- A part of a text that starts with a line end right behind a delimiter. -/
def Severs (p : Progress) (input : Bytes) : Prop := p.mode = .fieldStart ∧ ∃ b ∈ input.head?, isNewline b = true

theorem leadingLine_newline (h : leadingLine i = some k) : ∃ b ∈ i.head?, isNewline b := by
  cases i with
  | nil => cases h
  | cons b =>
    refine ⟨b,rfl,?_⟩
    rw [leadingLine] at h
    split at h
    next hdouble =>
      rw [and_eq_true,decide_eq_true_eq] at hdouble
      rw [hdouble.1]
      rfl
    next =>
      split at h
      · assumption
      · cases h

theorem severs_of_blank (h : Matches laws s p) (hk : blankRecordLength s i = some k)
    (hin : p.mode.inRecord) : Severs p i := by
  have hm : p.mode = .fieldStart := by
    have hstrict := h.strict
    unfold blankRecordLength at hk
    split at hk
    · cases hk
    next hopen =>
      rw [hstrict] at hopen
      cases hm : p.mode <;> rw [hm] at hopen hin
      · cases hin
      · cases hin
      all_goals simp [Mode.strict] at hopen
  refine ⟨hm,?_⟩
  have hstrict : s.strict = .fieldStart := by rw [h.strict,hm]; rfl
  rw [blankRecordLength_plain hstrict (.inl rfl)] at hk
  exact leadingLine_newline hk

/-- A call follows the meaning of the text where its input does not start with a line end behind a delimiter. -/
theorem read_answers (h : Matches laws s p) (hne : i ≠ []) (hsevers : ¬Severs p i) :
    Answers laws d p 0 i (read crate d s i) := by
  cases hk : blankRecordLength s i with
  | some =>
    refine read_blank h ?_ hk
    by_contra hin
    exact hsevers (severs_of_blank h hk (by simpa using hin))
  | none =>
    have hnil : ¬(i.isEmpty && s.strict = .quoted) = true := by simp [hne]
    rw [read,if_neg hnil,hk]
    exact readLoop_answers h (noBlank_of_none h hk) hne 0

theorem severs_cons (h : Severs p i) : ∃ b rest, i = b::rest ∧ isNewline b := by
  obtain ⟨_,b,hb,hnewline⟩ := h
  obtain ⟨rest,rfl⟩ := head?_eq_some_iff.mp hb
  exact ⟨b,rest,rfl,hnewline⟩

theorem startEffect_newline (h : isNewline b) : startEffect d b = ⟨.between,false,true,true⟩ := by
  obtain ⟨hquote,hdelimiter⟩ := newline_of_kind (d := d) h
  rw [startEffect,if_neg hquote,fieldEffect,if_neg hdelimiter]
  exact if_pos h

theorem leadingLine_cons (h : isNewline b) (rest : Bytes) : ∃ k, leadingLine (b::rest) = some (k+1) := by
  rw [leadingLine]
  split_ifs
  · exact ⟨1,rfl⟩
  · exact ⟨0,rfl⟩

/-- Such a call gives an empty record. -/
theorem read_severed (h : Matches laws s p) (hsevers : Severs p i) :
    ∃ t k, read crate d s i = .ok (t,k,some ([],[0])) := by
  obtain ⟨b,rest,rfl,hnewline⟩ := severs_cons hsevers
  have hstrict : s.strict = .fieldStart := by rw [h.strict,hsevers.1]; rfl
  have hphase : (laws.view s.reader).phase = .fieldStart := by rw [h.sync.phase,hsevers.1]; rfl
  obtain ⟨k,hk⟩ := leadingLine_cons hnewline rest
  rw [← blankRecordLength_plain hstrict (.inl rfl)] at hk
  have hread : (crate.readRecord d s.reader 2 2 (b::rest.take k)).read = 1 := by
    have hbytes := congrArg ReadRecord.read (readRecord_newline (d := d) laws s.reader hnewline (rest.take k))
    have hrecord : (readByte d (laws.view s.reader) b).result = .record := by
      rw [readByte_result,hphase,effect,startEffect_newline hnewline]
      rfl
    rw [readBytes,if_neg (by decide)] at hbytes
    exact hbytes.trans (congrArg ReadRecord.read (if_pos (.inl hrecord)))
  rw [read,if_neg (by simp),hk]
  dsimp only
  rw [take_succ_cons,hread,take_succ_cons,take_zero,hstrict]
  exact ⟨_,_,rfl⟩

/-- The record that ends there has more than one field. -/
theorem run_severed (hs : Sync v p) (hsevers : Severs p i)
    (more : Bytes) : ∃ rest : Run, run d p (i++more) = rest.cons p.record ∧ p.record ≠ ([],[0]) := by
  obtain ⟨b,rest,rfl,hnewline⟩ := severs_cons hsevers
  have hf : feed d p b = .ok (feedStart d p b) := by rw [feed,hsevers.1]
  rw [feedStart_newline hnewline] at hf
  refine ⟨_,run_record hf (rest++more),fun heq => ?_⟩
  have hends : p.ends++[p.output.length] = [0] := congrArg Prod.snd heq
  have hlen := congrArg List.length hends
  have hpos : 0 < p.ends.length := length_pos_iff.mpr (hs.delimited hsevers.1)
  simp only [length_append,length_singleton] at hlen
  omega

end Whim.Csv
