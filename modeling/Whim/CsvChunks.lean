import Whim.CsvBlank

/-!
# Reading from chunks

The records that come out of a list of chunks are those of the whole text, unless a chunk starts with a line end right
behind a delimiter.
-/

namespace Whim.Csv

open CsvCore List Option Validation

variable {d : Dialect} {p : Progress} {i : Bytes} {k : ℕ} {R : Type} {crate : Crate R} {laws : crate.Laws}
  {s t : ReaderState R} {v : View}

/-! ## The end of the text -/

theorem piece_nil : piece s [] = [] := by
  unfold piece
  split <;> rfl

theorem read_nil (h : s.strict ≠ .quoted) : read crate d s [] = readLoop crate d s 0 [] := by
  rw [read,if_neg (by simpa using h)]
  rfl

theorem read_unterminated (h : s.strict = .quoted) : read crate d s [] = .error .unterminatedQuotedField := by
  rw [read,if_pos (by simpa using h)]

theorem finishRecord_ok (h : s.strict ≠ .quoted) : finishRecord s =
    .ok { s with strict := if s.strict = .carriageReturn then .carriageReturn else .fieldStart } := by
  rw [finishRecord,if_neg h]
  by_cases hreturn : s.strict = .carriageReturn
  · rw [if_pos hreturn,if_pos hreturn,← hreturn]
  · rw [if_neg hreturn,if_neg hreturn]

theorem readRecord_nil_piece (laws : crate.Laws) (s : ReaderState R) :
    (crate.readRecord d s.reader outputSpace endsSpace (piece s [])).map laws.view = readEnd (laws.view s.reader) := by
  rw [piece_nil]
  exact laws.nil (by decide)

theorem readLoop_last (laws : crate.Laws) (h : s.strict ≠ .quoted) (hphase : (laws.view s.reader).phase ≠ .between) :
    ∃ reader, laws.view reader = ⟨.between,0,true⟩ ∧ readLoop crate d s 0 [] = .ok (⟨reader,[],[],
      if s.strict = .carriageReturn then .carriageReturn else .fieldStart,false⟩,0,
      some (s.output,s.ends++[(laws.view s.reader).position])) := by
  have hend := readRecord_nil_piece (d := d) laws s
  rw [readEnd,if_neg hphase] at hend
  generalize hread : crate.readRecord d s.reader outputSpace endsSpace (piece s []) = r at hend
  obtain ⟨result,reader,count,written,ends⟩ := r
  obtain ⟨rfl,hview,rfl,rfl,rfl⟩ := ReadRecord.mk.inj hend
  refine ⟨reader,hview,?_⟩
  rw [readLoop_record 0 hread (by rw [take_zero]; rfl) rfl]
  have hfinish := finishRecord_ok (s := absorb s s.strict ⟨.record,reader,0,[],[(laws.view s.reader).position]⟩) h
  rw [hfinish]
  simp only [absorb,takeRecord,append_nil]
  rfl

theorem readLoop_ended (laws : crate.Laws) (hphase : (laws.view s.reader).phase = .between) :
    ∃ t, readLoop crate d s 0 [] = .ok (t,0,none) := by
  have hend := readRecord_nil_piece (d := d) laws s
  rw [readEnd,if_pos hphase] at hend
  generalize hread : crate.readRecord d s.reader outputSpace endsSpace (piece s []) = r at hend
  have hresult : r.result = .finished := congrArg ReadRecord.result hend
  have hcount : r.read = 0 := congrArg ReadRecord.read hend
  refine ⟨absorb s s.strict r,?_⟩
  rw [readLoop_finished 0 hread (by rw [hcount,take_zero]; rfl) hresult,hcount]

theorem between_iff (h : Sync v p) : v.phase = .between ↔ p.mode.inRecord = false := by
  rw [h.phase]
  cases p.mode <;> simp [Mode.phase,Mode.inRecord]

theorem quoted_of_strict {mode : Mode} (h : mode.strict = .quoted) : mode = .quoted := by
  cases mode <;> first | rfl | cases h

theorem afterReturn_of_strict {mode : Mode} (h : mode.strict = .carriageReturn) : mode = .afterReturn := by
  cases mode <;> first | rfl | cases h

/-- The text ends: inside an enclosure, inside a record or between two. -/
inductive Finishes (laws : crate.Laws) (p : Progress) : Except Code (ReaderState R × ℕ × Option RawRecord) → Prop
  | unterminated (h : p.mode = .quoted) : Finishes laws p (.error .unterminatedQuotedField)
  | record {s : ReaderState R} (h : p.mode ≠ .quoted) (hin : p.mode.inRecord = true)
      (hmatches : Matches laws s ⟨.start,[],[]⟩) : Finishes laws p (.ok (s,0,some p.record))
  | ended {s : ReaderState R} (hin : p.mode.inRecord = false) : Finishes laws p (.ok (s,0,none))

theorem read_finishes (h : Matches laws s p) : Finishes laws p (read crate d s []) := by
  by_cases hquoted : s.strict = .quoted
  · rw [read_unterminated hquoted]
    exact .unterminated (quoted_of_strict (h.strict.symm.trans hquoted))
  rw [read_nil hquoted]
  have hin := between_iff h.sync
  cases hm : p.mode.inRecord with
  | true =>
    obtain ⟨reader,hview,hread⟩ := readLoop_last (d := d) laws hquoted (by simp [hin,hm])
    rw [hread,h.output,h.ends,h.sync.position]
    refine .record (fun heq => hquoted (by rw [h.strict,heq]; rfl)) hm ⟨?_,rfl,rfl,?_,?_⟩
    · rw [if_neg]
      · rfl
      rw [h.strict]
      intro hreturn
      rw [afterReturn_of_strict hreturn] at hm
      cases hm
    · rw [hview]
      exact ⟨rfl,rfl,fun _ => ⟨rfl,rfl⟩,nofun⟩
    · rw [hview]
      rfl
  | false =>
    obtain ⟨t,ht⟩ := readLoop_ended (d := d) laws (hin.mpr hm)
    rw [ht]
    exact .ended hm

/-! ## The loop over a handle -/

def Yield.cons (record : RawRecord) (yield : Yield) : Yield := { yield with records := record::yield.records }

theorem yield_cons (record : RawRecord) (r : Run) : (r.cons record).yield = r.yield.cons record := by
  obtain ⟨records,res⟩ := r
  cases res with
  | error => rfl
  | ok =>
    simp only [Run.cons,Run.yield]
    split
    · rfl
    · split <;> rfl

/-- The chunks that have not been read to their end. -/
def Stream.parts (s : Stream R) : List Bytes := if s.buffer = [] then s.handle else s.buffer::s.handle

structure Stream.Proper (s : Stream R) : Prop where
  chunks : ∀ chunk ∈ s.handle, chunk ≠ []
  finished : s.finished = true → s.buffer = [] ∧ s.handle = []

/-- Some chunk starts with a line end right behind a delimiter. -/
def Cut (d : Dialect) (p : Progress) : List Bytes → Prop
  | [] => False
  | chunk::chunks => Severs p chunk ∨ ∃ p', (run d p chunk).result = .ok p' ∧ Cut d p' chunks

/-- How the outcome of a call of `next` follows the meaning of the chunks to come. -/
inductive Outcome (laws : crate.Laws) (d : Dialect) (p : Progress) (chunks : List Bytes) : Next R → Prop
  | malformed {code : Code} (hcut : ¬Cut d p chunks) (h : (run d p chunks.flatten).yield = ⟨[],some code⟩) :
      Outcome laws d p chunks (.malformed code)
  | ended (hcut : ¬Cut d p chunks) (h : (run d p chunks.flatten).yield = ⟨[],none⟩) : Outcome laws d p chunks .ended
  | record {record : RawRecord} {s : Stream R} {p' : Progress} (hmatches : Matches laws s.state p') (hproper : s.Proper)
      (hcut : Cut d p chunks ↔ Cut d p' s.parts)
      (h : (run d p chunks.flatten).yield = (run d p' s.parts.flatten).yield.cons record) :
      Outcome laws d p chunks (.record record s)
  | severed {record other : RawRecord} {s : Stream R} (hcut : Cut d p chunks) (hne : other ≠ record)
      (h : ∃ yield : Yield, (run d p chunks.flatten).yield = yield.cons other) :
        Outcome laws d p chunks (.record record s)

theorem not_severs (h : p.mode.inRecord = false) : ¬Severs p i := by
  rintro ⟨hm,_⟩
  rw [hm] at h
  cases h

variable {chunk : Bytes} {chunks : List Bytes}

theorem cut_cons (h : ¬Severs p chunk) :
    Cut d p (chunk::chunks) ↔ ∃ p', (run d p chunk).result = .ok p' ∧ Cut d p' chunks := or_iff_right h

variable {p' : Progress}

theorem cut_next (h : ¬Severs p chunk)
    (hrun : (run d p chunk).result = .ok p') : Cut d p (chunk::chunks) ↔ Cut d p' chunks := by
  rw [cut_cons h,hrun]
  constructor
  · rintro ⟨q,hq,hcut⟩
    cases hq
    exact hcut
  · exact fun hcut => ⟨p',rfl,hcut⟩

/-- A record has been read of a chunk. -/
theorem cut_record {rest : Bytes} (h : ¬Severs p chunk)
    (hbetween : p'.mode.inRecord = false) (hrun : (run d p chunk).result = (run d p' rest).result) :
    Cut d p (chunk::chunks) ↔ Cut d p' (if rest = [] then chunks else rest::chunks) := by
  by_cases hr : rest = []
  · rw [if_pos hr]
    refine cut_next h ?_
    rw [hrun,hr]
    rfl
  · rw [if_neg hr,cut_cons h,cut_cons (not_severs hbetween),hrun]

theorem parts_flatten (s : Stream R) : s.parts.flatten = s.buffer++s.handle.flatten := by
  unfold Stream.parts
  split
  next h => rw [h]; rfl
  next => rfl

/-- The outcome of a call on the chunks behind one that gave no record. -/
theorem Outcome.shift {cs' : List Bytes} {next : Next R} (h : Outcome laws d p' cs' next)
    (hcut : Cut d p chunks ↔ Cut d p' cs') (hrun : run d p chunks.flatten = run d p' cs'.flatten) :
    Outcome laws d p chunks next := by
  cases h with
  | malformed hnot h => exact .malformed (hcut.not.mpr hnot) (hrun ▸ h)
  | ended hnot h => exact .ended (hcut.not.mpr hnot) (hrun ▸ h)
  | record hmatches hproper hparts h => exact .record hmatches hproper (hcut.trans hparts) (hrun ▸ h)
  | severed hsevers hne h => exact .severed (hcut.mpr hsevers) hne (hrun ▸ h)

theorem turn_finished (h : Matches laws s p) (pull : ReaderState R → Next R) :
    Outcome laws d p [] (turn crate d ⟨s,[],true,[]⟩ pull) := by
  have hfinishes := read_finishes (d := d) h
  generalize hread : read crate d s [] = outcome at hfinishes
  rw [turn,if_pos (by simp)]
  simp only [hread]
  cases hfinishes with
  | unterminated hm => exact .malformed id (if_pos hm)
  | @record rest hm hin hmatches =>
    have hproper : Stream.Proper ⟨rest,[],true,[]⟩ := ⟨forall_mem_nil _,fun _ => ⟨rfl,rfl⟩⟩
    refine .record hmatches hproper Iff.rfl ?_
    exact (if_neg hm).trans (if_pos hin)
  | ended hin =>
    have hm : p.mode ≠ .quoted := by
      intro hm
      rw [hm] at hin
      cases hin
    exact .ended id ((if_neg hm).trans (if_neg (by rw [hin]; decide)))

variable {buffer : Bytes} {pull : ReaderState R → Next R}

theorem turn_read (h : Matches laws s p) (hne : buffer ≠ []) (hchunks : ∀ chunk ∈ chunks, chunk ≠ [])
    (hpull : ∀ t p', Matches laws t p' → Outcome laws d p' chunks (pull t)) :
    Outcome laws d p (buffer::chunks) (turn crate d ⟨s,buffer,false,chunks⟩ pull) := by
  rw [turn,if_pos (by simp [hne])]
  by_cases hsevers : Severs p buffer
  · obtain ⟨t,k,hread⟩ := read_severed (d := d) h hsevers
    obtain ⟨rest,hrun,hrecord⟩ := run_severed (d := d) h.sync hsevers chunks.flatten
    simp only [hread]
    refine .severed (.inl hsevers) hrecord ⟨rest.yield,?_⟩
    rw [flatten_cons,hrun,yield_cons]
  · have hanswers := read_answers (d := d) h hne hsevers
    generalize read crate d s buffer = outcome at hanswers
    cases hanswers with
    | @error code hrun =>
      have hres : (run d p buffer).result = .error code := by
        have := congrArg Run.result (hrun [])
        rwa [append_nil] at this
      refine .malformed ?_ ?_
      · rw [cut_cons hsevers,hres]
        exact fun ⟨p',hp',_⟩ => Except.noConfusion rfl rfl (heq_of_eq hp')
      · rw [flatten_cons,hrun]
        rfl
    | @record _ k _ p' hmatches hbetween _ hrun =>
      have hres : (run d p buffer).result = (run d p' (buffer.drop k)).result := by
        have := congrArg Run.result (hrun [])
        rwa [append_nil,append_nil] at this
      rw [Nat.zero_add]
      refine .record hmatches ⟨hchunks,nofun⟩ (cut_record hsevers hbetween hres) ?_
      rw [flatten_cons,hrun,yield_cons,parts_flatten]
    | @more t k p' hmatches hrun =>
      have hres : (run d p buffer).result = .ok p' := by
        have := congrArg Run.result (hrun [])
        rwa [append_nil] at this
      refine (hpull t p' hmatches).shift (cut_next hsevers hres) ?_
      rw [flatten_cons,hrun]

theorem turn_empty : turn crate d ⟨s,[],false,chunks⟩ pull = pull s := by
  rw [turn,if_neg (by simp)]

theorem turn_outcome (h : Matches laws s p) (hchunks : ∀ chunk ∈ chunks, chunk ≠ [])
    (hpull : ∀ t p', Matches laws t p' → Outcome laws d p' chunks (pull t)) :
    Outcome laws d p (⟨s,buffer,false,chunks⟩ : Stream R).parts (turn crate d ⟨s,buffer,false,chunks⟩ pull) := by
  rw [Stream.parts]
  split
  next hbuffer =>
    subst hbuffer
    rw [turn_empty]
    exact hpull s p h
  next hbuffer => exact turn_read h hbuffer hchunks hpull

/-- A call of `next` follows the meaning of the chunks to come. -/
theorem next_outcome {f : Bool} (h : Matches laws s p) (hproper : (⟨s,buffer,f,chunks⟩ : Stream R).Proper) :
    Outcome laws d p (⟨s,buffer,f,chunks⟩ : Stream R).parts (next crate d s buffer f chunks) := by
  induction chunks generalizing s p buffer f with
  | nil =>
    cases f with
    | true =>
      obtain ⟨rfl,_⟩ := hproper.finished rfl
      exact turn_finished h _
    | false => exact turn_outcome h (forall_mem_nil _) fun t p' ht => turn_finished ht _
  | cons chunk chunks ih =>
    have hunfinished : f = false := by
      cases f with
      | true => exact absurd (hproper.finished rfl).2 (cons_ne_nil chunk chunks)
      | false => rfl
    subst hunfinished
    obtain ⟨hchunk,hchunks⟩ := forall_mem_cons.mp hproper.chunks
    have hnil : chunk.isEmpty = false := by simpa using hchunk
    refine turn_outcome h hproper.chunks fun t p' ht => ?_
    have hnext : Outcome laws d p' (⟨t,chunk,false,chunks⟩ : Stream R).parts (next crate d t chunk false chunks) :=
      ih ht ⟨hchunks,nofun⟩
    rwa [Stream.parts,if_neg hchunk,← hnil] at hnext

variable {record : RawRecord}

theorem cons_injective {o : RawRecord} {y z : Yield} (h : y.cons record = z.cons o) : record = o ∧ y = z := by
  obtain ⟨records,e⟩ := y
  obtain ⟨others,code⟩ := z
  simp only [Yield.cons,Yield.mk.injEq,List.cons.injEq] at h
  obtain ⟨⟨rfl,rfl⟩,rfl⟩ := h
  exact ⟨rfl,rfl⟩

/-- What comes out of the chunks is what the text means, unless it is cut behind a delimiter. -/
theorem readAll_meaning {cs : ℕ} {s : Stream R} {y : Yield} (h : Matches laws s.state p) (hproper : s.Proper)
    (hy : readAll crate d cs s = some y) : y = (run d p s.parts.flatten).yield ↔ ¬Cut d p s.parts := by
  induction cs generalizing s p y with
  | zero => cases hy
  | succ _ ih =>
    have hnext : Outcome laws d p s.parts (next crate d s.state s.buffer s.finished s.handle) := next_outcome h hproper
    rw [readAll] at hy
    generalize next crate d s.state s.buffer s.finished s.handle = outcome at hnext hy
    cases hnext with
    | malformed hcut hrun =>
      cases hy
      exact iff_of_true hrun.symm hcut
    | ended hcut hrun =>
      cases hy
      exact iff_of_true hrun.symm hcut
    | @record record _ _ hmatches hproper' hcut hrun =>
      obtain ⟨rest,hr,rfl⟩ := map_eq_some_iff.mp hy
      rw [hcut,← ih hmatches hproper' hr,hrun]
      exact ⟨fun heq => (cons_injective heq).2,fun heq => congrArg (Yield.cons record) heq⟩
    | @severed _ _ _ hcut hne hrun =>
      obtain ⟨rest,hr,rfl⟩ := map_eq_some_iff.mp hy
      obtain ⟨yield,hyield⟩ := hrun
      refine iff_of_false (fun heq => hne ?_) (not_not.mpr hcut)
      rw [hyield] at heq
      exact (cons_injective heq).1.symm

/-! ## Enough calls -/

theorem readLoop_le {c : ℕ} {record : Option RawRecord} (h : readLoop crate d s c i = .ok (t,k,record)) :
    c+(crate.readRecord d s.reader outputSpace endsSpace (piece s i)).read ≤ k := by
  fun_induction readLoop crate d s c i with
  | case1 => cases h
  | case2 =>
    obtain ⟨u,_,hu⟩ := bind_eq_ok.mp h
    cases hu
    exact Nat.le_refl _
  | case3 | case4 =>
    cases h
    exact Nat.le_refl _
  | case5 _ _ _ _ _ _ _ _ ih | case6 _ _ _ _ _ _ _ ih | case7 _ _ _ _ _ _ _ ih =>
    exact Nat.le_trans (Nat.le_add_right _ _) (ih h)

theorem blankRecordLength_pos {n : ℕ} (hne : i ≠ []) (h : blankRecordLength s i = some n) : i.take n ≠ [] := by
  have hpos : n ≠ 0 := by
    unfold blankRecordLength at h
    dsimp only at h
    split at h
    · cases h
    split at h
    · cases h
    split_ifs at h
    · cases h
      exact Nat.succ_ne_zero _
    · cases h
      exact Nat.succ_ne_zero _
  rw [ne_eq,take_eq_nil_iff]
  exact not_or.mpr ⟨hpos,hne⟩

/-- A call that gives a record has read something, or it is at the end of the text. -/
theorem read_pos (hne : i ≠ []) (h : read crate d s i = .ok (t,k,some record)) : 0 < k := by
  have hnil : ¬(i.isEmpty && s.strict = .quoted) = true := by simp [hne]
  rw [read,if_neg hnil] at h
  cases hblank : blankRecordLength s i with
  | some =>
    rw [hblank] at h
    obtain ⟨st,_,hstrict⟩ := bind_eq_ok.mp h
    cases hstrict
    exact crate.progress Nat.two_pos Nat.two_pos (blankRecordLength_pos hne hblank)
  | none =>
    rw [hblank] at h
    have hle : 0+(crate.readRecord d s.reader outputSpace endsSpace (piece s i)).read ≤ k := readLoop_le h
    have hpos : 0 < (crate.readRecord d s.reader outputSpace endsSpace (piece s i)).read :=
      crate.progress (by decide) (by decide) (piece_ne_nil hne)
    omega

theorem read_last (laws : crate.Laws) (h : read crate d s [] = .ok (t,k,some record)) :
    (laws.view s.reader).phase ≠ .between ∧ (laws.view t.reader).phase = .between := by
  by_cases hquoted : s.strict = .quoted
  · rw [read_unterminated hquoted] at h
    cases h
  rw [read_nil hquoted] at h
  by_cases hphase : (laws.view s.reader).phase = .between
  · obtain ⟨u,hu⟩ := readLoop_ended (d := d) laws hphase
    rw [hu] at h
    cases h
  · obtain ⟨reader,hview,hread⟩ := readLoop_last (d := d) laws hquoted hphase
    rw [hread] at h
    cases h
    exact ⟨hphase,congrArg View.phase hview⟩

theorem turn_record {s t : Stream R} (h : turn crate d s pull = .record record t) :
    ((s.buffer ≠ [] ∨ s.finished) ∧ ∃ state k, read crate d s.state s.buffer = .ok (state,k,some record) ∧
      t = { s with state, buffer := s.buffer.drop k }) ∨
    (s.finished = false ∧ ∃ state, pull state = .record record t) := by
  rw [turn] at h
  split at h
  next hopen =>
    split at h
    · cases h
    next state k _ hread =>
      cases h
      exact .inl ⟨by simpa using hopen,state,k,hread,rfl⟩
    next state _ _ =>
      split at h
      · cases h
      next hfinished => exact .inr ⟨by simpa using hfinished,state,h⟩
  next hopen =>
    rw [Bool.or_eq_true,not_or] at hopen
    exact .inr ⟨by simpa using hopen.2,s.state,h⟩

/-- What is left to read: its bytes, and the end of the text. -/
def Stream.rank (laws : crate.Laws) (s : Stream R) : ℕ :=
  s.buffer.length+s.handle.flatten.length+if s.finished ∧ (laws.view s.state.reader).phase = .between then 0 else 1

theorem rank_read {state : ReaderState R} {s : Stream R} (hproper : s.Proper)
    (hopen : s.buffer ≠ [] ∨ s.finished) (h : read crate d s.state s.buffer = .ok (state,k,some record)) :
    Stream.Proper { s with state, buffer := s.buffer.drop k } ∧
      Stream.rank laws { s with state, buffer := s.buffer.drop k } < s.rank laws := by
  cases hfinished : s.finished with
  | true =>
    obtain ⟨hbuffer,hhandle⟩ := hproper.finished hfinished
    rw [hbuffer] at h
    obtain ⟨hbefore,hafter⟩ := read_last laws h
    refine ⟨⟨hproper.chunks,fun _ => ⟨by simp [hbuffer],hhandle⟩⟩,?_⟩
    simp [Stream.rank,hbuffer,hhandle,hfinished,hbefore,hafter]
  | false =>
    have hbuffer : s.buffer ≠ [] := by simpa [hfinished] using hopen
    have hpos : 0 < k := read_pos hbuffer h
    have hlen : 0 < s.buffer.length := length_pos_iff.mpr hbuffer
    refine ⟨⟨hproper.chunks,fun hcontra => ?_⟩,?_⟩
    · cases hcontra
    · simp only [Stream.rank,hfinished,length_drop,Bool.false_eq_true,false_and,if_false]
      omega

theorem next_rank {f : Bool} {t : Stream R} (hproper : (⟨s,buffer,f,chunks⟩ : Stream R).Proper)
    (h : next crate d s buffer f chunks = .record record t) : 
    t.Proper ∧ t.rank laws < (⟨s,buffer,f,chunks⟩ : Stream R).rank laws := by
  induction chunks generalizing s buffer f with
  | nil =>
    rw [next] at h
    rcases turn_record h with ⟨hopen,st,k,hread,rfl⟩ | ⟨hfinished,st,hpull⟩
    · exact rank_read hproper hopen hread
    rcases turn_record hpull with ⟨hopen,last,k,hread,rfl⟩ | ⟨hcontra,_⟩
    · have hl : Stream.Proper ⟨st,[],true,[]⟩ := ⟨forall_mem_nil _,fun _ => ⟨rfl,rfl⟩⟩
      obtain ⟨hproper',hlt⟩ := rank_read hl (.inr rfl) hread
      refine ⟨hproper',Nat.lt_of_lt_of_le hlt ?_⟩
      dsimp only at hfinished
      simp only [Stream.rank,hfinished,length_nil,flatten_nil,Bool.false_eq_true,false_and,if_false]
      split <;> omega
    · cases hcontra
  | cons chunk chunks ih =>
    rw [next] at h
    rcases turn_record h with ⟨hopen,st,k,hread,rfl⟩ | ⟨hfinished,st,hpull⟩
    · exact rank_read hproper hopen hread
    obtain ⟨hchunk,hchunks⟩ := forall_mem_cons.mp hproper.chunks
    have hnil : chunk.isEmpty = false := by simpa using hchunk
    rw [hnil] at hpull
    have hproper : (⟨st,chunk,false,chunks⟩ : Stream R).Proper := ⟨hchunks,nofun⟩
    obtain ⟨hproper',hlt⟩ := ih hproper hpull
    refine ⟨hproper',Nat.lt_of_lt_of_le hlt ?_⟩
    dsimp only at hfinished
    simp only [Stream.rank,hfinished,flatten_cons,length_append,Bool.false_eq_true,false_and,if_false]
    omega

theorem readAll_isSome (laws : crate.Laws) {cs : ℕ} {s : Stream R} (hproper : s.Proper) (h : s.rank laws < cs) :
    (readAll crate d cs s).isSome := by
  induction cs generalizing s with
  | zero => exact absurd h (Nat.not_lt_zero _)
  | succ _ ih =>
    rw [readAll]
    split
    · rfl
    · rfl
    next t hnext =>
      obtain ⟨hproper',hlt⟩ : t.Proper ∧ t.rank laws < s.rank laws := next_rank hproper hnext
      rw [isSome_map]
      exact ih hproper' (by omega)

/-! ## Cuts behind a delimiter -/

/-- A chunk starts with a line end right behind the delimiter of a field, and there is no error before it. -/
def Severed (d : Dialect) (chunks : List Bytes) : Prop := ∃ before chunk after, chunks = before++chunk::after ∧
  validate d .fieldStart before.flatten = .ok .fieldStart ∧ before.flatten.getLast? = some d.delimiter ∧
  ∃ b ∈ chunk.head?, isNewline b = true

theorem run_result_cons (d : Dialect) (p : Progress) (b : UInt8) (i : Bytes) :
    (run d p (b::i)).result = feed d p b >>= fun fed => (run d fed.1 i).result := by
  cases hf : feed d p b with
  | error => rw [run_error hf]; rfl
  | ok fed =>
    obtain ⟨p',record⟩ := fed
    cases record with
    | none => rw [run_next hf]; rfl
    | some => rw [run_record hf]; rfl

/-- The validator follows the meaning. -/
theorem validate_run (d : Dialect) (p : Progress) (i : Bytes) :
    validate d p.mode.strict i = (run d p i).result.map fun p => p.mode.strict := by
  induction i generalizing p with
  | nil => rfl
  | cons b _ ih =>
    rw [validate_cons,validate_feed,run_result_cons]
    cases feed d p b with
    | error => rfl
    | ok fed => exact ih fed.1

theorem run_append (d : Dialect) (p : Progress) (i more : Bytes) :
    (run d p (i++more)).result = (run d p i).result >>= fun p' => (run d p' more).result := by
  induction i generalizing p with
  | nil => rfl
  | cons b _ ih =>
    rw [cons_append,run_result_cons,run_result_cons]
    cases feed d p b with
    | error => rfl
    | ok fed => exact ih fed.1

theorem cut_iff : Cut d p chunks ↔ ∃ b chunk a, chunks = b++chunk::a ∧
    ∃ p', (run d p b.flatten).result = .ok p' ∧ Severs p' chunk := by
  induction chunks generalizing p with
  | nil =>
    refine iff_of_false id ?_
    rintro ⟨b,chunk,a,h,_⟩
    exact absurd h.symm (by simp)
  | cons f chunks ih =>
    constructor
    · rintro (hsevers | ⟨p',hrun,hcut⟩)
      · exact ⟨[],f,chunks,rfl,p,rfl,hsevers⟩
      obtain ⟨b,chunk,a,rfl,q,hq,hsevers⟩ := ih.mp hcut
      refine ⟨f::b,chunk,a,rfl,q,?_,hsevers⟩
      rw [flatten_cons,run_append,hrun]
      exact hq
    · rintro ⟨b,chunk,a,h,q,hq,hsevers⟩
      cases b with
      | nil =>
        obtain ⟨rfl,rfl⟩ := cons_eq_cons.mp h
        cases hq
        exact .inl hsevers
      | cons _ b =>
        obtain ⟨rfl,rfl⟩ := cons_eq_cons.mp h
        rw [flatten_cons,run_append] at hq
        obtain ⟨p',hrun,hr⟩ := bind_eq_ok.mp hq
        exact .inr ⟨p',hrun,ih.mpr ⟨b,chunk,a,rfl,q,hr,hsevers⟩⟩

theorem mode_fieldStart (hrun : (run d .new i).result = .ok p') :
    p'.mode = .fieldStart ↔ p'.mode.strict = .fieldStart ∧ i.getLast? = some d.delimiter := by
  rcases eq_nil_or_concat i with rfl | ⟨before,b,rfl⟩
  · cases hrun
    refine iff_of_false nofun ?_
    rintro ⟨_,hl⟩
    cases hl
  · rw [concat_eq_append] at hrun ⊢
    rw [run_append] at hrun
    obtain ⟨q,_,hl⟩ := bind_eq_ok.mp hrun
    rw [run_result_cons] at hl
    obtain ⟨⟨p',record⟩,hf,hl⟩ := bind_eq_ok.mp hl
    cases hl
    rw [getLast?_concat,some_inj]
    constructor
    · intro hm
      have hstrict : p'.mode.strict = .fieldStart := by rw [hm]; rfl
      exact ⟨hstrict,((feed_fed hf).delimiter hstrict).mp hm⟩
    · rintro ⟨hstrict,hb⟩
      exact ((feed_fed hf).delimiter hstrict).mpr hb

theorem cut_new : Cut d .new chunks ↔ Severed d chunks := by
  rw [cut_iff,Severed]
  refine exists_congr fun b => exists_congr fun chunk => exists_congr fun a => and_congr_right fun _ => ?_
  have hvalidate : validate d .fieldStart b.flatten = (run d .new b.flatten).result.map fun p => p.mode.strict :=
    validate_run d .new b.flatten
  rw [hvalidate]
  constructor
  · rintro ⟨p',hrun,hm,hhead⟩
    obtain ⟨hstrict,hl⟩ := (mode_fieldStart hrun).mp hm
    refine ⟨?_,hl,hhead⟩
    rw [hrun,Except.map,hstrict]
  · rintro ⟨hok,hl,hhead⟩
    cases hrun : (run d .new b.flatten).result with
    | error =>
      rw [hrun] at hok
      cases hok
    | ok p' =>
      rw [hrun] at hok
      exact ⟨p',rfl,(mode_fieldStart hrun).mpr ⟨Except.ok.inj hok,hl⟩,hhead⟩

/-- The whole text as one chunk; an empty chunk would be the end of the handle. -/
def whole (text : Bytes) : List Bytes := if text = [] then [] else [text]

theorem whole_proper (crate : Crate R) (text : Bytes) : (Stream.new crate (whole text)).Proper := by
  refine ⟨fun chunk hchunk => ?_,nofun⟩
  unfold whole at hchunk
  split at hchunk
  · cases hchunk
  next => rwa [mem_singleton.mp hchunk]

theorem whole_flatten (text : Bytes) : (whole text).flatten = text := by
  unfold whole
  split
  next h => rw [h]; rfl
  next => simp

theorem not_cut_whole (text : Bytes) : ¬Cut d .new (whole text) := by
  rw [cut_new]
  rintro ⟨b,chunk,a,h,_,hl,_⟩
  have hbefore : b = [] := by
    unfold whole at h
    split at h
    · exact absurd h.symm (by simp)
    cases b with
    | nil => rfl
    | cons => exact absurd (cons_eq_cons.mp h).2.symm (by simp)
  rw [hbefore] at hl
  cases hl

/-- Cutting a text into chunks leaves its records and its error as they are, exactly if no chunk starts with a line end
right behind a delimiter. One call for each byte, one for the last record and one that finds the end are enough. -/
theorem records_of_chunks {R : Type} (crate : Crate R) (laws : crate.Laws) (d : Dialect) (chunks : List Bytes)
    (hchunks : ∀ chunk ∈ chunks, chunk ≠ []) (calls : ℕ) (hcalls : chunks.flatten.length+1 < calls) :
    ∃ y z, readAll crate d calls (Stream.new crate chunks) = some y ∧
      readAll crate d calls (Stream.new crate (whole chunks.flatten)) = some z ∧ (y = z ↔ ¬Severed d chunks) := by
  have hproper : (Stream.new crate chunks).Proper := ⟨hchunks,nofun⟩
  have hrank : (Stream.new crate chunks).rank laws < calls := by
    simp only [Stream.rank,Stream.new,length_nil,Bool.false_eq_true,false_and,if_false]
    omega
  have hrankWhole : (Stream.new crate (whole chunks.flatten)).rank laws < calls := by
    simp only [Stream.rank,Stream.new,length_nil,Bool.false_eq_true,false_and,if_false,whole_flatten]
    omega
  obtain ⟨y,hy⟩ := isSome_iff_exists.mp (readAll_isSome (d := d) laws hproper hrank)
  obtain ⟨z,hz⟩ := isSome_iff_exists.mp (readAll_isSome (d := d) laws (whole_proper crate chunks.flatten) hrankWhole)
  refine ⟨y,z,hy,hz,?_⟩
  have hmeaning : y = (run d .new chunks.flatten).yield ↔ ¬Cut d .new chunks :=
    readAll_meaning (matches_new laws) hproper hy
  have hwhole : z = (run d .new (whole chunks.flatten).flatten).yield :=
    (readAll_meaning (matches_new laws) (whole_proper crate chunks.flatten) hz).mpr (not_cut_whole chunks.flatten)
  rw [whole_flatten] at hwhole
  rw [hwhole,hmeaning,cut_new]

/-- The bytes `,` and `\"`. -/
def comma : Dialect := ⟨44,34,by decide,by decide,by decide⟩

theorem not_severed_line : ¬Severed comma [[97,44],[98,10]] := by
  rintro ⟨b,chunk,a,h,_,_,_,hhead,hnewline⟩
  have hchunk : chunk = [97,44] ∨ chunk = [98,10] := by
    have : chunk ∈ [[97,44],[98,10]] := by rw [h]; simp
    simpa using this
  rcases hchunk with rfl | rfl <;> cases hhead <;> cases hnewline

/-- The text `a,b` and a line end, cut behind the delimiter. -/
theorem records_of_chunks_line : readAll automaton comma 6 (Stream.new automaton [[97,44],[98,10]]) =
      some ⟨[([97,98],[1,2])],none⟩ ∧
    readAll automaton comma 6 (Stream.new automaton (whole [97,44,98,10])) = some ⟨[([97,98],[1,2])],none⟩ := by
  obtain ⟨y,z,hy,hz,hsame⟩ :=
    records_of_chunks automaton automatonLaws comma [[97,44],[98,10]] (by decide) 6 (by decide)
  have hchunks : readAll automaton comma 6 (Stream.new automaton [[97,44],[98,10]]) =
      some ⟨[([97,98],[1,2])],none⟩ := by decide +kernel
  refine ⟨hchunks,hz.trans ?_⟩
  rw [← hsame.mpr not_severed_line,← hy,hchunks]

/-- The text `a,` and a line end, cut behind the delimiter: the field before the delimiter is lost. -/
theorem chunk_loses_field : readAll automaton comma 5 (Stream.new automaton [[97,44],[10]]) = some ⟨[([],[0])],none⟩ ∧
    readAll automaton comma 5 (Stream.new automaton [[97,44,10]]) = some ⟨[([97],[1,1])],none⟩ := by
  decide +kernel

end Whim.Csv
