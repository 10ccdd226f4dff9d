import Whim.CsvMeaning
import Whim.Validation

/-!
# A call of the reader

A call on a part of a text gives the next record of its meaning, or takes the part in, unless it starts at a line end
right behind a delimiter.
-/

namespace Whim.Csv

open CsvCore List

variable {d : Dialect} {p : Progress} {v : View} {b : UInt8} {i : Bytes}

/-! ## The record reader -/

theorem run_error {code : Code} (h : feed d p b = .error code) (rs : Bytes) :
    run d p (b::rs) = ⟨[],.error code⟩ := by rw [run,h]

variable {p' : Progress}

theorem run_next (h : feed d p b = .ok (p',none)) (rs : Bytes) : run d p (b::rs) = run d p' rs := by rw [run,h]

theorem run_record {record : RawRecord} (h : feed d p b = .ok (p',some record)) (rs : Bytes) :
    run d p (b::rs) = (run d p' rs).cons record := by rw [run,h]

/-- A byte leads into a record, or it is the line feed after a carriage return. A field starts behind a delimiter. -/
structure Fed (d : Dialect) (p : Progress) (b : UInt8) (result : Progress × Option RawRecord) : Prop where
  inRecord : result.2 = none → result.1.mode.inRecord = true ∨ (p.mode = .afterReturn ∧ b = lineFeed)
  delimiter : result.1.mode.strict = .fieldStart → (result.1.mode = .fieldStart ↔ b = d.delimiter)

theorem feedField_fed : Fed d p b (feedField d p b) := by
  unfold feedField
  split_ifs with hdelimiter
  · exact ⟨fun _ => .inl rfl,fun _ => iff_of_true rfl hdelimiter⟩
  · exact ⟨nofun,nofun⟩
  · exact ⟨nofun,fun _ => iff_of_false nofun hdelimiter⟩
  · exact ⟨fun _ => .inl rfl,nofun⟩

theorem feedStart_fed : Fed d p b (feedStart d p b) := by
  unfold feedStart
  split
  · exact ⟨fun _ => .inl rfl,nofun⟩
  · exact feedField_fed

theorem feed_fed {res : Progress × Option RawRecord} (h : feed d p b = .ok res) : Fed d p b res := by
  unfold feed at h
  cases hm : p.mode <;> rw [hm] at h <;> dsimp only at h
  · cases h
    exact feedStart_fed
  · cases h
    split
    next hf =>
      refine ⟨fun _ => .inr ⟨hm,hf⟩,fun _ => iff_of_false nofun fun hb => ?_⟩
      have := d.delimiter_newline
      rw [← hb,hf] at this
      cases this
    next => exact feedStart_fed
  · cases h
    exact feedStart_fed
  · split at h <;> cases h
    exact feedField_fed
  · cases h
    split <;> exact ⟨fun _ => .inl rfl,nofun⟩
  · split_ifs at h <;> cases h
    · exact ⟨fun _ => .inl rfl,nofun⟩
    · exact feedField_fed

theorem noBlank_of_inRecord (h : p.mode.inRecord) : NoBlank p i := by
  cases i with
  | nil => trivial
  | cons => exact .inl h

theorem noBlank_next (h : NoBlank p (b::i)) (hf : feed d p b = .ok (p',none)) : NoBlank p' i := by
  rcases (feed_fed hf).inRecord rfl with hin | ⟨hm,hb⟩
  · exact noBlank_of_inRecord hin
  rcases h with hin | hnewline | ⟨_,_,hrest⟩
  · rw [hm] at hin
    cases hin
  · rw [hb] at hnewline
    cases hnewline
  · cases i with
    | nil => trivial
    | cons c => exact .inr (.inl (hrest c rfl))

/-- What reading a part of a text means. -/
structure Reads (d : Dialect) (p : Progress) (used : Bytes) (r : ReadRecord View) : Prop where
  rejected : ∀ code, validate d p.mode.strict used = .error code → ∀ more,
    run d p (used++more) = ⟨[],.error code⟩
  accepted : ∀ strict, validate d p.mode.strict used = .ok strict → ∃ p', p'.mode.strict = strict ∧ Sync r.reader p' ∧
    (r.result ≠ .record → (∀ more, run d p (used++more) = run d p' more) ∧ p'.output = p.output++r.written ∧
      p'.ends = p.ends++r.ends ∧ ∀ more, NoBlank p (used++more) → NoBlank p' more) ∧
    (r.result = .record → p'.mode.inRecord = false ∧
      ∀ more, run d p (used++more) = (run d p' more).cons (p.output++r.written,p.ends++r.ends))

theorem reads_nothing (hs : Sync v p) (space : ℕ) : Reads d p [] (readFull v space) := by
  refine ⟨nofun,fun strict hok => ⟨p,Except.ok.inj hok,⟨hs.phase,hs.position,hs.between,hs.delimited⟩,
    fun _ => ⟨fun _ => rfl,(append_nil _).symm,(append_nil _).symm,fun _ => id⟩,fun hrecord => ?_⟩⟩
  unfold readFull at hrecord
  split_ifs at hrecord

theorem validate_cons (strict : StrictState) : validate d strict (b::i) =
    (validateByte d strict b >>= fun strict => validate d strict i) := rfl

theorem validate_byte (d : Dialect) (p : Progress) (b : UInt8) :
    validate d p.mode.strict [b] = (feed d p b).map fun r => r.1.mode.strict := by
  rw [validate_cons,validate_feed]
  cases feed d p b <;> rfl

theorem reads_byte (hs : Sync v p) (hblank : NoBlank p (b::i)) : Reads d p [b] (readByte d v b) := by
  have hvalidate := validate_byte d p b
  cases hf : feed d p b with
  | error code =>
    rw [hf] at hvalidate
    refine ⟨fun other herr more => ?_,fun strict hok => ?_⟩
    · cases hvalidate.symm.trans herr
      exact run_error hf more
    · cases hvalidate.symm.trans hok
  | ok r =>
    have hsteps := feed_steps hs hblank hf
    rw [hf] at hvalidate
    refine ⟨fun other herr more => ?_,fun strict hok => ?_⟩
    · cases hvalidate.symm.trans herr
    obtain ⟨p',record⟩ := r
    cases hvalidate.symm.trans hok
    refine ⟨p',rfl,hsteps.sync hs,fun hgoes => ?_,fun hrecord => ?_⟩
    · have hends : (effect d v.phase b).endsRecord = false := by
        by_contra h
        exact hgoes (if_pos (by simpa using h))
      obtain ⟨hnone,houtput,hfields⟩ := hsteps.goes hends
      cases hnone
      refine ⟨fun more => run_next hf more,houtput,?_,fun more h => noBlank_next h hf⟩
      rw [readByte,hs.position]
      exact hfields
    · have hends : (effect d v.phase b).endsRecord = true := by
        by_contra h
        rw [readByte_result,if_neg h] at hrecord
        cases hrecord
      obtain ⟨hcopied,hfield,hsome,hbetween⟩ := hsteps.ends hends
      cases hsome
      refine ⟨hbetween,fun more => ?_⟩
      simpa [readByte,hcopied,hfield,hs.position,Progress.record] using run_record hf more

variable {used : Bytes} {first next : ReadRecord View}

/-- A byte inside a record, in front of what is read next. -/
theorem Reads.behind (h : Reads d p [b] first) (hgoes : first.result ≠ .record) (hblank : NoBlank p (b::i))
    (hnext : ∀ p', Sync first.reader p' → NoBlank p' i → Reads d p' used next) :
    Reads d p (b::used) (first.behind next) := by
  have hvalidate : validate d p.mode.strict (b::used) =
      (validate d p.mode.strict [b] >>= fun strict => validate d strict used) := by
    rw [validate_byte,validate_cons,validate_feed]
  cases hb : validate d p.mode.strict [b] with
  | error code =>
    rw [hb] at hvalidate
    refine ⟨fun other herr more => ?_,fun strict hok => ?_⟩
    · cases hvalidate.symm.trans herr
      exact h.rejected code hb (used++more)
    · cases hvalidate.symm.trans hok
  | ok middle =>
    obtain ⟨p',rfl,hs,hgo,-⟩ := h.accepted middle hb
    obtain ⟨hrun,houtput,hends,hnoBlank⟩ := hgo hgoes
    have hreads := hnext p' hs (hnoBlank i hblank)
    have hvalidate : validate d p.mode.strict (b::used) = validate d p'.mode.strict used := by
      rw [hvalidate,hb]
      rfl
    refine ⟨fun code herr more => ?_,fun strict hok => ?_⟩
    · exact (hrun (used++more)).trans (hreads.rejected code (hvalidate.symm.trans herr) more)
    obtain ⟨q,hq,hsync,hmore,hend⟩ := hreads.accepted strict (hvalidate.symm.trans hok)
    refine ⟨q,hq,hsync,fun hresult => ?_,fun hresult => ?_⟩
    · obtain ⟨hrun',houtput',hends',hnoBlank'⟩ := hmore hresult
      refine ⟨fun more => (hrun (used++more)).trans (hrun' more),?_,?_,
        fun more hb => hnoBlank' more (hnoBlank (used++more) hb)⟩
      · rw [houtput',houtput,append_assoc]
        rfl
      · rw [hends',hends,append_assoc]
        rfl
    · obtain ⟨hbetween,hrun'⟩ := hend hresult
      refine ⟨hbetween,fun more => (hrun (used++more)).trans ?_⟩
      rw [hrun' more,houtput,hends,append_assoc,append_assoc]
      rfl

/-- The record reader reads a part of the text as it is meant. -/
theorem readBytes_reads (space room : ℕ) (hs : Sync v p) (hblank : NoBlank p i) (hne : i ≠ []) :
    Reads d p (i.take (readBytes d v space room i).read) (readBytes d v space room i) := by
  induction i generalizing v p space room with
  | nil => exact absurd rfl hne
  | cons b i ih =>
    have hbyte := reads_byte (d := d) hs hblank
    rw [readBytes]
    dsimp only
    split_ifs with hfull hlast
    · exact reads_nothing hs space
    · exact hbyte
    · obtain ⟨hgoes,hi⟩ := not_or.mp hlast
      have htake (n : ℕ) : (b::i).take (1+n) = b::i.take n := by rw [Nat.add_comm,take_succ_cons]
      change Reads d p ((b::i).take (1+_)) _
      rw [htake]
      exact hbyte.behind hgoes hblank fun p' hs' hblank' => ih _ _ hs' hblank' hi

/-- A call ends within its input: at its end, or before it if there is no room. -/
theorem readBytes_read (v : View) (space room : ℕ) (hne : i ≠ []) : (readBytes d v space room i).read ≤ i.length ∧
    (readBytes d v space room i).result ≠ .finished ∧ ((readBytes d v space room i).result ≠ .record →
      (readBytes d v space room i).result ≠ .inputEmpty → (readBytes d v space room i).read < i.length) := by
  induction i generalizing v space room with
  | nil => exact absurd rfl hne
  | cons b i ih =>
    have hbyte := readByte_result_cases (d := d) v b
    rw [readBytes]
    dsimp only
    split_ifs with hfull hlast
    · refine ⟨Nat.zero_le _,?_,fun _ _ => Nat.succ_pos _⟩
      unfold readFull
      split_ifs <;> nofun
    · refine ⟨Nat.succ_le_succ (Nat.zero_le _),?_,fun hrecord hempty => (hbyte.elim hrecord hempty).elim⟩
      rcases hbyte with h | h <;> rw [h] <;> nofun
    · obtain ⟨hle,hfinished,hlt⟩ := ih (readByte d v b).reader (space-(readByte d v b).written.length)
        (room-(readByte d v b).ends.length) (not_or.mp hlast).2
      refine ⟨?_,hfinished,fun hrecord hempty => ?_⟩
      · change 1+_ ≤ i.length+1
        omega
      · have := hlt hrecord hempty
        change 1+_ < i.length+1
        omega

/-! ## The reader state -/

variable {R : Type} {crate : Crate R} (laws : crate.Laws)

/-- A reader state at a point of a text. -/
structure Matches (s : ReaderState R) (p : Progress) : Prop where
  strict : s.strict = p.mode.strict
  output : s.output = p.output
  ends : s.ends = p.ends
  sync : Sync (laws.view s.reader) p
  fresh : s.fresh = !(laws.view s.reader).started

theorem matches_new : Matches laws (ReaderState.new crate) Progress.new where
  strict := rfl
  output := rfl
  ends := rfl
  sync := by
    rw [ReaderState.new,laws.new]
    exact ⟨rfl,rfl,fun _ => ⟨rfl,rfl⟩,nofun⟩
  fresh := by
    rw [ReaderState.new,laws.new]
    rfl

/-- How the outcome of a call on a part of a text follows the meaning of the text. -/
inductive Answers (d : Dialect) (p : Progress) (consumed : ℕ) (input : Bytes) :
    Except Code (ReaderState R × ℕ × Option RawRecord) → Prop
  | error {code : Code} (h : ∀ more, run d p (input++more) = ⟨[],.error code⟩) :
      Answers d p consumed input (.error code)
  | record {s : ReaderState R} {k : ℕ} {record : RawRecord} {p' : Progress} (hmatches : Matches laws s p')
      (hbetween : p'.mode.inRecord = false) (hk : 0 < k)
      (h : ∀ more, run d p (input++more) = (run d p' (input.drop k++more)).cons record) :
      Answers d p consumed input (.ok (s,consumed+k,some record))
  | more {s : ReaderState R} {k : ℕ} {p' : Progress} (hmatches : Matches laws s p')
      (h : ∀ more, run d p (input++more) = run d p' more) : Answers d p consumed input (.ok (s,consumed+k,none))

variable {laws} {rs : Bytes}

/-- The outcome of a call on the rest of its input. -/
theorem Answers.shift {consumed : ℕ} {o : Except Code (ReaderState R × ℕ × Option RawRecord)}
    (h : Answers laws d p' (consumed+used.length) rs o) (hin : i = used++rs)
    (hrun : ∀ more, run d p (i++more) = run d p' (rs++more)) : Answers laws d p consumed i o := by
  cases h with
  | error h => exact .error fun more => (hrun more).trans (h more)
  | @record _ _ _ _ hmatches hbetween _ h =>
    rw [Nat.add_assoc]
    refine .record hmatches hbetween (by omega) fun more => ?_
    rw [hrun more,h more,hin,drop_length_add_append]
  | @more s k q hmatches h =>
    rw [Nat.add_assoc]
    exact .more hmatches fun more => (hrun more).trans (h more)

variable {s : ReaderState R}

theorem Matches.started (h : Matches laws s p) (hfresh : s.fresh = false) : (laws.view s.reader).started = true := by
  have := h.fresh
  rw [hfresh] at this
  simpa using this.symm

theorem piece_ne_nil (hne : i ≠ []) : piece s i ≠ [] := by
  unfold piece
  split
  · cases i with
    | nil => exact absurd rfl hne
    | cons => simp
  · exact hne

theorem piece_append (s : ReaderState R) (i : Bytes) : i = piece s i++i.drop (piece s i).length := by
  unfold piece
  split
  · cases i <;> simp
  · simp

/-- The part a call reads is a byte, or the record reader has read before and skips no byte order mark. -/
theorem readRecord_piece (h : Matches laws s p) (hne : i ≠ []) :
    (crate.readRecord d s.reader outputSpace endsSpace (piece s i)).map laws.view =
      readBytes d (laws.view s.reader) outputSpace endsSpace (piece s i) := by
  have hspace : 0 < outputSpace := by decide
  have hroom : 0 < endsSpace := by decide
  cases hfresh : s.fresh with
  | true =>
    obtain ⟨b,i,rfl⟩ := exists_cons_of_ne_nil hne
    rw [piece,if_pos hfresh,take_succ_cons,take_zero,laws.byte hspace hroom,readBytes,if_neg (by omega)]
    exact (if_pos (.inr rfl)).symm
  | false => exact laws.readRecord_eq (piece_ne_nil hne) (.inl (h.started hfresh)) (.inl ⟨hspace,hroom⟩)

/-! ## The loop of a call -/

section

variable (consumed : ℕ) {r : ReadRecord R} (hr : crate.readRecord d s.reader outputSpace endsSpace (piece s i) = r)
include hr

theorem readLoop_error {code : Code} (h : validate d s.strict ((piece s i).take r.read) = .error code) :
    readLoop crate d s consumed i = .error code := by
  subst hr
  rw [readLoop]
  simp only [h]

variable {strict : StrictState}

section

variable (h : validate d s.strict ((piece s i).take r.read) = .ok strict)
include h

theorem readLoop_record (hres : r.result = .record) : readLoop crate d s consumed i = (do
    let s ← finishRecord (absorb s strict r)
    .ok ((takeRecord s).2,consumed+r.read,some (takeRecord s).1)) := by
  subst hr
  rw [readLoop]
  simp only [h]
  split <;> simp_all

theorem readLoop_finished
    (hres : r.result = .finished) : readLoop crate d s consumed i = .ok (absorb s strict r,consumed+r.read,none) := by
  subst hr
  rw [readLoop]
  simp only [h]
  split <;> simp_all

theorem readLoop_done (hres : r.result = .inputEmpty) (hlen : i.length ≤ r.read) :
    readLoop crate d s consumed i = .ok (absorb s strict r,consumed+r.read,none) := by
  subst hr
  rw [readLoop]
  simp only [h]
  split <;> simp_all

theorem readLoop_again (hrecord : r.result ≠ .record) (hfinished : r.result ≠ .finished)
    (hlen : r.result = .inputEmpty → r.read < i.length) :
    readLoop crate d s consumed i = readLoop crate d (absorb s strict r) (consumed+r.read) (i.drop r.read) := by
  subst hr
  rw [readLoop]
  simp only [h]
  split
  · contradiction
  · contradiction
  next hnil => rw [if_neg (Nat.not_le.mpr (hlen hnil))]
  · rfl
  · rfl

end

end

theorem noBlank_left (h : NoBlank p (i++rs)) : NoBlank p i := by
  cases i with
  | nil => trivial
  | cons b i =>
    rcases h with hin | hnewline | ⟨hm,hb,hrest⟩
    · exact .inl hin
    · exact .inr (.inl hnewline)
    refine .inr (.inr ⟨hm,hb,fun c hc => ?_⟩)
    cases i with
    | nil => cases hc
    | cons =>
      cases hc
      exact hrest _ rfl

/-- What one turn of the loop reads. -/
structure TurnReads (laws : crate.Laws) (d : Dialect) (p : Progress) (s : ReaderState R) (i used rs : Bytes)
    (r : ReadRecord R) : Prop where
  split : i = used++rs
  ne_nil : used ≠ []
  read : r.read = used.length
  taken : (piece s i).take r.read = used
  reads : Reads d p used (r.map laws.view)
  started : (laws.view r.reader).started = true
  finished : r.result ≠ .finished
  rest : r.result ≠ .record → r.result ≠ .inputEmpty → rs ≠ []

theorem piece_read (h : Matches laws s p) (hblank : NoBlank p i) (hne : i ≠ []) : ∃ used rs,
    TurnReads laws d p s i used rs (crate.readRecord d s.reader outputSpace endsSpace (piece s i)) := by
  have hpiece : piece s i ≠ [] := piece_ne_nil hne
  have hsplit := piece_append s i
  have hblankPiece : NoBlank p (piece s i) := by
    rw [hsplit] at hblank
    exact noBlank_left hblank
  have hread := readRecord_piece (d := d) h hne
  have hpos : 0 < (crate.readRecord d s.reader outputSpace endsSpace (piece s i)).read :=
    crate.progress (by decide) (by decide) hpiece
  have hreads := readBytes_reads (d := d) outputSpace endsSpace h.sync hblankPiece hpiece
  obtain ⟨hle,hfinished,hlt⟩ := readBytes_read (d := d) (laws.view s.reader) outputSpace endsSpace hpiece
  have hstarted := readBytes_started (d := d) (laws.view s.reader) outputSpace endsSpace (piece s i)
  rw [← hread] at hreads hle hfinished hlt hstarted
  generalize crate.readRecord d s.reader outputSpace endsSpace (piece s i) = r at *
  change r.read ≤ _ at hle
  refine ⟨(piece s i).take r.read,(piece s i).drop r.read++i.drop (piece s i).length,?_,?_,?_,rfl,hreads,hstarted,
    hfinished,fun hrecord hempty => ?_⟩
  · rw [← append_assoc,take_append_drop]
    exact hsplit
  · rw [ne_eq,take_eq_nil_iff,not_or]
    exact ⟨hpos.ne',hpiece⟩
  · rw [length_take,Nat.min_eq_left hle]
  · refine append_ne_nil_of_left_ne_nil ?_ _
    rw [ne_eq,drop_eq_nil_iff,Nat.not_le]
    exact hlt hrecord hempty

theorem matches_absorb {r : ReadRecord R} (h : Matches laws s p) (hstarted : (laws.view r.reader).started = true)
    (hs : Sync (laws.view r.reader) p') (houtput : p'.output = p.output++r.written)
    (hends : p'.ends = p.ends++r.ends) : Matches laws (absorb s p'.mode.strict r) p' where
  strict := rfl
  output := by rw [houtput,← h.output]; rfl
  ends := by rw [hends,← h.ends]; rfl
  sync := hs
  fresh := (congrArg (!·) hstarted).symm

/-- The state after a record is at the start of a line. -/
theorem finish_takes {t : ReaderState R} (hstrict : t.strict = p'.mode.strict)
    (hs : Sync (laws.view t.reader) p') (hfresh : t.fresh = !(laws.view t.reader).started)
    (hbetween : p'.mode.inRecord = false) : finishRecord t = .ok t ∧ Matches laws (takeRecord t).2 p' := by
  obtain ⟨houtput,hends⟩ := hs.between hbetween
  refine ⟨?_,⟨hstrict,houtput.symm,hends.symm,hs,hfresh⟩⟩
  cases hm : p'.mode <;> rw [hm] at hbetween hstrict <;> try cases hbetween
  · rw [finishRecord,hstrict]
    cases t
    cases hstrict
    rfl
  · rw [finishRecord,hstrict]
    rfl

/-- A call that does not start at an empty line follows the meaning of the text. -/
theorem readLoop_answers (h : Matches laws s p) (hblank : NoBlank p i) (hne : i ≠ []) (consumed : ℕ) :
    Answers laws d p consumed i (readLoop crate d s consumed i) := by
  induction hn : i.length using Nat.strong_induction_on generalizing s p i consumed with
  | _ n ih =>
  obtain ⟨used,rs,hturn⟩ := piece_read (d := d) h hblank hne
  generalize hread : crate.readRecord d s.reader outputSpace endsSpace (piece s i) = r at hturn
  have hin := hturn.split
  have hpos : 0 < used.length := length_pos_iff.mpr hturn.ne_nil
  have hd : i.drop r.read = rs := by rw [hin,hturn.read,drop_left]
  have hcheck : ∀ o, validate d p.mode.strict used = o → validate d s.strict ((piece s i).take r.read) = o := by
    intro o houtcome
    rw [hturn.taken,h.strict,houtcome]
  cases hvalidate : validate d p.mode.strict used with
  | error code =>
    rw [readLoop_error consumed hread (hcheck _ hvalidate)]
    refine .error fun more => ?_
    rw [hin,append_assoc]
    exact hturn.reads.rejected code hvalidate (rs++more)
  | ok strict =>
    obtain ⟨p',rfl,hs,hgoes,hends⟩ := hturn.reads.accepted strict hvalidate
    by_cases hrecord : r.result = .record
    · obtain ⟨hbetween,hrun⟩ := hends hrecord
      obtain ⟨hfinish,hmatches⟩ := finish_takes (t := absorb s p'.mode.strict r) rfl hs
        (congrArg (!·) hturn.started).symm hbetween
      rw [readLoop_record consumed hread (hcheck _ hvalidate) hrecord,hfinish]
      refine .record hmatches hbetween (hturn.read ▸ hpos) fun more => ?_
      rw [hd,hin,append_assoc,hrun,← h.output,← h.ends]
      rfl
    · obtain ⟨hrun,houtput,hends',hnoblank⟩ := hgoes hrecord
      have hmatches := matches_absorb h hturn.started hs houtput hends'
      by_cases hall : rs = []
      · have hres : r.result = .inputEmpty := by
          by_contra hnot
          exact hturn.rest hrecord hnot hall
        rw [hall,append_nil] at hin
        rw [readLoop_done consumed hread (hcheck _ hvalidate) hres (by rw [hin,hturn.read])]
        refine .more hmatches fun more => ?_
        rw [hin]
        exact hrun more
      · have hlen : i.length = used.length+rs.length := by rw [hin,length_append]
        have hrestpos : 0 < rs.length := length_pos_iff.mpr hall
        have hagain : r.read < i.length := by
          rw [hturn.read]
          omega
        rw [readLoop_again consumed hread (hcheck _ hvalidate) hrecord hturn.finished fun _ => hagain]
        rw [hd,hturn.read]
        refine (ih rs.length (by omega) hmatches (hnoblank rs (hin ▸ hblank)) hall _ rfl).shift hin fun more => ?_
        rw [hin,append_assoc]
        exact hrun (rs++more)

end Whim.Csv
