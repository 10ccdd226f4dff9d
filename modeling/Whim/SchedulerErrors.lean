import Whim.LazyQueue
import Whim.SchedulerRuns

/-!
# Unobserved errors of the scheduler

The queue of ids keeps those of forgotten errors until it is compacted, which only forgetting does: errors taken since
count as if they were still queued.
-/

namespace Whim.Scheduler

open LazyQueue List UInt64

variable {H V : Type}

inductive ErrorOperation (V : Type)
  | record (error : V)
  | forget (id : UInt64)
  | take

def ErrorOperation.operation : ErrorOperation V → Operation H V
  | record error => .recordError error
  | forget id => .forgetError id
  | take => .takePendingError

def runErrors (s : Scheduler H V) (ops : List (ErrorOperation V)) : Scheduler H V :=
  (s.run (ops.map ErrorOperation.operation)).1

/-- The errors that successive calls of `take_pending_error` return. -/
def takes : ℕ → Scheduler H V → List (Option V)
  | 0, _ => []
  | n+1, s => s.takePendingError.2::takes n s.takePendingError.1

/-- What a sequence of operations leaves unobserved, with the numbers of errors recorded in all and of errors taken
since one was last forgotten. -/
structure ErrorLog (V : Type) where
  recorded : ℕ
  unobserved : List (UInt64 × V)
  taken : ℕ

namespace ErrorLog

def step (log : ErrorLog V) : ErrorOperation V → ErrorLog V
  | .record error => ⟨log.recorded+1,log.unobserved++[(ofNat log.recorded,error)],log.taken⟩
  | .forget id =>
    if log.unobserved.any (·.1 == id) then ⟨log.recorded,log.unobserved.filter (·.1 ≠ id),0⟩ else log
  | .take => if log.unobserved.isEmpty then log else ⟨log.recorded,log.unobserved.tail,log.taken+1⟩

def of (ops : List (ErrorOperation V)) : ErrorLog V := ops.foldl step ⟨0,[],0⟩

end ErrorLog

/-- The state holds the unobserved errors of a log and knows how many of its ids are stale. -/
structure Tracks (log : ErrorLog V) (s : Scheduler H V) : Prop where
  next : s.nextErrorId = ofNat log.recorded
  errors : entries s.pendingErrors s.pendingErrorOrder = log.unobserved
  nodup : s.pendingErrorOrder.Nodup
  below : ∀ id ∈ s.pendingErrorOrder, id.toNat < log.recorded
  queued : ∀ id ∈ s.pendingErrors, id ∈ s.pendingErrorOrder
  stale : s.staleErrors.toNat = LazyQueue.stale s.pendingErrors s.pendingErrorOrder

/-- Half of the ids are not stale, counting the errors taken, or only few ids are. -/
def FewStale (log : ErrorLog V) (s : Scheduler H V) : Prop :=
  s.staleErrors < errorCompactionThreshold ∨
    s.staleErrors.toNat < (s.pendingErrorOrder.length+log.taken+1) / 2

/-- The invariant of the errors. -/
structure Holding (log : ErrorLog V) (s : Scheduler H V) : Prop extends Tracks log s where
  few : FewStale log s

variable {n : ℕ}

section

variable {log : ErrorLog V} {s : Scheduler H V}

theorem Holding.recordError (h : Holding log s) (hrecorded : log.recorded < 2 ^ 64) (e : V) :
    Holding (log.step (.record e)) (s.recordError e).1 := by
  have hid : s.nextErrorId.toNat = log.recorded := by
    rw [h.next]
    exact toNat_ofNat_of_lt' hrecorded
  have hfresh : s.nextErrorId ∉ s.pendingErrorOrder := fun hmem => absurd (h.below _ hmem) (by omega)
  have hothers := lookup_insert_of_notMem (m := s.pendingErrors) (v := e) hfresh
  refine ⟨⟨?_,?_,?_,?_,?_,?_⟩,?_⟩
  · show s.nextErrorId+1 = ofNat (log.recorded+1)
    rw [h.next,ofNat_add]
    rfl
  · show entries (s.pendingErrors.insert s.nextErrorId e) (s.pendingErrorOrder++[s.nextErrorId]) =
      log.unobserved++[(ofNat log.recorded,e)]
    rw [entries_append,entries_congr hothers,h.errors,← h.next]
    simp [entries_cons]
  · exact nodup_append_comm.mp (nodup_cons.mpr ⟨hfresh,h.nodup⟩)
  · intro id hmem
    rcases mem_append.mp hmem with hmem | hmem
    · exact Nat.lt_succ_of_lt (h.below id hmem)
    · rw [mem_singleton.mp hmem,hid]
      exact Nat.lt_succ_self _
  · intro id hmem
    rcases (AList.mem_insert _).mp hmem with rfl | hmem
    · exact mem_append_right _ (mem_singleton.mpr rfl)
    · exact mem_append_left _ (h.queued id hmem)
  · show s.staleErrors.toNat =
      LazyQueue.stale (s.pendingErrors.insert s.nextErrorId e) (s.pendingErrorOrder++[s.nextErrorId])
    rw [stale_append,stale_congr hothers,h.stale]
    simp [stale_cons]
  · refine h.few.imp_right fun hfew => ?_
    show s.staleErrors.toNat < ((s.pendingErrorOrder++[s.nextErrorId]).length+log.taken+1) / 2
    rw [length_append,length_singleton]
    omega

/-- An error is in the log if and only if it is pending. -/
theorem Tracks.any_iff (h : Tracks log s) (id : UInt64) :
    log.unobserved.any (·.1 == id) ↔ ∃ e, s.pendingErrors.lookup id = some e := by
  rw [← h.errors,any_eq_true]
  constructor
  · rintro ⟨⟨o,e⟩,hmem,heq⟩
    cases eq_of_beq heq
    exact ⟨e,(mem_entries.mp hmem).2⟩
  · rintro ⟨e,hlookup⟩
    have hmem : id ∈ s.pendingErrors := AList.lookup_isSome.mp (by rw [hlookup]; rfl)
    exact ⟨(id,e),mem_entries.mpr ⟨h.queued id hmem,hlookup⟩,beq_self_eq_true id⟩

theorem Tracks.length_le (h : Tracks log s) : s.pendingErrorOrder.length ≤ log.recorded := by
  have hnd : (s.pendingErrorOrder.map toNat).Nodup :=
    h.nodup.map fun _ _ heq => UInt64.toNat_inj.mp heq
  have hsub : s.pendingErrorOrder.map toNat ⊆ List.range log.recorded := by
    intro n hn
    obtain ⟨id,hid,rfl⟩ := mem_map.mp hn
    exact mem_range.mpr (h.below id hid)
  simpa using (subperm_of_subset hnd hsub).length_le

variable {errors : AList fun _ : UInt64 => V} {order : List UInt64}

/-- Some pending error is left, and its id is not stale. -/
theorem stale_lt_length (hqueued : ∀ id ∈ errors, id ∈ order) (hne : errors.entries.isEmpty = false) :
    LazyQueue.stale errors order < order.length := by
  obtain ⟨⟨id,e⟩,hmem⟩ := exists_mem_of_ne_nil _ (by simpa using hne)
  have hlookup : errors.lookup id = some e := AList.mem_lookup_iff.mpr hmem
  have hid : id ∈ errors := AList.lookup_isSome.mp (by rw [hlookup]; rfl)
  have hlen := length_pos_of_mem (mem_entries.mpr ⟨hqueued id hid,hlookup⟩)
  rw [length_eq errors order]
  omega

variable {stale : UInt64}

theorem fewStale_iff {threshold : UInt64} {len : ℕ} :
    fewStale stale threshold len ↔ stale < threshold ∨ stale.toNat < (len+1) / 2 := by
  simp [fewStale]

/-- A state without pending errors has an empty queue. -/
theorem Holding.emptied (log : ErrorLog V) (s : Scheduler H V) (hnext : s.nextErrorId = ofNat log.recorded)
    (hn : log.unobserved = [])
    (hnil : errors.entries.isEmpty) :
    Holding log { s with pendingErrors := errors, pendingErrorOrder := [], staleErrors := 0 } where
  next := hnext
  errors := hn.symm
  nodup := nodup_nil
  below := forall_mem_nil _
  queued id hid := by
    rw [AList.mem_keys,AList.keys,List.isEmpty_iff.mp hnil] at hid
    cases hid
  stale := rfl
  few := .inl (show (0 : UInt64) < 1024 by decide)

theorem holding_new (idle : V) : Holding ⟨0,[],0⟩ (new idle : Scheduler H V) :=
  .emptied ⟨0,[],0⟩ (new idle) rfl rfl rfl

theorem Tracks.compactErrors (h : Tracks log s) : Holding { log with taken := 0 } s.compactErrors := by
  unfold Scheduler.compactErrors
  split
  next hfew => exact ⟨⟨h.next,h.errors,h.nodup,h.below,h.queued,h.stale⟩,fewStale_iff.mp hfew⟩
  next =>
    refine ⟨⟨h.next,(entries_sweep _ _).trans h.errors,h.nodup.filter _,?_,?_,(stale_sweep _ _).symm⟩,
      .inl (show (0 : UInt64) < 1024 by decide)⟩
    · exact fun id hid => h.below id (mem_of_mem_filter hid)
    · exact fun id hid => mem_filter.mpr ⟨h.queued id hid,AList.lookup_isSome.mpr hid⟩

theorem Holding.forgetError (h : Holding log s) (hrecorded : log.recorded ≤ 2 ^ 64) (id : UInt64) :
    Holding (log.step (.forget id)) (s.forgetError id) := by
  unfold Scheduler.forgetError ErrorLog.step
  cases hlookup : s.pendingErrors.lookup id with
  | none =>
    have hunknown : ¬log.unobserved.any (·.1 == id) = true := by
      rw [h.any_iff,hlookup]
      nofun
    simpa [hunknown] using h
  | some e =>
    have hknown : log.unobserved.any (·.1 == id) = true := (h.any_iff id).mpr ⟨e,hlookup⟩
    have hid : id ∈ s.pendingErrorOrder := h.queued id (AList.lookup_isSome.mp (by rw [hlookup]; rfl))
    have herr : entries (s.pendingErrors.erase id) s.pendingErrorOrder = log.unobserved.filter (·.1 ≠ id) := by
      rw [entries_erase,h.errors]
    have hqueued : ∀ o ∈ s.pendingErrors.erase id, o ∈ s.pendingErrorOrder :=
      fun o ho => h.queued o (AList.mem_erase.mp ho).2
    simp only [hknown,Option.isNone_some,Bool.false_eq_true,if_false,if_true]
    split
    next hnil =>
      refine .emptied ⟨log.recorded,_,0⟩ s h.next ?_ hnil
      rw [← herr,entries_of_isEmpty hnil]
    next hne =>
      have hlt := stale_lt_length hqueued (Bool.not_eq_true _ ▸ hne)
      have hstale := stale_erase h.nodup hid hlookup
      have hlen := h.length_le
      have hcount := h.stale
      have hadd : (s.staleErrors+1).toNat = s.staleErrors.toNat+1 := by
        exact Nat.mod_eq_of_lt (by show s.staleErrors.toNat+1 < 2 ^ 64; omega)
      have htracks : Tracks ⟨log.recorded,log.unobserved.filter (·.1 ≠ id),log.taken⟩
          { s with pendingErrors := s.pendingErrors.erase id, staleErrors := s.staleErrors+1 } :=
        ⟨h.next,herr,h.nodup,h.below,hqueued,by rw [hstale,← h.stale]; exact hadd⟩
      exact htracks.compactErrors

theorem toNat_saturatingPred (h : stale.toNat = n+1) : (saturatingPred stale).toNat = n := by
  have hne : stale ≠ 0 := by
    rintro rfl
    cases h
  rw [saturatingPred,if_neg hne,
    UInt64.toNat_sub_of_le _ _ (UInt64.le_iff_toNat_le.mpr (by rw [h]; exact Nat.le_add_left ..)),
    h]
  rfl

theorem takeLoop_none (hn : entries errors order = []) (hstale : stale.toNat = LazyQueue.stale errors order) :
    takeLoop errors order stale = (errors,[],0,none) := by
  induction order generalizing stale with
  | nil => rw [takeLoop,show stale = 0 from UInt64.toNat_inj.mp hstale]
  | cons id _ ih =>
    rw [entries_cons,append_eq_nil_iff] at hn
    have hlookup : errors.lookup id = none := by simpa using hn.1
    simp only [takeLoop,hlookup]
    refine ih hn.2 (toNat_saturatingPred ?_)
    rw [hstale,stale_cons,hlookup]
    rfl

/-- The loop skips stale ids and takes the first pending error. -/
theorem takeLoop_some {id : UInt64} {e : V} {rest : List (UInt64 × V)} (hsome : entries errors order = (id,e)::rest)
    (hstale : stale.toNat = LazyQueue.stale errors order) :
    ∃ skipped o' stale', order = skipped++id::o' ∧ (∀ o ∈ skipped, errors.lookup o = none) ∧
      errors.lookup id = some e ∧ stale.toNat = skipped.length+toNat stale' ∧
      takeLoop errors order stale = if (errors.erase id).entries.isEmpty then (errors.erase id,[],0,some e)
        else (errors.erase id,o',stale',some e) := by
  induction order generalizing stale with
  | nil => cases hsome
  | cons o order ih =>
    rw [entries_cons] at hsome
    rw [stale_cons] at hstale
    cases hlookup : errors.lookup o with
    | some =>
      rw [hlookup] at hsome
      cases hsome
      refine ⟨[],order,stale,rfl,forall_mem_nil _,hlookup,(Nat.zero_add _).symm,?_⟩
      simp only [takeLoop,hlookup]
    | none =>
      rw [hlookup] at hsome hstale
      have hpred : (saturatingPred stale).toNat = LazyQueue.stale errors order := toNat_saturatingPred hstale
      obtain ⟨skipped,o',stale',rfl,hskipped,hid,hcount,heq⟩ := ih hsome hpred
      refine ⟨o::skipped,o',stale',rfl,forall_mem_cons.mpr ⟨hlookup,hskipped⟩,hid,?_,?_⟩
      · have hstale' : stale.toNat = LazyQueue.stale errors (skipped++id::o')+1 := hstale
        rw [length_cons,hstale',← hpred,hcount]
        omega
      · simp only [takeLoop,hlookup]
        exact heq

theorem Holding.takePendingError (h : Holding log s) : Holding (log.step .take) s.takePendingError.1 ∧
    s.takePendingError.2 = log.unobserved.head?.map Prod.snd := by
  unfold Scheduler.takePendingError
  cases hlog : log.unobserved with
  | nil =>
    rw [takeLoop_none (h.errors.trans hlog) h.stale]
    have hsame : log.step .take = log := by simp [ErrorLog.step,hlog]
    rw [hsame]
    refine ⟨⟨⟨h.next,hlog.symm,nodup_nil,forall_mem_nil _,?_,rfl⟩,
      .inl (show (0 : UInt64) < 1024 by decide)⟩,rfl⟩
    intro id hid
    obtain ⟨error,hlookup⟩ := Option.isSome_iff_exists.mp (AList.lookup_isSome.mpr hid)
    have hmem := mem_entries.mpr ⟨h.queued id hid,hlookup⟩
    rw [h.errors,hlog] at hmem
    cases hmem
  | cons e rest =>
    obtain ⟨id,error⟩ := e
    obtain ⟨skipped,order,stale,horder,hskipped,hid,hcount,hloop⟩ := takeLoop_some (h.errors.trans hlog) h.stale
    have hstep : log.step .take = ⟨log.recorded,rest,log.taken+1⟩ := by simp [ErrorLog.step,hlog]
    have hnd := nodup_append.mp (horder ▸ h.nodup)
    obtain ⟨hfresh,hnodupOrder⟩ := nodup_cons.mp hnd.2.1
    have hsub : ∀ o ∈ order, o ∈ s.pendingErrorOrder := by
      rw [horder]
      exact fun o ho => mem_append_right _ (mem_cons_of_mem _ ho)
    have hothers : ∀ o ∈ order, (s.pendingErrors.erase id).lookup o = s.pendingErrors.lookup o :=
      fun o ho => AList.lookup_erase_ne fun heq => hfresh (heq ▸ ho)
    have hn : entries s.pendingErrors skipped = [] :=
      filterMap_eq_nil_iff.mpr fun o ho => by rw [hskipped o ho]; rfl
    have herr : entries (s.pendingErrors.erase id) order = rest := by
      have hall := h.errors
      rw [horder,hlog,entries_append,hn,entries_cons,hid] at hall
      rw [entries_congr hothers]
      exact (List.cons.inj hall).2
    rw [hloop,hstep]
    by_cases hnil : (s.pendingErrors.erase id).entries.isEmpty = true
    · rw [if_pos hnil]
      exact ⟨.emptied ⟨log.recorded,rest,_⟩ s h.next (herr.symm.trans (entries_of_isEmpty hnil order)) hnil,rfl⟩
    rw [if_neg hnil]
    refine ⟨⟨⟨h.next,herr,hnodupOrder,fun o ho => h.below o (hsub o ho),?_,?_⟩,
      ?_⟩,rfl⟩
    · -- A pending error is behind the stale ids that were skipped.
      intro o ho
      obtain ⟨hne,hpending⟩ := AList.mem_erase.mp ho
      have hmem := h.queued o hpending
      rw [horder,mem_append,mem_cons] at hmem
      rcases hmem with hmem | rfl | hmem
      · exact absurd (AList.lookup_isSome.mpr hpending) (by simp [hskipped o hmem])
      · exact absurd rfl hne
      · exact hmem
    · have hstale := h.stale
      have hall : LazyQueue.stale s.pendingErrors skipped = skipped.length :=
        countP_eq_length.mpr fun o ho => by rw [hskipped o ho]; rfl
      rw [horder,stale_append,hall,stale_cons,hid] at hstale
      show stale.toNat = LazyQueue.stale (s.pendingErrors.erase id) order
      rw [stale_congr hothers]
      simp only [Option.isNone_some,Bool.false_eq_true,if_false] at hstale
      omega
    · have hlen : s.pendingErrorOrder.length = skipped.length+(order.length+1) := by
        rw [horder,length_append,length_cons]
      show stale < errorCompactionThreshold ∨ stale.toNat < (order.length+(log.taken+1)+1) / 2
      refine h.few.imp (fun hfew => ?_) fun hfew => by omega
      rw [lt_iff_toNat_lt] at hfew ⊢
      omega

end

section

variable {log : ErrorLog V} {s : Scheduler H V}

theorem ErrorLog.recorded_le_step (log : ErrorLog V) (op : ErrorOperation V) :
    log.recorded ≤ (log.step op).recorded := by
  cases op with
  | record => exact Nat.le_succ _
  | forget =>
    rw [step]
    split <;> exact Nat.le_refl _
  | take =>
    rw [step]
    split <;> exact Nat.le_refl _

theorem ErrorLog.recorded_le (log : ErrorLog V) (ops : List (ErrorOperation V)) :
    log.recorded ≤ (ops.foldl step log).recorded := by
  induction ops generalizing log with
  | nil => exact Nat.le_refl _
  | cons op _ ih => exact (log.recorded_le_step op).trans (ih _)

theorem Holding.step (h : Holding log s) {op : ErrorOperation V} (hrecorded : (log.step op).recorded ≤ 2 ^ 64) :
    Holding (log.step op) (s.step op.operation).1 := by
  cases op with
  | record e => exact h.recordError hrecorded e
  | forget id => exact h.forgetError ((log.recorded_le_step _).trans hrecorded) id
  | take => exact h.takePendingError.1

theorem Holding.run (h : Holding log s) (ops : List (ErrorOperation V))
    (hrecorded : (ops.foldl ErrorLog.step log).recorded ≤ 2 ^ 64) :
    Holding (ops.foldl ErrorLog.step log) (s.runErrors ops) := by
  induction ops generalizing log s with
  | nil => exact h
  | cons _ ops ih => exact ih (h.step ((ErrorLog.recorded_le _ ops).trans hrecorded)) hrecorded

/-- Successive calls take the unobserved errors in their order, and then nothing. -/
theorem Holding.takes (h : Holding log s) (n : ℕ) :
    s.takes n = (List.range n).map fun i => log.unobserved[i]?.map Prod.snd := by
  induction n generalizing log s with
  | zero => rfl
  | succ n ih =>
    obtain ⟨hnext,hhead⟩ := h.takePendingError
    rw [Scheduler.takes,hhead,ih hnext,range_succ_eq_map,map_cons,map_map,head?_eq_getElem?]
    congr 1
    refine map_congr_left fun i _ => ?_
    cases hlog : log.unobserved <;> simp [ErrorLog.step,hlog]

/-- After any sequence of operations on errors, at most 2^64 of them records: the next error is recorded under its
number, successive calls take the unobserved errors in the order of their records, and the count of stale ids is exact
and bounded by half of the queue with the errors taken since one was last forgotten. -/
theorem errors_surface (idle : V) (ops : List (ErrorOperation V)) (hrecorded : (ErrorLog.of ops).recorded ≤ 2 ^ 64) :
    (∀ error, (((new idle : Scheduler H V).runErrors ops).recordError error).2 = ofNat (ErrorLog.of ops).recorded) ∧
    (∀ n, ((new idle : Scheduler H V).runErrors ops).takes n =
      (List.range n).map fun i => (ErrorLog.of ops).unobserved[i]?.map Prod.snd) ∧
    ((new idle : Scheduler H V).runErrors ops).staleErrors.toNat =
      LazyQueue.stale ((new idle : Scheduler H V).runErrors ops).pendingErrors
        ((new idle : Scheduler H V).runErrors ops).pendingErrorOrder ∧
    FewStale (ErrorLog.of ops) ((new idle : Scheduler H V).runErrors ops) := by
  have h := (holding_new (H := H) idle).run ops hrecorded
  exact ⟨fun _ => h.next,h.takes,h.stale,h.few⟩

/-- One error is recorded, observed and recorded again: the second record is taken. -/
theorem errors_surface_observed :
    ((new () : Scheduler Unit Unit).runErrors [.record (),.forget 0,.record (),.record (),.take]).takes 2 =
      [some (),none] :=
  (errors_surface (H := Unit) () [.record (),.forget 0,.record (),.record (),.take] (by decide)).2.1 2

end

section

/-- The errors recorded under the first numbers. -/
def firstErrors : ℕ → AList fun _ : UInt64 => Unit
  | 0 => ∅
  | m+1 => (firstErrors m).insert (ofNat m) ()

/-- Of so many errors recorded, those behind the first ones are forgotten. -/
def held (n m : ℕ) : Scheduler Unit Unit :=
  { new () with
    pendingErrors := firstErrors m
    pendingErrorOrder := (List.range n).map ofNat
    staleErrors := ofNat (n-m)
    nextErrorId := ofNat n }

/-- Forget the errors from the last of so many down to the first ones. -/
def forgetDown (m : ℕ) : ℕ → List (ErrorOperation Unit)
  | 0 => []
  | k+1 => .forget (ofNat (m+k))::forgetDown m k

variable {m : ℕ}

theorem mem_firstErrors {id : UInt64} (h : id ∈ firstErrors m) (hm : m ≤ 2 ^ 64) : id.toNat < m := by
  induction m with
  | zero => exact absurd h (AList.notMem_empty id)
  | succ m ih =>
    rcases (AList.mem_insert _).mp h with rfl | h
    · rw [toNat_ofNat_of_lt' hm]
      exact Nat.lt_succ_self m
    · exact Nat.lt_succ_of_lt (ih h (Nat.le_of_succ_le hm))

theorem runErrors_append (s : Scheduler Unit Unit) (ops more : List (ErrorOperation Unit)) :
    s.runErrors (ops++more) = (s.runErrors ops).runErrors more := by
  rw [runErrors,map_append,run_append]
  rfl

theorem runErrors_take (s : Scheduler Unit Unit) : s.runErrors [.take] = s.takePendingError.1 := rfl

theorem runErrors_records (n : ℕ) :
    (new () : Scheduler Unit Unit).runErrors (List.replicate n (.record ())) = held n n := by
  have hstart : (new () : Scheduler Unit Unit) = held 0 0 := rfl
  rw [hstart]
  suffices h : ∀ k, (held k k).runErrors (List.replicate n (.record ())) = held (k+n) (k+n) by
    simpa using h 0
  induction n with
  | zero => exact fun _ => rfl
  | succ n ih =>
    intro k
    have hstep : ((held k k).recordError ()).1 = held (k+1) (k+1) := by
      simp [Scheduler.recordError,held,firstErrors,range_succ]
    show ((held k k).recordError ()).1.runErrors (List.replicate n (.record ())) = _
    rw [hstep,ih]
    congr 1 <;> omega

theorem forgetError_held (hm : 0 < m) (hlt : m < n) (hn : 2*(n-m) < n) (hbound : n < 2 ^ 64) :
    (held n (m+1)).forgetError (ofNat m) = held n m := by
  have hlookup : (held n (m+1)).pendingErrors.lookup (ofNat m) = some () := AList.lookup_insert _
  have herase : (firstErrors (m+1)).erase (ofNat m) = firstErrors m := by
    refine Tally.erase_insert (fun hmem => ?_) ()
    have hlt := mem_firstErrors hmem (by omega)
    rw [toNat_ofNat_of_lt' (by show m < 2 ^ 64; omega)] at hlt
    omega
  have hsome : (firstErrors m).entries.isEmpty = false := by
    obtain ⟨m,rfl⟩ := Nat.exists_eq_add_one_of_ne_zero (Nat.pos_iff_ne_zero.mp hm)
    rfl
  have hfew : fewStale (ofNat (n-m)) errorCompactionThreshold ((List.range n).map ofNat).length = true := by
    rw [fewStale_iff,length_map,length_range,toNat_ofNat_of_lt' (by show n-m < 2 ^ 64; omega)]
    exact .inr (by omega)
  have hadd : ofNat (n-(m+1))+1 = ofNat (n-m) := by
    rw [show n-m = n-(m+1)+1 by omega,ofNat_add]
    rfl
  have hstale : (held n (m+1)).staleErrors+1 = ofNat (n-m) := hadd
  have hr : (held n (m+1)).pendingErrors.erase (ofNat m) = firstErrors m := herase
  simp only [Scheduler.forgetError,hlookup,hr,hsome,hstale,Option.isNone_some,Bool.false_eq_true,if_false]
  exact if_pos hfew

theorem runErrors_forgetDown (k : ℕ) (hm : 0 < m) (hle : m+k ≤ n) (hn : 2*(n-m) < n) (hbound : n < 2 ^ 64) :
    (held n (m+k)).runErrors (forgetDown m k) = held n m := by
  induction k with
  | zero => rfl
  | succ k ih =>
    have hstep := forgetError_held (n := n) (m := m+k) (by omega) (by omega) (by omega) hbound
    show ((held n (m+k+1)).forgetError (ofNat (m+k))).runErrors (forgetDown m k) = held n m
    rw [hstep]
    exact ih (by omega)

theorem lookup_firstErrors {i : ℕ} (h : i < m) : (firstErrors m).lookup (ofNat i) = some () := by
  induction m with
  | zero => cases h
  | succ m ih =>
    by_cases heq : ofNat i = ofNat m
    · rw [firstErrors,heq,AList.lookup_insert]
    · rw [firstErrors,AList.lookup_insert_ne heq]
      exact ih (Nat.lt_of_le_of_ne (Nat.le_of_lt_succ h) fun hi => heq (congrArg _ hi))

/-- Taking the first error shortens the queue and leaves the stale ids. -/
theorem takePendingError_held (hm : 1 < m) : (held (n+1) m).takePendingError.1.staleErrors = ofNat (n+1-m) ∧
    (held (n+1) m).takePendingError.1.pendingErrorOrder.length = n := by
  have hfirst : (firstErrors m).lookup (ofNat 0) = some () := lookup_firstErrors (by omega)
  have hnext : ((firstErrors m).erase (ofNat 0)).lookup (ofNat 1) = some () := by
    rw [AList.lookup_erase_ne (by decide)]
    exact lookup_firstErrors hm
  have hne : ((firstErrors m).erase (ofNat 0)).entries.isEmpty = false := by
    by_contra hempty
    have hnil : ((firstErrors m).erase (ofNat 0)).entries = [] := by simpa using hempty
    rw [AList.lookup,hnil] at hnext
    cases hnext
  have horder : (held (n+1) m).pendingErrorOrder =
      ofNat 0::((List.range n).map Nat.succ).map ofNat := by
    show (List.range (n+1)).map ofNat = _
    rw [range_succ_eq_map,map_cons]
  have ht : takeLoop (held (n+1) m).pendingErrors (held (n+1) m).pendingErrorOrder (held (n+1) m).staleErrors =
      ((firstErrors m).erase (ofNat 0),((List.range n).map Nat.succ).map ofNat,ofNat (n+1-m),
        some ()) := by
    rw [horder]
    show takeLoop (firstErrors m) _ (ofNat (n+1-m)) = _
    simp only [takeLoop,hfirst,hne,Bool.false_eq_true,if_false]
  simp only [Scheduler.takePendingError,ht,length_map,length_range,and_self]

/-- After 2049 records, 1024 of which are forgotten, taking one error leaves 1024 stale ids in a queue of 2048. -/
theorem stale_half_queue : ∃ s : Scheduler Unit Unit,
    s = (new ()).runErrors (List.replicate 2049 (.record ())++forgetDown 1025 1024++[.take]) ∧
      s.staleErrors = errorCompactionThreshold ∧ s.pendingErrorOrder.length = 2048 ∧
      ¬(s.staleErrors < errorCompactionThreshold ∨ s.staleErrors.toNat < (s.pendingErrorOrder.length+1) / 2) := by
  have hforgotten : (new () : Scheduler Unit Unit).runErrors (List.replicate 2049 (.record ())++forgetDown 1025 1024) =
      held (2048+1) 1025 := by
    rw [runErrors_append,runErrors_records]
    exact runErrors_forgetDown 1024 (by decide) (by decide) (by decide) (by decide)
  obtain ⟨hstale,hlength⟩ := takePendingError_held (n := 2048) (m := 1025) (by decide)
  have hthreshold : ofNat (2048+1-1025) = errorCompactionThreshold := rfl
  refine ⟨(held (2048+1) 1025).takePendingError.1,?_,hstale,hlength,?_⟩
  · rw [runErrors_append,hforgotten]
    exact (runErrors_take _).symm
  · rw [hstale,hlength,hthreshold]
    decide

end
end Whim.Scheduler
