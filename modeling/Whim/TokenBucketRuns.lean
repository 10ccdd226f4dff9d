import Whim.TokenBucket

/-!
# Histories of a token bucket

Calls at times that never decrease. The credit of a key bounds what is granted from its state on, and a state settled
at the first call of a window is less than an interval old.
-/

namespace Whim.TokenBucket

open List OrderedMap

inductive CallKind
  | hit | peek
  deriving DecidableEq

/-- A call for a key, at a time of the clock. -/
structure Call (K : Type) where
  kind : CallKind
  key : K
  now : SystemTime
  valid : now.Valid

variable {K : Type} [DecidableEq K]

namespace Limiter

variable (limiter : Limiter)

def perform (buckets : Buckets K) (call : Call K) : Buckets K × Except Fault Decision :=
  match call.kind with
  | .hit => limiter.hit buckets call.key call.now
  | .peek => limiter.peek buckets call.key call.now

/-- The buckets after a history. -/
def after (buckets : Buckets K) (calls : List (Call K)) : Buckets K :=
  calls.foldl (fun buckets call => (limiter.perform buckets call).1) buckets

/-- The calls of a history with their answers. -/
def answers (buckets : Buckets K) : List (Call K) → List (Call K × Except Fault Decision)
  | [] => []
  | call::calls => (call,(limiter.perform buckets call).2)::answers (limiter.perform buckets call).1 calls

end Limiter

/-- An allowed hit for a key in a closed window. -/
def isGrant (key : K) (start stop : ℤ) (call : Call K) : Except Fault Decision → Bool
  | .ok (.allowed _) => call.kind == .hit && call.key == key && start ≤ call.now.total && call.now.total ≤ stop
  | _ => false

def granted (key : K) (start stop : ℤ) (log : List (Call K × Except Fault Decision)) : ℕ :=
  log.countP fun entry => isGrant key start stop entry.1 entry.2

/-- The times of a history do not decrease. -/
def InOrder (calls : List (Call K)) : Prop := calls.Pairwise fun call later => call.now.total ≤ later.now.total

namespace Limiter

variable {limiter : Limiter} {buckets : Buckets K} {call : Call K}

/-- No key has more permits than the burst, and all are settled up to a time that has passed. -/
def Keeps (limiter : Limiter) (buckets : Buckets K) (passed : ℤ) : Prop :=
  ∀ key state, OrderedMap.lookup buckets key = some state →
    state.1 ≤ limiter.burst ∧ state.2.Valid ∧ state.2.total ≤ passed

/-- The state to which a call settles its key. -/
structure SettledTo (limiter : Limiter) (buckets : Buckets K) (call : Call K) (state : ℕ × SystemTime) : Prop where
  current : limiter.Current call.now state
  settles : ∀ before, lookup buckets call.key = some before → limiter.Settles before call.now state

/-- What a call does: it throws and changes nothing, or it settles its key and answers. -/
inductive Served (limiter : Limiter) (buckets : Buckets K) (call : Call K) :
    Buckets K × Except Fault Decision → Prop
  | failed (before : ℕ × SystemTime) (hbefore : lookup buckets call.key = some before)
      (hfar : 2 ^ 63*nanosecondsPerSecond ≤ call.now.total-before.2.total) :
      Served limiter buckets call (buckets,.error .overflow)
  | denied (state : ℕ × SystemTime) (retryAfter : Duration) (hsettled : limiter.SettledTo buckets call state)
      (hnone : state.1 = 0)
      (hretry : retryAfter.total = limiter.interval.total-(call.now.total-state.2.total)) :
      Served limiter buckets call (insert buckets call.key state,.ok (.denied retryAfter))
  | allowed (state : ℕ × SystemTime) (after : Buckets K) (remaining : ℕ)
      (hsettled : limiter.SettledTo buckets call state) (hsome : 0 < state.1)
      (hafter : ∀ key, OrderedMap.lookup after key = if call.key = key
        then some (if call.kind = .hit then state.1-1 else state.1,state.2) else OrderedMap.lookup buckets key) :
      Served limiter buckets call (after,.ok (.allowed remaining))

theorem keeps_nil (ps : ℤ) : limiter.Keeps ([] : Buckets K) ps := nofun

variable {ps : ℤ}

theorem Keeps.mono {l : ℤ} (h : limiter.Keeps buckets ps) (hle : ps ≤ l) : limiter.Keeps buckets l :=
  fun key state hstate => ⟨(h key state hstate).1,(h key state hstate).2.1,(h key state hstate).2.2.trans hle⟩

theorem lookup_insert_eq (key key' : K) (state : ℕ × SystemTime) : lookup (insert buckets key state) key' =
      if key = key' then some state else lookup buckets key' := by
  rw [lookup_insert]
  simp only [beq_iff_eq]

/-- A call settles its key, unless its last settlement is too long ago. -/
theorem refill_cases (h : limiter.Keeps buckets ps) (hpassed : ps ≤ call.now.total) :
    (limiter.refill buckets call.key call.now = .error .overflow ∧ ∃ b, lookup buckets call.key = some b ∧
      2 ^ 63*nanosecondsPerSecond ≤ call.now.total-b.2.total) ∨
    ∃ state, limiter.refill buckets call.key call.now = .ok (insert buckets call.key state,state) ∧
      limiter.SettledTo buckets call state := by
  unfold refill
  cases hlookup : lookup buckets call.key with
  | none => exact .inr ⟨_,rfl,current_burst call.valid,by simp [hlookup]⟩
  | some b =>
    obtain ⟨permits,refilled⟩ := b
    obtain ⟨hburst,hvalid,hle⟩ := h _ _ hlookup
    by_cases hf : call.now.total-refilled.total < 2 ^ 63*nanosecondsPerSecond
    · obtain ⟨d,helapsed,hnn,htotal⟩ :=
        SystemTime.durationSince_ok call.valid hvalid (hle.trans hpassed) hf
      obtain ⟨state,hstate,hsettles⟩ := settle_settles hburst hvalid call.valid hnn htotal
      refine .inr ⟨state,?_,hsettles.current,?_⟩
      · simp only [helapsed,ok_bind,hstate]
        rfl
      · rintro _ hbefore
        cases hlookup.symm.trans hbefore
        exact hsettles
    · refine .inl ⟨?_,_,rfl,not_lt.mp hf⟩
      simp only [SystemTime.durationSince_overflow call.valid hvalid (not_lt.mp hf),error_bind]

variable {state : ℕ × SystemTime}

/-- A key without permits is told the rest of its interval. -/
theorem deny_eq {now : SystemTime} (hnow : now.Valid) (h : limiter.Current now state) :
    ∃ retryAfter, limiter.deny state.2 now = .ok (.denied retryAfter) ∧
      retryAfter.total = limiter.interval.total-(now.total-state.2.total) := by
  have hrecent := h.recent
  have hf : now.total-state.2.total < 2 ^ 63*nanosecondsPerSecond := by
    have hs := limiter.nonneg.seconds_lt
    have hn := limiter.nonneg.nanoseconds_lt
    simp only [Duration.total,nanosecondsPerSecond] at *
    omega
  obtain ⟨d,helapsed,hnn,htotal⟩ := SystemTime.durationSince_ok hnow h.valid h.le_now hf
  obtain ⟨retryAfter,hretry,hretryTotal⟩ := limiter.nonneg.minus hnn (by omega)
  refine ⟨retryAfter,?_,by omega⟩
  rw [deny,helapsed,ok_bind,hretry,ok_bind]
  rfl

theorem perform_served (h : limiter.Keeps buckets ps) (hpassed : ps ≤ call.now.total) :
    limiter.Served buckets call (limiter.perform buckets call) := by
  rcases refill_cases h hpassed with ⟨hrefill,b,hbefore,hfar⟩ | ⟨state,hrefill,hsettled⟩
  · have hfailed : limiter.perform buckets call = (buckets,.error .overflow) := by
      unfold perform hit peek
      simp only [hrefill]
      split <;> rfl
    rw [hfailed]
    exact .failed b hbefore hfar
  rcases Nat.eq_zero_or_pos state.1 with hn | hsome
  · obtain ⟨retryAfter,hdeny,hretry⟩ := deny_eq call.valid hsettled.current
    have hdenied : limiter.perform buckets call =
        (insert buckets call.key state,.ok (.denied retryAfter)) := by
      unfold perform hit peek
      simp only [hrefill,hn,if_true,hdeny]
      split <;> rfl
    rw [hdenied]
    exact .denied state retryAfter hsettled hn hretry
  · unfold perform hit peek
    simp only [hrefill,hsome.ne',if_false]
    cases hk : call.kind with
    | hit =>
      refine .allowed state _ _ hsettled hsome fun key => ?_
      simp only [lookup_insert_eq,hk]
      split <;> rfl
    | peek =>
      refine .allowed state _ _ hsettled hsome fun key => ?_
      simp only [lookup_insert_eq,hk]
      rfl

variable {r : Buckets K × Except Fault Decision}

theorem Served.keeps (hserved : limiter.Served buckets call r) (h : limiter.Keeps buckets ps)
    (hpassed : ps ≤ call.now.total) : limiter.Keeps r.1 call.now.total := by
  cases hserved with
  | failed => exact h.mono hpassed
  | denied _ _ hsettled =>
    intro key o ho
    rw [lookup_insert_eq] at ho
    split at ho
    · cases ho
      exact ⟨hsettled.current.le_burst,hsettled.current.valid,hsettled.current.le_now⟩
    · exact h.mono hpassed key o ho
  | allowed _ _ _ hsettled _ hafter =>
    intro key o ho
    rw [hafter] at ho
    split at ho
    · cases ho
      have hburst := hsettled.current.le_burst
      exact ⟨by dsimp only; split <;> omega,hsettled.current.valid,hsettled.current.le_now⟩
    · exact h.mono hpassed key o ho

theorem Served.lookup_other (hserved : limiter.Served buckets call r) {key : K} (hkey : call.key ≠ key) :
    lookup r.1 key = lookup buckets key := by
  cases hserved with
  | failed => rfl
  | denied => rw [lookup_insert_eq,if_neg hkey]
  | allowed _ _ _ _ _ hafter => rw [hafter,if_neg hkey]

theorem perform_keeps (h : limiter.Keeps buckets ps) (hpassed : ps ≤ call.now.total) :
    limiter.Keeps (limiter.perform buckets call).1 call.now.total := (perform_served h hpassed).keeps h hpassed

variable {calls : List (Call K)}

section
variable (horder : InOrder calls) (h : limiter.Keeps buckets ps) (hpassed : ∀ call ∈ calls, ps ≤ call.now.total)
include horder h hpassed

theorem after_keeps {last : ℤ} (hle : ps ≤ last)
    (hl : ∀ call ∈ calls, call.now.total ≤ last) : limiter.Keeps (limiter.after buckets calls) last := by
  induction calls generalizing buckets ps with
  | nil => exact h.mono hle
  | cons _ _ ih =>
    rw [InOrder,pairwise_cons] at horder
    rw [forall_mem_cons] at hpassed hl
    exact ih horder.2 (perform_keeps h hpassed.1) horder.1 hl.1 hl.2

theorem after_lookup_other {key : K} (ho : ∀ call ∈ calls, call.key ≠ key) :
    lookup (limiter.after buckets calls) key = lookup buckets key := by
  induction calls generalizing buckets ps with
  | nil => rfl
  | cons _ _ ih =>
    rw [InOrder,pairwise_cons] at horder
    rw [forall_mem_cons] at hpassed ho
    exact (ih horder.2 (perform_keeps h hpassed.1) horder.1 ho.2).trans
      ((perform_served h hpassed.1).lookup_other ho.1)

end

section

variable {key : K} {i stop : ℤ}

/-- The window and the key of a grant. -/
theorem of_isGrant {a : Except Fault Decision} (h : isGrant key i stop call a) :
    call.kind = .hit ∧ call.key = key ∧ i ≤ call.now.total ∧ call.now.total ≤ stop := by
  unfold isGrant at h
  split at h
  · simpa only [Bool.and_eq_true,beq_iff_eq,decide_eq_true_eq,and_assoc] using h
  · cases h

theorem granted_cons (calls : List (Call K)) : granted key i stop (limiter.answers buckets (call::calls)) =
    granted key i stop (limiter.answers (limiter.perform buckets call).1 calls) +
      if isGrant key i stop call (limiter.perform buckets call).2 then 1 else 0 := countP_cons

theorem granted_eq_zero (h : ∀ call ∈ calls, stop < call.now.total) (buckets : Buckets K) :
    granted key i stop (limiter.answers buckets calls) = 0 := by
  induction calls generalizing buckets with
  | nil => rfl
  | cons _ _ ih =>
    rw [forall_mem_cons] at h
    rw [granted_cons,ih h.2,if_neg fun hgrant => h.1.not_ge (of_isGrant hgrant).2.2.2]

theorem credit_nonneg (h : state.2.total ≤ stop) : 0 ≤ limiter.credit state stop :=
  add_nonneg (Int.natCast_nonneg _) (Int.ediv_nonneg (sub_nonneg.mpr h) limiter.positive.le)

/-- A call that does not throw pays for what it grants with the credit of the state it settled. -/
theorem Served.grants (hserved : limiter.Served buckets call r) (hstop : call.now.total ≤ stop) {rest : ℕ}
    (hr : ∀ state, lookup r.1 call.key = some state → state.2.total ≤ stop → (rest : ℤ) ≤ limiter.credit state stop) :
    r = (buckets,.error .overflow) ∨ ∃ state, limiter.SettledTo buckets call state ∧
      ((rest+if isGrant call.key i stop call r.2 then 1 else 0 : ℕ) : ℤ) ≤ limiter.credit state stop := by
  cases hserved with
  | failed => exact .inl rfl
  | denied state _ hsettled =>
    refine .inr ⟨state,hsettled,?_⟩
    exact hr state (by rw [lookup_insert_eq,if_pos rfl]) (hsettled.current.le_now.trans hstop)
  | allowed state _ _ hsettled _ hafter =>
    refine .inr ⟨state,hsettled,?_⟩
    have hle := hr _ ((hafter call.key).trans (if_pos rfl)) (hsettled.current.le_now.trans hstop)
    simp only [credit] at hle ⊢
    by_cases hk : call.kind = .hit
    · rw [if_pos hk] at hle
      split <;> omega
    · rw [if_neg hk] at hle
      rw [if_neg fun hgrant => hk (of_isGrant hgrant).1]
      exact hle

/-- From a state on, a key is granted at most its credit. -/
theorem granted_le_credit (horder : InOrder calls)
    (h : limiter.Keeps buckets ps) (hpassed : ∀ call ∈ calls, ps ≤ call.now.total)
    (hstate : lookup buckets key = some state) (hstop : state.2.total ≤ stop) :
    (granted key i stop (limiter.answers buckets calls) : ℤ) ≤ limiter.credit state stop := by
  induction calls generalizing buckets ps state with
  | nil => exact credit_nonneg hstop
  | cons call _ ih =>
    rw [InOrder,pairwise_cons] at horder
    rw [forall_mem_cons] at hpassed
    have hserved := perform_served h hpassed.1
    have hkeeps := hserved.keeps h hpassed.1
    by_cases hlate : stop < call.now.total
    · rw [granted_eq_zero (forall_mem_cons.mpr ⟨hlate,fun l hlater => hlate.trans_le (horder.1 l hlater)⟩)]
      exact credit_nonneg hstop
    rw [granted_cons]
    by_cases hkey : call.key = key
    · subst hkey
      rcases hserved.grants (not_lt.mp hlate) fun _ => ih horder.2 hkeeps horder.1 with hfailed | ⟨settled,hsettled,hle⟩
      · rw [hfailed]
        exact ih horder.2 (h.mono hpassed.1) horder.1 hstate hstop
      · exact hle.trans ((hsettled.settles state hstate).credit_le stop (not_lt.mp hlate))
    · rw [if_neg fun hgrant => hkey (of_isGrant hgrant).2.1]
      exact ih horder.2 hkeeps horder.1 ((hserved.lookup_other hkey).trans hstate) hstop

/-- The state of a key at its first call in a window. -/
theorem Current.credit_le {now : SystemTime} (h : limiter.Current now state) (hstart : i ≤ now.total) (n : ℕ) :
    limiter.credit state (i+n) ≤ limiter.burst+n / limiter.interval.total+1 := by
  have hburst := h.le_burst
  have hdiv : (i+n-state.2.total) / limiter.interval.total ≤ n / limiter.interval.total+1 := by
    have hrecent := h.recent
    rw [← Int.add_mul_ediv_right _ _ limiter.positive.ne',one_mul]
    exact Int.ediv_le_ediv limiter.positive (by omega)
  simp only [credit]
  omega

theorem granted_window_le (horder : InOrder calls)
    (h : limiter.Keeps buckets ps) (hpassed : ∀ call ∈ calls, ps ≤ call.now.total) (n : ℕ) :
    (granted key i (i+n) (limiter.answers buckets calls) : ℤ) ≤ limiter.burst+n / limiter.interval.total+1 := by
  induction calls generalizing buckets ps with
  | nil =>
    have hnn := Int.ediv_nonneg (Int.natCast_nonneg n) limiter.positive.le
    simp only [answers,granted,countP_nil]
    omega
  | cons call _ ih =>
    rw [InOrder,pairwise_cons] at horder
    rw [forall_mem_cons] at hpassed
    have hserved := perform_served h hpassed.1
    have hkeeps := hserved.keeps h hpassed.1
    rw [granted_cons]
    by_cases hin : call.key = key ∧ i ≤ call.now.total ∧ call.now.total ≤ i+n
    · obtain ⟨rfl,hstart,hstop⟩ := hin
      rcases hserved.grants hstop fun _ => granted_le_credit horder.2 hkeeps horder.1 with
        hfailed | ⟨settled,hsettled,hle⟩
      · rw [hfailed]
        exact ih horder.2 (h.mono hpassed.1) horder.1
      · exact hle.trans (hsettled.current.credit_le hstart n)
    · rw [if_neg fun hgrant => hin (of_isGrant hgrant).2]
      exact ih horder.2 hkeeps horder.1

end

section

variable {key : K}

/-- A time that is no duration after the settlement is not counted. -/
theorem late_overflows (h : limiter.Keeps buckets ps) (hpassed : ps ≤ call.now.total)
    (hstate : lookup buckets call.key = some state)
    (hfar : 2 ^ 63*nanosecondsPerSecond ≤ call.now.total-state.2.total) :
    (limiter.perform buckets call).2 = .error .overflow := by
  have hserved := perform_served h hpassed
  generalize limiter.perform buckets call = r at hserved
  cases hserved with
  | failed => rfl
  | denied _ _ hsettled => exact absurd (hsettled.settles state hstate).fits hfar.not_gt
  | allowed _ _ _ hsettled => exact absurd (hsettled.settles state hstate).fits hfar.not_gt

/-- A key without permits gets one when an interval has passed since its settlement. -/
theorem allowed_iff (h : limiter.Keeps buckets ps) (hpassed : ps ≤ call.now.total)
    (hstate : lookup buckets call.key = some state)
    (hn : state.1 = 0) : (∃ remaining, (limiter.perform buckets call).2 = .ok (.allowed remaining)) ↔
      limiter.interval.total ≤ call.now.total-state.2.total ∧
      call.now.total-state.2.total < 2 ^ 63*nanosecondsPerSecond := by
  have hserved := perform_served h hpassed
  generalize limiter.perform buckets call = r at hserved
  cases hserved with
  | failed _ hbefore hfar =>
    cases hstate.symm.trans hbefore
    exact ⟨fun ⟨_,hallowed⟩ => (nomatch hallowed),fun hsoon => absurd hfar hsoon.2.not_ge⟩
  | denied _ _ hsettled hsettledNone =>
    have hpos := (hsettled.settles state hstate).pos_iff
    simp only [hsettledNone,hn,lt_irrefl,false_or,false_iff] at hpos
    simp [hpos]
  | allowed _ _ remaining hsettled hsome =>
    have hsettles := hsettled.settles state hstate
    have hpos := hsettles.pos_iff.mp hsome
    rw [hn] at hpos
    exact ⟨fun _ => ⟨hpos.resolve_left (lt_irrefl 0),hsettles.fits⟩,fun _ => ⟨remaining,rfl⟩⟩

/-- A denied call leaves its key without permits, settled an interval before the time it was told to come back. -/
theorem Served.of_denied (hserved : limiter.Served buckets call r) {retryAfter : Duration}
    (hdenied : r.2 = .ok (.denied retryAfter)) :
    0 < retryAfter.total ∧ ∃ state, lookup r.1 call.key = some state ∧ state.1 = 0 ∧
      state.2.total = call.now.total+retryAfter.total-limiter.interval.total := by
  cases hserved with
  | failed => cases hdenied
  | denied state _ hsettled hn =>
    cases hdenied
    have hrecent := hsettled.current.recent
    refine ⟨by omega,state,?_,hn,by omega⟩
    rw [lookup_insert_eq,if_pos rfl]
  | allowed => cases hdenied

end

/-- A key is granted at most the burst, one permit for each interval of a window and one more. A denied hit is told
after how long a hit is allowed, if no other call of the key comes first; only a hit so late that the time since the
last settlement is no duration throws. -/
theorem grants_and_retries (limiter : Limiter) (calls : List (Call K)) (horder : InOrder calls) (key : K) :
    (∀ (start : ℤ) (length : ℕ), (granted key start (start+length) (limiter.answers [] calls) : ℤ) ≤
      limiter.burst+length / limiter.interval.total+1) ∧
    ∀ earlier hit rest retryAfter, calls = earlier++hit::rest → hit.kind = .hit → hit.key = key →
      (limiter.perform (limiter.after [] earlier) hit).2 = .ok (.denied retryAfter) → 0 < retryAfter.total ∧
      ∀ others later last, rest = others++later::last → (∀ call ∈ others, call.key ≠ key) →
        later.kind = .hit → later.key = key →
        ((∃ remaining, (limiter.perform (limiter.after [] (earlier++hit::others)) later).2 =
            .ok (.allowed remaining)) ↔ hit.now.total+retryAfter.total ≤ later.now.total ∧
          later.now.total-(hit.now.total+retryAfter.total-limiter.interval.total) < 2 ^ 63*nanosecondsPerSecond) ∧
        (2 ^ 63*nanosecondsPerSecond ≤ later.now.total-(hit.now.total+retryAfter.total-limiter.interval.total) →
          (limiter.perform (limiter.after [] (earlier++hit::others)) later).2 = .error .overflow) := by
  refine ⟨fun start length => ?_,?_⟩
  · cases calls with
    | nil => exact granted_window_le horder (keeps_nil 0) (forall_mem_nil _) length
    | cons call =>
      exact granted_window_le horder (keeps_nil call.now.total)
        (forall_mem_cons.mpr ⟨le_rfl,(pairwise_cons.mp horder).1⟩) length
  rintro earlier hit rest retryAfter rfl - rfl hdenied
  obtain ⟨hearlier,hrest,hcross⟩ := pairwise_append.mp horder
  have hkeeps : limiter.Keeps (limiter.after [] earlier) hit.now.total := by
    cases earlier with
    | nil => exact keeps_nil _
    | cons call =>
      refine after_keeps hearlier (keeps_nil call.now.total) ?_ (hcross call mem_cons_self hit mem_cons_self)
        fun call hcall => hcross call hcall hit mem_cons_self
      exact forall_mem_cons.mpr ⟨le_rfl,(pairwise_cons.mp hearlier).1⟩
  have hserved := perform_served hkeeps le_rfl
  obtain ⟨hpos,state,hstate,hnone,htotal⟩ := hserved.of_denied hdenied
  refine ⟨hpos,?_⟩
  rintro others later last rfl hother - hlaterKey
  obtain ⟨hafter,hrest⟩ := pairwise_cons.mp hrest
  obtain ⟨hothers,-,hothersCross⟩ := pairwise_append.mp hrest
  have hkeepsAfter := hserved.keeps hkeeps le_rfl
  have hpassed : ∀ call ∈ others, hit.now.total ≤ call.now.total :=
    fun call hcall => hafter call (mem_append_left _ hcall)
  have hsplit : limiter.after [] (earlier++hit::others) =
      limiter.after (limiter.perform (limiter.after [] earlier) hit).1 others :=
    foldl_append ..
  have hlater : hit.now.total ≤ later.now.total := hafter later (by simp)
  have hkeepsLater : limiter.Keeps (limiter.after (limiter.perform (limiter.after [] earlier) hit).1 others)
      later.now.total :=
    after_keeps hothers hkeepsAfter hpassed hlater fun call hcall => hothersCross call hcall later (by simp)
  have hlookup : lookup (limiter.after (limiter.perform (limiter.after [] earlier) hit).1 others) later.key =
      some state := by
    rw [hlaterKey,after_lookup_other hothers hkeepsAfter hpassed hother,hstate]
  rw [hsplit,allowed_iff hkeepsLater le_rfl hlookup hnone]
  refine ⟨by omega,fun hfar => late_overflows hkeepsLater le_rfl hlookup ?_⟩
  rwa [htotal]

/-- One permit, and a new one each second. -/
def everySecond : Limiter where
  burst := 1
  interval := ⟨1,0⟩
  burst_pos := by decide
  burst_lt := by decide
  nonneg := ⟨by decide,by decide,by decide,by decide⟩
  positive := by decide

def hitAt (seconds : ℤ) (hlow : -2 ^ 63 ≤ seconds) (hhigh : seconds < 2 ^ 63) : Call Unit where
  kind := .hit
  key := ()
  now := ⟨seconds,0⟩
  valid := ⟨hlow,hhigh,le_rfl,show 0 < nanosecondsPerSecond by decide⟩

def hitNow : Call Unit := hitAt (-1) (by decide) (by decide)

def hitSoon : Call Unit := hitAt 1 (by decide) (by decide)

def hitLast : Call Unit := hitAt (2 ^ 63-1) (by decide) (by decide)

theorem grants_and_retries_everySecond : InOrder [hitNow,hitNow,hitSoon] ∧
    (∀ (start : ℤ) (length : ℕ), (granted () start (start+length)
      (everySecond.answers [] [hitNow,hitNow,hitSoon]) : ℤ) ≤ 1+length / 1000000000+1) ∧
    ∃ remaining, (everySecond.perform (everySecond.after [] [hitNow,hitNow]) hitSoon).2 = .ok (.allowed remaining) := by
  have horder : InOrder [hitNow,hitNow,hitSoon] := by
    unfold InOrder
    decide
  have hresult := grants_and_retries everySecond [hitNow,hitNow,hitSoon] horder ()
  refine ⟨horder,hresult.1,?_⟩
  have hretry := hresult.2 [hitNow] hitNow [hitSoon] ⟨1,0⟩ rfl rfl rfl (by decide +kernel)
  exact (hretry.2 [] hitSoon [] rfl (forall_mem_nil _) rfl rfl).1.mpr (by decide +kernel)

/-- A denied hit is told to come back after a second. A hit in the last second of the clock throws instead. -/
theorem late_hit_throws : InOrder [hitNow,hitNow,hitLast] ∧
    (everySecond.perform (everySecond.after [] [hitNow]) hitNow).2 = .ok (.denied ⟨1,0⟩) ∧
    hitNow.now.total+(⟨1,0⟩ : Duration).total ≤ hitLast.now.total ∧
    (everySecond.perform (everySecond.after [] [hitNow,hitNow]) hitLast).2 = .error .overflow := by
  unfold InOrder
  decide +kernel

end Limiter
end Whim.TokenBucket
