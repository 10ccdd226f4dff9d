import Whim.PoolAccounting

/-!
# Nobody waits while a connection could be opened

No call stays behind while there is an idle entry or room for another connection, as long as no token is cancelled
between the moment its call is woken for room and the moment the call runs.
-/

namespace Whim.Pool

open Waiting Option List

variable {s s' : System} {slack entry : ℕ}

/-- Calls that were woken because there is room. -/
def isNull (_ : Unit) (value : Option ℕ) : Bool := value.isNone

/-- What a waiting call could use: connections that may still be opened, and idle entries. -/
def State.offers (s : State) : ℕ := s.configuration.maximumConnections-s.openConnections+s.idle.length

/-- A run keeps this: where someone waits, everything on offer has a call that was woken for it and has not run yet. In
the middle of a step one may be missing. -/
structure Heard (slack : ℕ) (s : System) : Prop where
  sound : s.waits.Sound
  live : s.waits.Live isNull
  opened : s.state.closed = false
  waiters : ∀ id ∈ s.state.pending, s.waits.isActive id = true → s.state.offers ≤ s.waits.resumed isNull+slack

theorem heard_new (configuration : Configuration) : Heard 0 (.new configuration) := ⟨.new,.new,rfl,forall_mem_nil _⟩

theorem Heard.weaken (h : Heard slack s) : Heard (slack+1) s :=
  { h with waiters := fun id hid hactive => Nat.le_succ_of_le (h.waiters id hid hactive) }

/-- Only what is on offer has changed. -/
theorem Heard.offer {slack' : ℕ} (h : Heard slack s) (state : State) (hopened : state.closed = s.state.closed)
    (hpending : state.pending = s.state.pending) (hoffers : state.offers+slack ≤ s.state.offers+slack') :
    Heard slack' { s with state } :=
  { h with
    opened := hopened.trans h.opened
    waiters := fun id hid hactive => by
      have hle := h.waiters id (hpending ▸ hid) hactive
      show state.offers ≤ s.waits.resumed isNull+slack'
      omega }

theorem Heard.wakeForCapacity (h : Heard (slack+1) s) : Heard slack s.wakeForCapacity := by
  rw [System.wakeForCapacity,if_neg (by rw [h.opened]; decide)]
  rcases s.waits.wakeFirst_cases (.resume none) s.state.pending with
    ⟨_,heq⟩ | ⟨before,id,after,hpending,_,hactive,heq⟩
  · rw [heq]
    exact ⟨h.sound,h.live,h.opened,forall_mem_nil _⟩
  rw [heq]
  obtain ⟨x,hx,hxactive⟩ := Waits.isActive_iff.mp hactive
  refine ⟨h.sound.resolve hactive,h.live.resolve hactive,h.opened,fun o ho hactive' => ?_⟩
  have hle := h.waiters o (by simp [hpending,ho]) (Waits.isActive_of_resolve hx hactive')
  have hres := h.sound.resumed_resume isNull hx hxactive none
  show s.state.offers ≤ (s.waits.resolve id (.resume none)).resumed isNull+slack
  rw [hres]
  dsimp only [isNull,isNone_none,Bool.toNat_true]
  omega

theorem Heard.discard (h : Heard slack s) : Heard slack s.discard := by
  have hfewer : Heard (slack+1)
      { s with state := { s.state with openConnections := s.state.openConnections-1 } } := by
    refine h.offer _ rfl rfl ?_
    simp only [State.offers]
    omega
  exact hfewer.wakeForCapacity

theorem Heard.release (h : Heard slack s) (entry : ℕ) (reusable : Bool) (c : Condition) :
    Heard slack (s.release entry reusable c) := by
  rw [System.release]
  split
  · exact h.discard
  rcases s.waits.wakeFirst_cases (.resume (some entry)) s.state.pending with
    ⟨hf,heq⟩ | ⟨before,id,after,hpending,hf,hactive,heq⟩
  · rw [heq,hf]
    have hnobody : ∀ idle, Heard slack { s with state := { s.state with pending := [], idle } } :=
      fun _ => ⟨h.sound,h.live,h.opened,forall_mem_nil _⟩
    simp only [isSome_none,Bool.false_eq_true,if_false]
    split
    · exact (hnobody s.state.idle).discard
    · exact hnobody (entry::s.state.idle)
  · rw [heq,hf]
    obtain ⟨x,hx,hxactive⟩ := Waits.isActive_iff.mp hactive
    have hres := h.sound.resumed_resume isNull hx hxactive (some entry)
    refine ⟨h.sound.resolve hactive,h.live.resolve hactive,h.opened,fun o ho hactive' => ?_⟩
    have hle := h.waiters o (by simp [hpending]; exact .inr (.inr ho)) (Waits.isActive_of_resolve hx hactive')
    show s.state.offers ≤ (s.waits.resolve id (.resume (some entry))).resumed isNull+slack
    rw [hres]
    exact hle

/-- What the loop over the idle entries leaves to the call. -/
def Found.left : Found → ℕ
  | .entry _ => 0
  | .validate _ => 0
  | .nothing => 1

variable {idle : List ℕ}

theorem Heard.takeIdle (cs : ℕ → Condition) (h : Heard 1 s) (hidle : s.state.idle = idle) :
    Heard (System.takeIdle cs idle s).1.left (System.takeIdle cs idle s).2 := by
  induction idle generalizing s with
  | nil =>
    refine h.offer _ rfl rfl ?_
    simp only [State.offers,hidle,System.takeIdle,Found.left]
    exact Nat.le_refl _
  | cons _ idle ih =>
    have hpop : Heard 0 { s with state := { s.state with idle } } := by
      refine h.offer _ rfl rfl ?_
      simp only [State.offers,hidle,length_cons]
      omega
    rw [System.takeIdle]
    split
    · exact ih hpop.discard.weaken (wakeForCapacity_idle _)
    split
    · exact hpop
    · exact hpop

theorem discard_open (s : System) : s.discard.state.openConnections = s.state.openConnections-1 := by
  rw [System.discard,System.wakeForCapacity]
  split <;> rfl

theorem discard_configuration (s : System) : s.discard.state.configuration = s.state.configuration := by
  rw [System.discard,System.wakeForCapacity]
  split <;> rfl

theorem takeIdle_open (cs : ℕ → Condition) (idle : List ℕ) (s : System) :
    (System.takeIdle cs idle s).2.state.openConnections ≤ s.state.openConnections := by
  induction idle generalizing s with
  | nil => exact Nat.le_refl _
  | cons _ _ ih =>
    rw [System.takeIdle]
    split
    · refine (ih _).trans ?_
      rw [discard_open]
      exact Nat.sub_le _ _
    · split <;> exact Nat.le_refl _

theorem takeIdle_configuration (cs : ℕ → Condition) (idle : List ℕ) (s : System) :
    (System.takeIdle cs idle s).2.state.configuration = s.state.configuration := by
  induction idle generalizing s with
  | nil => rfl
  | cons _ _ ih =>
    rw [System.takeIdle]
    split
    · exact (ih _).trans (discard_configuration _)
    · split <;> rfl

variable {cs : ℕ → Condition}

/-- Where nothing was found and there is still no room, there was nothing to look at. -/
theorem takeIdle_full (hbounded : s.state.openConnections ≤ s.state.configuration.maximumConnections)
    (hfound : System.takeIdle cs idle s = (.nothing,s'))
    (hfull : ¬ s'.state.openConnections < s'.state.configuration.maximumConnections) :
    s' = { s with state := { s.state with idle := [] } } := by
  cases idle with
  | nil =>
    cases hfound
    rfl
  | cons _ idle =>
    have hpos := s.state.configuration.positive
    rw [System.takeIdle] at hfound
    split at hfound
    · have hopen := takeIdle_open cs idle (System.discard { s with state := { s.state with idle } })
      have hconfiguration :=
        takeIdle_configuration cs idle (System.discard { s with state := { s.state with idle } })
      rw [hfound,discard_open] at hopen
      rw [hfound,discard_configuration] at hconfiguration
      rw [hconfiguration] at hfull
      dsimp only at hopen hfull
      omega
    · split at hfound <;> cases hfound

theorem Heard.openNew (h : Heard 1 s) (hr : s.state.openConnections < s.state.configuration.maximumConnections) :
    Heard 0 s.openNew.2 := by
  have hoffer : Heard 0 { s with state := { s.state with openConnections := s.state.openConnections+1 } } := by
    refine h.offer _ rfl rfl ?_
    simp only [State.offers]
    omega
  exact ⟨hoffer.sound,hoffer.live,hoffer.opened,hoffer.waiters⟩

/-- Nothing is on offer. -/
theorem Heard.of_none (hsound : s.waits.Sound) (hlive : s.waits.Live isNull) (hopened : s.state.closed = false)
    (hn : s.state.offers = 0) : Heard 0 s := ⟨hsound,hlive,hopened,fun _ _ _ => hn.le.trans (Nat.zero_le _)⟩

variable {token : Option ℕ} {expiry : Expiry}

theorem Heard.wait (h : Heard slack s) (hn : s.state.offers = 0)
    (hcareful : expiry = .token → ∀ t, token = some t → s.waits.Unclaimed isNull t) :
    Heard 0 (s.wait token expiry).2 := by
  rw [System.wait]
  split
  · exact .of_none (h.sound.refuse () token .timedOut) (h.sound.live_refuse h.live () token .timedOut) h.opened hn
  rcases s.waits.enter_cases () token (expiry = .token) .cancelled with
    ⟨_,heq⟩ | ⟨htoken,heq | ⟨t,rfl,hexpiry,heq⟩⟩
  · rw [heq]
    exact .of_none (h.sound.refuse () token .cancelled) (h.sound.live_refuse h.live () token .cancelled) h.opened hn
  · rw [heq]
    exact .of_none (h.sound.park () token) (h.live.park () token true htoken) h.opened hn
  rw [heq]
  have hunclaimed := (hcareful (of_decide_eq_true hexpiry) t rfl).park () (some t) true
  have hsound := h.sound.park () (some t)
  have hlive := h.live.park () (some t) true htoken
  exact .of_none ((hsound.cancel t .cancelled).leave _)
    ((Waits.Live.cancel hsound hlive hunclaimed .cancelled).leave _) h.opened hn

theorem Heard.hold (h : Heard slack s) (entry : ℕ) : Heard slack (s.hold entry).2 := ⟨h.sound,h.live,h.opened,h.waiters⟩

theorem Heard.attempt (h : Heard 1 s) (cs : ℕ → Condition)
    (hbounded : s.state.openConnections ≤ s.state.configuration.maximumConnections)
    (hcareful : s.state.configuration.maximumConnections ≤ s.state.openConnections → expiry = .token →
      ∀ t, token = some t → s.waits.Unclaimed isNull t) : Heard 0 (s.attempt token cs expiry).2 := by
  have ht := h.takeIdle cs rfl
  rw [System.attempt]
  split
  next entry _ heq =>
    rw [heq] at ht
    exact ht.hold entry
  next heq =>
    rw [heq] at ht
    exact ⟨ht.sound,ht.live,ht.opened,ht.waiters⟩
  next heq =>
    rw [heq] at ht
    split
    next hr => exact ht.openNew hr
    next hfull =>
      have hs' := takeIdle_full hbounded heq hfull
      subst hs'
      have hle := Nat.le_of_not_lt hfull
      refine ht.wait ?_ (hcareful hle)
      simp only [State.offers,length_nil]
      exact Nat.sub_eq_zero_of_le hle

/-- A token is cancelled only while every call that has it and was woken for room has also run. A call whose token
expires as it begins to wait cancels the token. -/
def Careful (s : System) : Move → Prop
  | .acquire token _ expiry => expiry = .token → ∀ t, token = some t → s.waits.Unclaimed isNull t
  | .proceed id _ expiry => expiry = .token → ∀ x t, s.waits.table.lookup id = some x → x.token = some t →
      (s.waits.leave id).Unclaimed isNull t
  | .cancel token => s.waits.Unclaimed isNull token
  | _ => True

variable {id : ℕ}

theorem Heard.leave (h : Heard 0 s) {x : Wait Unit (Option ℕ) Exception} (hx : s.waits.table.lookup id = some x) :
    Heard (x.resumed isNull).toNat { s with waits := s.waits.leave id } where
  sound := h.sound.leave id
  live := h.live.leave id
  opened := h.opened
  waiters := fun o ho hactive => by
    have hle := h.waiters o ho (Waits.isActive_of_leave hactive)
    have hleave := Waits.resumed_leave isNull hx
    dsimp only
    omega

variable {answer : Return × System}

section
variable (h : Heard 0 s) (hbounded : s.state.openConnections ≤ s.state.configuration.maximumConnections)
include h hbounded

theorem Heard.proceed (hcareful : Careful s (.proceed id cs expiry))
    (hgo : s.proceed id cs expiry = some answer) : Heard 0 answer.2 := by
  rw [System.proceed] at hgo
  split at hgo
  next entry hx =>
    cases hgo
    exact (h.leave hx).hold entry
  next token _ _ hx =>
    cases hgo
    have htoken : s.waits.isCancelled token = false := by
      cases token with
      | none => rfl
      | some t => exact h.live id _ t hx rfl (.inr rfl)
    rw [System.acquire,if_neg (by rw [h.opened]; decide)]
    rw [if_neg (by show ¬ s.waits.isCancelled token = true; rw [htoken]; decide)]
    exact (h.leave hx).attempt cs hbounded fun _ hexpiry t ht => hcareful hexpiry _ t hx ht
  next hx =>
    cases hgo
    exact h.leave hx
  next => cases hgo

theorem Heard.acquire (hcareful : Careful s (.acquire token cs expiry)) : Heard 0 (s.acquire token cs expiry).2 := by
  rw [System.acquire,if_neg (by rw [h.opened]; decide)]
  split
  · exact h
  · exact h.weaken.attempt cs hbounded fun _ => hcareful

theorem Heard.pinged {i : ℕ} {ping : Ping} (hpinged : s.pinged i ping cs expiry = some answer) : Heard 0 answer.2 := by
  rw [System.pinged] at hpinged
  split at hpinged
  next => cases hpinged
  next entry _ _ =>
    have htaken : Heard 0 { s with validating := s.validating.eraseIdx i } := ⟨h.sound,h.live,h.opened,h.waiters⟩
    cases ping with
    | passed =>
      cases hpinged
      exact htaken.hold entry
    | connectionException =>
      cases hpinged
      have hpos := s.state.configuration.positive
      refine htaken.discard.weaken.attempt cs ?_ fun hfull => ?_
      · rw [discard_open,discard_configuration]
        exact (Nat.sub_le _ _).trans hbounded
      · -- An entry has just been discarded, so there is room.
        rw [discard_open,discard_configuration] at hfull
        dsimp only at hfull
        omega
    | threw =>
      cases hpinged
      exact htaken.release entry true (cs entry)

end

theorem Heard.connected (h : Heard 0 s) {success : Bool} (hconnected : s.connected success = some answer) :
    Heard 0 answer.2 := by
  rw [System.connected] at hconnected
  split at hconnected
  next => cases hconnected
  next =>
    cases success with
    | false =>
      cases hconnected
      have hopened : Heard 0 { s with opening := s.opening-1 } := ⟨h.sound,h.live,h.opened,h.waiters⟩
      exact hopened.discard
    | true =>
      rw [if_neg (by decide),if_neg (by rw [h.opened]; decide)] at hconnected
      cases hconnected
      exact ⟨h.sound,h.live,h.opened,h.waiters⟩

theorem Heard.cancel (h : Heard slack s) {token : ℕ} (hunclaimed : s.waits.Unclaimed isNull token) :
    Heard slack { s with waits := s.waits.cancel token .cancelled } where
  sound := h.sound.cancel token .cancelled
  live := Waits.Live.cancel h.sound h.live hunclaimed .cancelled
  opened := h.opened
  waiters := fun id hid hactive => by
    rw [Waits.resumed_cancel]
    exact h.waiters id hid (Waits.isActive_of_cancel hactive)

theorem Heard.timeout (h : Heard slack s) (htimeout : s.timeout id = some s') : Heard slack s' := by
  rw [System.timeout] at htimeout
  split at htimeout <;> cases htimeout
  split
  next hactive =>
    obtain ⟨x,hx,_⟩ := Waits.isActive_iff.mp hactive
    refine ⟨h.sound.resolve hactive,h.live.resolve hactive,h.opened,fun o ho hactive' => ?_⟩
    rw [Waits.resumed_resolve_throw isNull hx]
    exact h.waiters o ho (Waits.isActive_of_resolve hx hactive')
  next => exact h

/-- The moves of an open pool, each of them careful. -/
def Allowed (s : System) (move : Move) : Prop := move ≠ .close ∧ Careful s move

theorem Heard.step {move : Move} (h : Heard 0 s)
    (hbounded : s.state.openConnections ≤ s.state.configuration.maximumConnections) (hallowed : Allowed s move)
    (hstep : step s move = some s') : Heard 0 s' := by
  obtain ⟨hclose,hcareful⟩ := hallowed
  cases move with
  | acquire =>
    cases hstep
    exact h.acquire hbounded hcareful
  | release entry reusable c =>
    rw [Pool.step] at hstep
    split at hstep <;> cases hstep
    have htaken : Heard 0 { s with held := s.held.erase entry } := ⟨h.sound,h.live,h.opened,h.waiters⟩
    exact htaken.release entry reusable c
  | connected =>
    obtain ⟨answer,hconnected,rfl⟩ := map_eq_some_iff.mp hstep
    exact h.connected hconnected
  | pinged =>
    obtain ⟨answer,hpinged,rfl⟩ := map_eq_some_iff.mp hstep
    exact h.pinged hbounded hpinged
  | proceed =>
    obtain ⟨answer,hgo,rfl⟩ := map_eq_some_iff.mp hstep
    exact h.proceed hbounded hcareful hgo
  | cancel =>
    cases hstep
    exact h.cancel hcareful
  | timeout => exact h.timeout hstep
  | close => exact absurd rfl hclose

theorem heard_of_visits {configuration : Configuration} (h : Visits step Allowed (.new configuration) s) :
    Heard 0 s := by
  refine (h.invariant (P := fun s => Inv configuration [] 0 s ∧ Heard 0 s) ?_ ?_).2
  · exact ⟨inv_new configuration,heard_new configuration⟩
  · intro s move s' ⟨hinv,hheard⟩ hallowed hstep
    exact ⟨hinv.step hstep,hheard.step hinv.bounded hallowed hstep⟩

/-- No call can run, and none is inside `connect` or `ping`. -/
def System.Quiet (s : System) : Prop :=
  s.waits.count (·.outcome.isSome) = 0 ∧ s.opening = 0 ∧ s.validating.isEmpty = true

instance (s : System) : Decidable s.Quiet := inferInstanceAs (Decidable (_ ∧ _))

/-- No call waits while it could have a connection. -/
def System.Served (s : System) : Prop :=
  s.state.openConnections < s.state.configuration.maximumConnections ∨ s.state.idle.isEmpty = false →
    ∀ id ∈ s.state.pending, s.waits.isActive id = false

instance (s : System) : Decidable s.Served := inferInstanceAs (Decidable (_ → _))

/-- Where no token is cancelled between the moment a call is woken for room and the moment it runs, no call is left
waiting for a connection it could have. -/
theorem waiters_served (configuration : Configuration) (s : System) (h : Visits step Allowed (.new configuration) s)
    (hquiet : s.Quiet) : s.Served := by
  have hheard := heard_of_visits h
  intro hoffer id hid
  rw [Bool.eq_false_iff]
  intro hactive
  have hle := hheard.waiters id hid hactive
  rw [Waits.resumed_eq_zero isNull hquiet.1,State.offers] at hle
  rcases hoffer with hroom | hidle
  · omega
  rw [isEmpty_eq_false_iff] at hidle
  have hlength := length_pos_iff.mpr hidle
  omega

/-- A waiting call times out, and the entry that comes back later goes to the idle ones. -/
def abandoned : List Move :=
  [.acquire none (fun _ => .good) .nothing,.connected true,.acquire none (fun _ => .good) .nothing,.timeout 0,
    .proceed 0 (fun _ => .good) .nothing,.release 0 true .good]

theorem waiters_served_abandoned : ∃ s, abandoned.foldlM step (.new .one) = some s ∧
    s.Quiet ∧ s.state.idle = [0] ∧ s.Served := by
  have hquiet : ∀ s, abandoned.foldlM step (.new .one) = some s → s.Quiet := by
    rintro s ⟨⟩
    decide +kernel
  refine ⟨_,rfl,hquiet _ rfl,rfl,waiters_served .one _ ?_ (hquiet _ rfl)⟩
  refine Visits.start.foldlM abandoned ?_ rfl
  simp [abandoned,Allowed,Careful]

/-- A connection breaks, a call is woken for the room it leaves, and its token is cancelled before it runs: the call
behind it goes on waiting while nothing is open. -/
theorem cancelled_waiter_strands : ∃ s, [.acquire none (fun _ => .good) .nothing,.connected true,
    .acquire (some 7) (fun _ => .good) .nothing,.acquire none (fun _ => .good) .nothing,.release 0 false .good,
    .cancel 7,.proceed 0 (fun _ => .good) .nothing].foldlM step (.new .one) = some s ∧ s.Quiet ∧ ¬ s.Served := by
  refine ⟨_,rfl,?_,?_⟩ <;> decide +kernel

end Whim.Pool
