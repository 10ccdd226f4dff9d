import Whim.Pool
import Whim.Runs

/-!
# Where the connections of a pool are

Each connection is idle, being validated, handed to a call that has not run yet, or in the hands of a caller. The
counter counts these places and the connections being opened.
-/

namespace Whim.Pool

open Waiting List Option

variable {c : Configuration} {s s' : System} {ls : List ℕ} {k entry : ℕ}

/-- Calls that were handed an entry that passes a test. -/
def handed (f : ℕ → Bool) (_ : Unit) (value : Option ℕ) : Bool := value.any f

/-- The number of entries that pass a test, wherever they are, and in the hands of the step itself. -/
def weigh (f : ℕ → Bool) (loose : List ℕ) (s : System) : ℕ :=
  s.state.idle.countP f+(s.validating.map Prod.fst).countP f+s.waits.resumed (handed f)+s.held.countP f +
    loose.countP f

/-- A run keeps this. In the middle of a step an entry may be in the hands of the step, and a connection may be counted
that is in no place. -/
structure Inv (configuration : Configuration) (loose : List ℕ) (reserved : ℕ) (s : System) : Prop where
  configured : s.state.configuration = configuration
  sound : s.waits.Sound
  total : s.state.openConnections = s.opening+weigh (fun _ => true) loose s+reserved
  bounded : s.state.openConnections ≤ s.state.configuration.maximumConnections
  single : ∀ entry, weigh (· == entry) loose s ≤ (decide (entry < s.connections)).toNat

theorem inv_new (c : Configuration) : Inv c [] 0 (.new c) := ⟨rfl,.new,rfl,Nat.zero_le _,fun _ => Nat.zero_le _⟩

/-- An entry changes its place. -/
theorem Inv.move {loose' : List ℕ} (h : Inv c ls k s) (hsound : s'.waits.Sound)
    (hweigh : ∀ f, weigh f loose' s' = weigh f ls s) (hopening : s'.opening = s.opening)
    (hconfiguration : s'.state.configuration = s.state.configuration)
    (hopen : s'.state.openConnections = s.state.openConnections) (hconnections : s'.connections = s.connections) :
    Inv c loose' k s' where
  configured := hconfiguration.trans h.configured
  sound := hsound
  total := by
    rw [hopen,hopening,hweigh]
    exact h.total
  bounded := by
    rw [hopen,hconfiguration]
    exact h.bounded
  single := fun entry => by
    rw [hweigh,hconnections]
    exact h.single entry

/-- A connection that is counted and in no place is given up. -/
theorem Inv.drop (h : Inv c ls (k+1) s) :
    Inv c ls k { s with state := { s.state with openConnections := s.state.openConnections-1 } } :=
  { h with
    total := by
      have htotal := h.total
      show s.state.openConnections-1 = s.opening+weigh _ ls s+k
      omega
    bounded := (Nat.sub_le _ _).trans h.bounded }

/-- The step lets go of an entry. -/
theorem Inv.forget (h : Inv c [entry] k s) : Inv c [] (k+1) s :=
  { h with
    total := by
      have htotal := h.total
      simp only [weigh,countP_cons,countP_nil,if_pos] at htotal ⊢
      omega
    single := fun o => by
      refine Nat.le_trans ?_ (h.single o)
      exact Nat.add_le_add_left (Nat.zero_le _) _ }

theorem Inv.wakeForCapacity (h : Inv c ls k s) : Inv c ls k s.wakeForCapacity := by
  rw [System.wakeForCapacity]
  split
  · exact h
  rcases s.waits.wakeFirst_cases (.resume none) s.state.pending with ⟨_,heq⟩ | ⟨_,id,_,_,_,hactive,heq⟩
  · rw [heq]
    exact h.move h.sound (fun _ => rfl) rfl rfl rfl rfl
  rw [heq]
  obtain ⟨x,hx,hxactive⟩ := Waits.isActive_iff.mp hactive
  refine h.move (h.sound.resolve hactive) (fun f => ?_) rfl rfl rfl rfl
  simp only [weigh,h.sound.resumed_resume (handed f) hx hxactive none]
  rfl

section
variable (h : Inv c [entry] k s)
include h

theorem Inv.discard : Inv c [] k s.discard := h.forget.drop.wakeForCapacity

theorem Inv.hold : Inv c [] k (s.hold entry).2 := by
  refine h.move h.sound (fun f => ?_) rfl rfl rfl rfl
  simp only [weigh,System.hold,countP_cons,countP_nil]
  omega

theorem Inv.validate (token : Option ℕ) :
    Inv c [] k { s with validating := s.validating++[(entry,token)] } := by
  refine h.move h.sound (fun f => ?_) rfl rfl rfl rfl
  simp only [weigh,map_append,map_cons,map_nil,countP_append,countP_cons,countP_nil]
  omega

end

variable {idle : List ℕ}

theorem Inv.popIdle (h : Inv c [] k s) (hidle : s.state.idle = entry::idle) :
    Inv c [entry] k { s with state := { s.state with idle } } := by
  refine h.move h.sound (fun f => ?_) rfl rfl rfl rfl
  simp only [weigh,hidle,countP_cons,countP_nil]
  omega

theorem Inv.putIdle (h : Inv c [entry] k s) {pending : List ℕ} :
    Inv c [] k { s with state := { s.state with pending, idle := entry::s.state.idle } } := by
  refine h.move h.sound (fun f => ?_) rfl rfl rfl rfl
  simp only [weigh,countP_cons,countP_nil]
  omega

/-- An entry that comes back goes to the first call that waits, to the idle ones, or is closed. -/
theorem Inv.release (h : Inv c [entry] k s) (reusable : Bool) (condition : Condition) :
    Inv c [] k (s.release entry reusable condition) := by
  rw [System.release]
  split
  · exact h.discard
  rcases s.waits.wakeFirst_cases (.resume (some entry)) s.state.pending with
    ⟨hf,heq⟩ | ⟨_,id,_,_,hf,hactive,heq⟩
  · rw [heq,hf]
    have hpending : Inv c [entry] k { s with state := { s.state with pending := [] } } :=
      h.move h.sound (fun _ => rfl) rfl rfl rfl rfl
    simp only [isSome_none,Bool.false_eq_true,if_false]
    split
    · exact hpending.discard
    · exact h.putIdle
  · rw [heq,hf]
    obtain ⟨x,hx,hxactive⟩ := Waits.isActive_iff.mp hactive
    refine h.move (h.sound.resolve hactive) (fun f => ?_) rfl rfl rfl rfl
    simp only [isSome_some,if_true,weigh,h.sound.resumed_resume (handed f) hx hxactive (some entry),handed,
      any_some,countP_cons,countP_nil]
    cases f entry <;> simp
    omega

theorem wakeForCapacity_idle (s : System) : s.wakeForCapacity.state.idle = s.state.idle := by
  rw [System.wakeForCapacity]
  split <;> rfl

/-- The entry that the loop over the idle ones has taken. -/
def Found.taken : Found → List ℕ
  | .entry entry => [entry]
  | .validate entry => [entry]
  | .nothing => []

theorem Inv.takeIdle (cs : ℕ → Condition) (h : Inv c [] k s) (hidle : s.state.idle = idle) :
    Inv c (System.takeIdle cs idle s).1.taken k (System.takeIdle cs idle s).2 := by
  induction idle generalizing s with
  | nil =>
    refine h.move h.sound (fun f => ?_) rfl rfl rfl rfl
    simp only [weigh,System.takeIdle,hidle,Found.taken]
  | cons _ _ ih =>
    have hpop := h.popIdle hidle
    rw [System.takeIdle]
    split
    · exact ih hpop.discard (wakeForCapacity_idle _)
    split
    · exact hpop
    · exact hpop

theorem Inv.openNew (h : Inv c ls 0 s) (hr : s.state.openConnections < s.state.configuration.maximumConnections) :
    Inv c ls 0 s.openNew.2 where
  configured := h.configured
  sound := h.sound
  total := by
    have htotal := h.total
    show s.state.openConnections+1 = s.opening+1+weigh _ ls s+0
    omega
  bounded := hr
  single := h.single

section
variable (h : Inv c ls k s)
include h

/-- Waiting moves no entry. -/
theorem Inv.waits {waits : Waits Unit (Option ℕ) Exception} {pending : List ℕ}
    (hsound : waits.Sound) (hres : ∀ f, waits.resumed (handed f) = s.waits.resumed (handed f)) :
    Inv c ls k { s with state := { s.state with pending }, waits } := by
  refine h.move hsound (fun f => ?_) rfl rfl rfl rfl
  simp only [weigh,hres]

theorem Inv.cancel (token : ℕ) : Inv c ls k { s with waits := s.waits.cancel token .cancelled } :=
  h.waits (h.sound.cancel token .cancelled) fun f => Waits.resumed_cancel (handed f) token Exception.cancelled

theorem Inv.wait (token : Option ℕ) (e : Expiry) : Inv c ls k (s.wait token e).2 := by
  rw [System.wait]
  split
  · exact h.waits (h.sound.refuse () token .timedOut) fun f => h.sound.resumed_refuse (handed f) () token .timedOut
  rcases s.waits.enter_cases () token (e = .token) .cancelled with
    ⟨_,heq⟩ | ⟨htoken,heq | ⟨t,rfl,_,heq⟩⟩
  · rw [heq]
    exact h.waits (h.sound.refuse () token .cancelled) fun f => h.sound.resumed_refuse (handed f) () token .cancelled
  · rw [heq]
    exact h.waits (h.sound.park () token) fun f => h.sound.resumed_park (handed f) () token true
  rw [heq]
  refine h.waits (((h.sound.park () (some t)).cancel t .cancelled).leave _) fun f => ?_
  have hleave := Waits.resumed_leave (handed f) (Waits.lookup_expired htoken () true .cancelled)
  rw [Waits.resumed_cancel,h.sound.resumed_park] at hleave
  exact hleave

end

section
variable (h : Inv c [] 0 s) (token : Option ℕ) (cs : ℕ → Condition) (e : Expiry)
include h token cs e

theorem Inv.attempt : Inv c [] 0 (s.attempt token cs e).2 := by
  have ht := h.takeIdle cs rfl
  rw [System.attempt]
  split
  next heq =>
    rw [heq] at ht
    exact ht.hold
  next heq =>
    rw [heq] at ht
    exact ht.validate token
  next heq =>
    rw [heq] at ht
    split
    next hr => exact ht.openNew hr
    next => exact ht.wait token e

theorem Inv.acquire : Inv c [] 0 (s.acquire token cs e).2 := by
  rw [System.acquire]
  split
  · exact h
  split
  · exact h
  · exact h.attempt token cs e

end

/-- A call of `connect` has ended; its connection is counted and in no place. -/
theorem Inv.opened (h : Inv c [] 0 s) (hopening : s.opening ≠ 0) : Inv c [] 1 { s with opening := s.opening-1 } :=
  { h with
    total := by
      have htotal := h.total
      show s.state.openConnections = s.opening-1+weigh _ [] s+1
      omega }

/-- The connector hands out a connection that nobody has. -/
theorem Inv.fresh (h : Inv c [] 1 s) : Inv c [s.connections] 0 { s with connections := s.connections+1 } :=
  { h with
    total := by
      have htotal := h.total
      simp only [weigh,countP_cons,countP_nil,if_true] at htotal ⊢
      omega
    single := fun entry => by
      have hsingle := h.single entry
      simp only [weigh,countP_cons,countP_nil] at hsingle ⊢
      rcases Nat.lt_trichotomy entry s.connections with hlt | heq | hlt
      · have hne : (s.connections == entry) = false := beq_eq_false_iff_ne.mpr (Nat.ne_of_gt hlt)
        rw [decide_eq_true hlt] at hsingle
        rw [decide_eq_true (Nat.lt_succ_of_lt hlt),hne]
        exact hsingle
      · rw [heq,decide_eq_false (Nat.lt_irrefl _)] at hsingle
        rw [heq,decide_eq_true (Nat.lt_succ_self _),beq_self_eq_true]
        exact Nat.add_le_add_right hsingle 1
      · have hne : (s.connections == entry) = false := beq_eq_false_iff_ne.mpr (Nat.ne_of_lt hlt)
        rw [decide_eq_false (Nat.not_lt_of_gt hlt)] at hsingle
        rw [hne]
        exact hsingle.trans (Nat.zero_le _) }

variable {answer : Return × System}

theorem Inv.connected (h : Inv c [] 0 s) {success : Bool} (hconnected : s.connected success = some answer) :
    Inv c [] 0 answer.2 := by
  rw [System.connected] at hconnected
  split at hconnected
  next => cases hconnected
  next hopening =>
    have hopened := h.opened hopening
    cases success with
    | false =>
      cases hconnected
      exact hopened.drop.wakeForCapacity
    | true =>
      rw [if_neg (by decide)] at hconnected
      split at hconnected
      next =>
        cases hconnected
        exact hopened.fresh.forget.drop
      next =>
        cases hconnected
        exact hopened.fresh.hold

variable {cs : ℕ → Condition}

section
variable (h : Inv c [] 0 s)
include h

theorem Inv.pinged {i : ℕ} {ping : Ping} {e : Expiry}
    (hpinged : s.pinged i ping cs e = some answer) : Inv c [] 0 answer.2 := by
  rw [System.pinged] at hpinged
  split at hpinged
  next => cases hpinged
  next entry token hindex =>
    have htaken : Inv c [entry] 0 { s with validating := s.validating.eraseIdx i } := by
      obtain ⟨hlt,hget⟩ := List.getElem?_eq_some_iff.mp hindex
      refine h.move h.sound (fun f => ?_) rfl rfl rfl rfl
      have hp := ((getElem_cons_eraseIdx_perm hlt).map Prod.fst).countP_eq f
      rw [hget,map_cons,countP_cons] at hp
      dsimp only at hp
      simp only [weigh,countP_cons,countP_nil]
      omega
    cases ping with
    | passed =>
      cases hpinged
      exact htaken.hold
    | connectionException =>
      cases hpinged
      exact htaken.discard.attempt token cs e
    | threw =>
      cases hpinged
      exact htaken.release true (cs entry)

variable {id : ℕ}

theorem Inv.leave {x : Wait Unit (Option ℕ) Exception}
    (hx : s.waits.table.lookup id = some x) (ls : List ℕ)
    (hloose : ∀ f, (x.resumed (handed f)).toNat = ls.countP f) : Inv c ls 0 { s with waits := s.waits.leave id } := by
  refine h.move (h.sound.leave id) (fun f => ?_) rfl rfl rfl rfl
  have hleave := Waits.resumed_leave (handed f) hx
  have hcount := hloose f
  simp only [weigh,countP_nil]
  omega

theorem Inv.proceed {e : Expiry} (hgo : s.proceed id cs e = some answer) : Inv c [] 0 answer.2 := by
  rw [System.proceed] at hgo
  split at hgo
  next entry hx =>
    cases hgo
    refine (h.leave hx [entry] fun f => ?_).hold
    rw [countP_singleton]
    cases hf : f entry <;> simp [Wait.resumed,Outcome.value?,handed,hf]
  next hx =>
    cases hgo
    exact (h.leave hx [] fun _ => rfl).acquire _ cs e
  next hx =>
    cases hgo
    exact h.leave hx [] fun _ => rfl
  next => cases hgo

theorem Inv.close : Inv c [] 0 s.close := by
  rw [System.close]
  split
  · exact h
  have hres := fun f => Waits.resumed_wakeAll_throw (w := s.waits) (handed f) .closed s.state.pending
  refine ⟨h.configured,h.sound.wakeAll _,?_,(Nat.sub_le _ _).trans h.bounded,fun entry => ?_⟩
  · have htotal := h.total
    simp only [weigh,hres,countP_true,length_nil] at htotal ⊢
    omega
  · refine Nat.le_trans ?_ (h.single entry)
    simp only [weigh,hres,countP_nil]
    omega

theorem Inv.timeout (htimeout : s.timeout id = some s') : Inv c [] 0 s' := by
  rw [System.timeout] at htimeout
  split at htimeout <;> cases htimeout
  split
  next hactive =>
    obtain ⟨x,hx,_⟩ := Waits.isActive_iff.mp hactive
    refine h.waits (h.sound.resolve hactive) fun f => ?_
    exact Waits.resumed_resolve_throw (handed f) hx .timedOut
  next => exact h

theorem Inv.step {move : Move} (hstep : step s move = some s') : Inv c [] 0 s' := by
  cases move with
  | acquire token cs e =>
    cases hstep
    exact h.acquire token cs e
  | release entry reusable condition =>
    rw [Pool.step] at hstep
    split at hstep
    next hheld =>
      cases hstep
      have htaken : Inv c [entry] 0 { s with held := s.held.erase entry } := by
        refine h.move h.sound (fun f => ?_) rfl rfl rfl rfl
        have hp := (perm_cons_erase hheld).countP_eq f
        rw [countP_cons] at hp
        simp only [weigh,countP_cons,countP_nil]
        omega
      exact htaken.release reusable condition
    next => cases hstep
  | connected =>
    obtain ⟨answer,hconnected,rfl⟩ := map_eq_some_iff.mp hstep
    exact h.connected hconnected
  | pinged =>
    obtain ⟨answer,hpinged,rfl⟩ := map_eq_some_iff.mp hstep
    exact h.pinged hpinged
  | proceed =>
    obtain ⟨answer,hgo,rfl⟩ := map_eq_some_iff.mp hstep
    exact h.proceed hgo
  | cancel token =>
    cases hstep
    exact h.cancel token
  | timeout => exact h.timeout hstep
  | close =>
    cases hstep
    exact h.close

end

theorem inv_of_visits {allowed : System → Move → Prop} (h : Visits step allowed (.new c) s) : Inv c [] 0 s :=
  h.invariant (inv_new c) fun _ _ _ hinv _ hstep => hinv.step hstep

def Configuration.one : Configuration := ⟨1,1,true,Nat.one_pos,Nat.le_refl 1⟩

def Condition.good : Condition := ⟨false,true,false,false,false⟩

end Whim.Pool
