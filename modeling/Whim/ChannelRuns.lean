import Whim.Channel
import Whim.Runs

/-!
# Nobody waits for what is there

A waiting call never stays behind while there is something for it, as long as no token is cancelled between the moment
its call is resumed and the moment the call runs.
-/

namespace Whim.Channel

open Waiting List Bool

variable {T : Type} {s : System T} {w : Waits (Call T) Unit Exception} {queue : List ℕ} {side : Bool} {id : ℕ}

theorem isFull_iff : s.state.isFull ↔ ∃ c, s.state.capacity = some c ∧ c ≤ s.state.buffer.length := by
  rw [State.isFull]
  cases s.state.capacity <;> simp

def Call.isReceive : Call T → Bool
  | .send _ => false
  | .receive => true

/-- Calls of one side. -/
def isSide (side : Bool) (call : Call T) (_ : Unit) : Bool := call.isReceive == side

/-- Calls of either side. -/
def isCall (_ : Call T) (_ : Unit) : Bool := true

/-- The queue of one side. -/
abbrev Queue (w : Waits (Call T) Unit Exception) (side : Bool) (queue : List ℕ) : Prop :=
  w.Queued (·.isReceive = side) queue

/-- What waking the first of a queue does. -/
structure Wakes (w : Waits (Call T) Unit Exception) (side : Bool) (queue : List ℕ)
    (w' : Waits (Call T) Unit Exception) (queue' : List ℕ) : Prop where
  sound : w'.Sound
  live : w'.Live isCall
  queues : ∀ other queue, Queue w other queue → Queue w' other queue
  subset : ∀ id ∈ queue', id ∈ queue
  active : ∀ id, w'.isActive id = true → w.isActive id = true
  other : w'.resumed (isSide !side) = w.resumed (isSide !side)
  woken : ∀ id ∈ queue', w'.isActive id = true → w'.resumed (isSide side) = w.resumed (isSide side)+1

theorem wakes_first (hsound : w.Sound) (hlive : w.Live isCall) (hq : Queue w side queue) :
    Wakes w side queue (w.wakeFirst (.resume ()) queue).1 (w.wakeFirst (.resume ()) queue).2 := by
  rcases w.wakeFirst_cases (.resume ()) queue with ⟨_,heq⟩ | ⟨b,id,a,rfl,_,hactive,heq⟩
  · rw [heq]
    exact ⟨hsound,hlive,fun _ _ h => h,forall_mem_nil _,fun _ h => h,rfl,forall_mem_nil _⟩
  rw [heq]
  obtain ⟨x,hx,hxactive⟩ := Waits.isActive_iff.mp hactive
  have hk : x.kind.isReceive = side := hq.kind id (by simp) x hx
  have hcount := fun o => hsound.resumed_resume (isSide o) hx hxactive ()
  refine ⟨hsound.resolve hactive,hlive.resolve hactive,fun _ _ h => h.resolve hactive,?_,fun _ => ?_,?_,?_⟩
  · exact fun o ho => by simp [ho]
  · exact Waits.isActive_of_resolve hx
  · rw [hcount,isSide,hk]
    cases side <;> rfl
  · intro _ _ _
    rw [hcount,isSide,hk,beq_self_eq_true]
    rfl

/-- A run keeps this: where someone waits to receive, every buffered value has a resumed receiver, and where someone
waits to send, every free place has a resumed sender. In the middle of a call one may be missing on either side. -/
structure Inv (r q : ℕ) (s : System T) : Prop where
  sound : s.waits.Sound
  live : s.waits.Live isCall
  sendQueue : Queue s.waits false s.state.sendWaiters
  receiveQueue : Queue s.waits true s.state.receiveWaiters
  senders : ∀ id ∈ s.state.sendWaiters, s.waits.isActive id = true →
    ∃ c, s.state.capacity = some c ∧ c ≤ s.state.buffer.length+s.waits.resumed (isSide false)+q
  receivers : ∀ id ∈ s.state.receiveWaiters, s.waits.isActive id = true →
    s.state.buffer.length ≤ s.waits.resumed (isSide true)+r
  closed : s.state.closed = true → s.state.sendWaiters = [] ∧ s.state.receiveWaiters = []

theorem inv_new (c : Option ℕ) (pos : c ≠ some 0) : Inv 0 0 (System.new c pos : System T) :=
  ⟨.new,.new,.nil,.nil,forall_mem_nil _,forall_mem_nil _,nofun⟩

variable {r q : ℕ}

/-- Nobody waits on a closed channel. -/
theorem Inv.of_closed (h : Inv r q s) (hclosed : s.state.closed) : Inv 0 0 s := by
  obtain ⟨hsend,hreceive⟩ := h.closed hclosed
  refine ⟨h.sound,h.live,h.sendQueue,h.receiveQueue,?_,?_,h.closed⟩
  · rw [hsend]
    exact forall_mem_nil _
  · rw [hreceive]
    exact forall_mem_nil _

theorem Inv.push (h : Inv 0 q s) (hq : q ≤ 1) (v : T) : Inv 1 0 (s.push v) :=
  { h with
    senders := fun id hid hactive => by
      obtain ⟨c,hc,hle⟩ := h.senders id hid hactive
      refine ⟨c,hc,?_⟩
      simp only [System.push,length_append,length_singleton]
      omega
    receivers := fun id hid hactive => by
      have := h.receivers id hid hactive
      simp only [System.push,length_append,length_singleton]
      omega }

theorem Inv.wakeReceiver (h : Inv 1 0 s) : Inv 0 0 s.wakeReceiver := by
  have hwakes := wakes_first h.sound h.live h.receiveQueue
  refine ⟨hwakes.sound,hwakes.live,hwakes.queues false _ h.sendQueue,
    (hwakes.queues true _ h.receiveQueue).of_subset hwakes.subset,fun id hid hactive => ?_,
    fun id hid hactive => ?_,fun hclosed => ?_⟩
  · obtain ⟨c,hc,hle⟩ := h.senders id hid (hwakes.active id hactive)
    have ho := hwakes.other
    exact ⟨c,hc,ho ▸ hle⟩
  · have hle := h.receivers id (hwakes.subset id hid) (hwakes.active id hactive)
    rw [← hwakes.woken id hid hactive] at hle
    exact hle
  · obtain ⟨hsend,hreceive⟩ := h.closed hclosed
    exact ⟨hsend,eq_nil_iff_forall_not_mem.mpr fun id hid => by simpa [hreceive] using hwakes.subset id hid⟩

theorem Inv.wakeSender (h : Inv 0 1 s) : Inv 0 0 s.wakeSender := by
  have hwakes := wakes_first h.sound h.live h.sendQueue
  refine ⟨hwakes.sound,hwakes.live,(hwakes.queues false _ h.sendQueue).of_subset hwakes.subset,
    hwakes.queues true _ h.receiveQueue,fun id hid hactive => ?_,fun id hid hactive => ?_,fun hclosed => ?_⟩
  · obtain ⟨c,hc,hle⟩ := h.senders id (hwakes.subset id hid) (hwakes.active id hactive)
    refine ⟨c,hc,?_⟩
    have hwoken : s.wakeSender.waits.resumed (isSide false) = s.waits.resumed (isSide false)+1 :=
      hwakes.woken id hid hactive
    rw [hwoken]
    exact hle.trans (by simp only [System.wakeSender]; omega)
  · have hle := h.receivers id hid (hwakes.active id hactive)
    have ho := hwakes.other
    exact ho ▸ hle
  · obtain ⟨hsend,hreceive⟩ := h.closed hclosed
    exact ⟨eq_nil_iff_forall_not_mem.mpr fun id hid => by simpa [hsend] using hwakes.subset id hid,hreceive⟩

/-- The buffer loses its first value. -/
theorem Inv.pop (h : Inv r 0 s) (hr : r ≤ 1) {v : T} {buffer : List T} (hbuffer : s.state.buffer = v::buffer) :
    Inv 0 1 { s with state := { s.state with buffer } } where
  sound := h.sound
  live := h.live
  sendQueue := h.sendQueue
  receiveQueue := h.receiveQueue
  senders := fun id hid hactive => by
    obtain ⟨c,hc,hle⟩ := h.senders id hid hactive
    rw [hbuffer,length_cons] at hle
    exact ⟨c,hc,by dsimp only; omega⟩
  receivers := fun id hid hactive => by
    have hle := h.receivers id hid hactive
    rw [hbuffer,length_cons] at hle
    dsimp only
    omega
  closed := h.closed

theorem Inv.take (h : Inv r 0 s) (hr : r ≤ 1) {z : Return T × System T}
    (hnil : s.state.buffer = [] → Inv 0 0 z.2) : Inv 0 0 (s.take z).2 := by
  rw [System.take]
  split
  next hbuffer => exact (h.pop hr hbuffer).wakeSender
  next hbuffer => exact hnil hbuffer

variable {token : Option ℕ}

/-- A call begins to receive at an empty buffer. -/
theorem Inv.waitReceive (h : Inv r 0 s) (htoken : s.waits.isCancelled token = false)
    (hopen : s.state.closed = false) (hnil : s.state.buffer = []) :
    Inv 0 0 ⟨(s.enqueue .receive).state,s.waits.park .receive token true⟩ where
  sound := h.sound.park .receive token
  live := h.live.park .receive token true htoken
  sendQueue := h.sendQueue.park _ _ _
  receiveQueue := h.receiveQueue.append rfl token true
  senders := fun id hid hactive => by
    have hne : id ≠ s.waits.next := Nat.ne_of_lt (h.sendQueue.fresh id hid)
    rw [h.sound.resumed_park]
    exact h.senders id hid (Waits.isActive_of_park hne hactive)
  receivers := fun id _ _ => by
    show s.state.buffer.length ≤ _
    rw [hnil]
    exact Nat.zero_le _
  closed := fun hclosed => by
    change s.state.closed = true at hclosed
    rw [hopen] at hclosed
    cases hclosed

/-- A call begins to send at a full buffer. -/
theorem Inv.waitSend (h : Inv 0 q s) (htoken : s.waits.isCancelled token = false)
    (hopen : s.state.closed = false) (hfull : s.state.isFull) (v : T) :
    Inv 0 0 ⟨(s.enqueue (.send v)).state,s.waits.park (.send v) token true⟩ where
  sound := h.sound.park (.send v) token
  live := h.live.park (.send v) token true htoken
  sendQueue := h.sendQueue.append rfl token true
  receiveQueue := h.receiveQueue.park _ _ _
  senders := fun id _ _ => by
    show ∃ c, s.state.capacity = some c ∧ c ≤ s.state.buffer.length+_+0
    obtain ⟨c,hc,hle⟩ := isFull_iff.mp hfull
    exact ⟨c,hc,by omega⟩
  receivers := fun id hid hactive => by
    have hne : id ≠ s.waits.next := Nat.ne_of_lt (h.receiveQueue.fresh id hid)
    rw [h.sound.resumed_park]
    exact h.receivers id hid (Waits.isActive_of_park hne hactive)
  closed := fun hclosed => by
    change s.state.closed = true at hclosed
    rw [hopen] at hclosed
    cases hclosed

theorem Inv.cancel (h : Inv r q s) {token : ℕ} (hunclaimed : s.waits.Unclaimed isCall token) :
    Inv r q { s with waits := s.waits.cancel token .cancelled } where
  sound := h.sound.cancel token .cancelled
  live := Waits.Live.cancel h.sound h.live hunclaimed .cancelled
  sendQueue := h.sendQueue.cancel token .cancelled
  receiveQueue := h.receiveQueue.cancel token .cancelled
  senders := fun id hid hactive => by
    rw [Waits.resumed_cancel]
    exact h.senders id hid (Waits.isActive_of_cancel hactive)
  receivers := fun id hid hactive => by
    rw [Waits.resumed_cancel]
    exact h.receivers id hid (Waits.isActive_of_cancel hactive)
  closed := h.closed

section
variable {x : Wait (Call T) Unit Exception} (h : Inv 0 0 s) (hx : s.waits.table.lookup id = some x)
include h hx

/-- A call that leaves takes its promise with it. -/
theorem Inv.leave :
    Inv (x.resumed (isSide true)).toNat (x.resumed (isSide false)).toNat { s with waits := s.waits.leave id } where
  sound := h.sound.leave id
  live := h.live.leave id
  sendQueue := h.sendQueue.leave id
  receiveQueue := h.receiveQueue.leave id
  senders := fun o ho hactive => by
    obtain ⟨c,hc,hle⟩ := h.senders o ho (Waits.isActive_of_leave hactive)
    have hcount := Waits.resumed_leave (isSide false) hx
    exact ⟨c,hc,by dsimp only; omega⟩
  receivers := fun o ho hactive => by
    have hle := h.receivers o ho (Waits.isActive_of_leave hactive)
    have hcount := Waits.resumed_leave (isSide true) hx
    dsimp only
    omega
  closed := h.closed

theorem Inv.leave_thrown (hthrown : ∀ due, x.resumed due = false) : Inv 0 0 { s with waits := s.waits.leave id } := by
  have hleave := h.leave hx
  rwa [hthrown,hthrown] at hleave

end

variable {expires : Bool}

theorem Inv.wait {call : Call T} (h : Inv 0 0 ⟨(s.enqueue call).state,s.waits.park call token true⟩)
    (htoken : s.waits.isCancelled token = false)
    (hcareful : expires → ∀ t, token = some t → s.waits.Unclaimed isCall t) :
    Inv 0 0 (s.wait call token expires).2 := by
  rw [System.wait]
  rcases s.waits.enter_cases call token expires .cancelled with ⟨hcancelled,_⟩ | ⟨_,heq | ⟨t,rfl,rfl,heq⟩⟩
  · rw [htoken] at hcancelled
    cases hcancelled
  · rw [heq]
    exact h
  · rw [heq]
    have hcancel := h.cancel ((hcareful rfl t rfl).park call (some t) true)
    exact hcancel.leave_thrown (Waits.lookup_expired htoken call true .cancelled) fun _ => rfl

/-- One turn of the loop of a call, where the wake-up that started it is still to be used up. -/
theorem Inv.start {call : Call T} (h : Inv r q s) (hr : r ≤ call.isReceive.toNat) (hq : q ≤ (!call.isReceive).toNat)
    (htoken : s.waits.isCancelled token = false)
    (hcareful : expires → ∀ t, token = some t → s.waits.Unclaimed isCall t) :
    Inv 0 0 (s.start call token expires).2 := by
  cases call with
  | send v =>
    obtain rfl : r = 0 := Nat.le_zero.mp hr
    rw [System.start,System.send,if_neg (by rw [htoken]; decide)]
    by_cases hclosed : s.state.closed = true
    · rw [if_pos hclosed]
      exact h.of_closed hclosed
    rw [if_neg hclosed]
    by_cases hfull : s.state.isFull = true
    · rw [if_pos hfull]
      exact (h.waitSend htoken (eq_false_of_not_eq_true hclosed) hfull v).wait htoken hcareful
    · rw [if_neg hfull]
      exact (h.push hq v).wakeReceiver
  | receive =>
    obtain rfl : q = 0 := Nat.le_zero.mp hq
    rw [System.start,System.receive,if_neg (by rw [htoken]; decide)]
    refine h.take hr fun hnil => ?_
    by_cases hclosed : s.state.closed = true
    · rw [if_pos hclosed]
      exact h.of_closed hclosed
    · rw [if_neg hclosed]
      exact (h.waitReceive htoken (eq_false_of_not_eq_true hclosed) hnil).wait htoken hcareful

theorem Inv.close (h : Inv 0 0 s) : Inv 0 0 s.close := by
  rw [System.close]
  split
  · exact h
  · exact ⟨(h.sound.wakeAll _).wakeAll _,(h.live.wakeAll _).wakeAll _,.nil,.nil,forall_mem_nil _,
      forall_mem_nil _,fun _ => ⟨rfl,rfl⟩⟩

theorem Inv.trySend (h : Inv 0 0 s) (v : T) : Inv 0 0 (s.trySend v).2 := by
  rw [System.trySend]
  split
  · exact h
  split
  · exact h
  · exact (h.push (Nat.zero_le 1) v).wakeReceiver

theorem Inv.tryReceive (h : Inv 0 0 s) : Inv 0 0 s.tryReceive.2 := by
  refine h.take (Nat.zero_le 1) fun _ => ?_
  split <;> exact h

/-- A token is cancelled only while every call that has it and has been resumed has also run. A call whose token expires
as it begins to wait cancels the token. -/
def Careful (s : System T) : Move T → Prop
  | .call _ token expires => expires = true → ∀ t, token = some t → s.waits.Unclaimed isCall t
  | .cancel token => s.waits.Unclaimed isCall token
  | .proceed id expires => expires = true → ∀ x t, s.waits.table.lookup id = some x → x.token = some t →
      (s.waits.leave id).Unclaimed isCall t
  | _ => True

theorem Inv.proceed (h : Inv 0 0 s) {a : Return T × System T}
    (hcareful : Careful s (.proceed id expires)) (hgo : s.proceed id expires = some a) : Inv 0 0 a.2 := by
  rw [System.proceed] at hgo
  split at hgo
  next call token _ _ hx =>
    cases hgo
    have hleave := h.leave hx
    have htoken : s.waits.isCancelled token = false := by
      cases token with
      | none => rfl
      | some t => exact h.live id _ t hx rfl (.inr rfl)
    refine hleave.start ?_ ?_ htoken fun hexpires t ht => hcareful hexpires _ t hx ht
    · cases call <;> exact Nat.le_refl _
    · cases call <;> exact Nat.le_refl _
  next hx =>
    cases hgo
    exact h.leave_thrown hx fun _ => rfl
  next => cases hgo

theorem Inv.step {s' : System T} {move : Move T} (h : Inv 0 0 s) (hcareful : Careful s move)
    (hstep : step s move = some s') : Inv 0 0 s' := by
  cases move with
  | call call token =>
    cases hstep
    cases htoken : s.waits.isCancelled token with
    | false => exact h.start (Nat.zero_le _) (Nat.zero_le _) htoken hcareful
    | true =>
      cases call with
      | send =>
        rw [System.start,System.send,if_pos htoken]
        exact h
      | receive =>
        rw [System.start,System.receive,if_pos htoken]
        exact h
  | trySend v =>
    cases hstep
    exact h.trySend v
  | tryReceive =>
    cases hstep
    exact h.tryReceive
  | close =>
    cases hstep
    exact h.close
  | cancel =>
    cases hstep
    exact h.cancel hcareful
  | proceed =>
    obtain ⟨a,hgo,rfl⟩ := Option.map_eq_some_iff.mp hstep
    exact h.proceed hcareful hgo

theorem inv_of_visits {c : Option ℕ} {pos : c ≠ some 0} (h : Visits step Careful (System.new c pos) s) : Inv 0 0 s :=
  h.invariant (inv_new c pos) fun _ _ _ hinv hcareful hstep => hinv.step hcareful hstep

/-- No call has been resolved without having run again. -/
def System.Idle (s : System T) : Prop := s.waits.count (·.outcome.isSome) = 0

instance (s : System T) : Decidable s.Idle := inferInstanceAs (Decidable (_ = _))

/-- No call waits for what is there. -/
def System.Settled (s : System T) : Prop :=
  (s.state.buffer.isEmpty = false → ∀ id ∈ s.state.receiveWaiters, s.waits.isActive id = false) ∧
  (s.state.isFull = false ∨ s.state.closed = true → ∀ id ∈ s.state.sendWaiters, s.waits.isActive id = false)

instance (s : System T) : Decidable s.Settled := inferInstanceAs (Decidable (_ ∧ _))

/-- Where no token is cancelled between the moment a call is resumed and the moment it runs, no call is left waiting for
what is there once nothing can run. -/
theorem waiters_not_stranded (capacity : Option ℕ) (positive : capacity ≠ some 0) (s : System T)
    (h : Visits step Careful (System.new capacity positive) s) (hidle : s.Idle) : s.Settled := by
  have hinv := inv_of_visits h
  refine ⟨fun hbuffer id hid => ?_,fun hroom id hid => ?_⟩
  · rw [eq_false_iff]
    intro hactive
    have hle := hinv.receivers id hid hactive
    rw [Waits.resumed_eq_zero _ hidle,Nat.le_zero,length_eq_zero_iff] at hle
    rw [hle] at hbuffer
    cases hbuffer
  · rw [eq_false_iff]
    intro hactive
    rcases hroom with hroom | hclosed
    · obtain ⟨c,hc,hle⟩ := hinv.senders id hid hactive
      rw [Waits.resumed_eq_zero _ hidle] at hle
      rw [isFull_iff.mpr ⟨c,hc,hle⟩] at hroom
      cases hroom
    · rw [(hinv.closed hclosed).1] at hid
      cases hid

/-- A receiver is cancelled while it waits, and the value that comes later stays in the buffer. -/
theorem waiters_not_stranded_cancelled : ∃ s : System ℕ, Visits step Careful (System.new none nofun) s ∧ s.Idle ∧
    s.state.buffer = [5] ∧ s.Settled := by
  have hstart : Visits (step (T := ℕ)) Careful (System.new none nofun) _ := .start
  have hwait := hstart.move (show Careful _ (.call .receive (some 7) false) from nofun) rfl
  have hcancel := hwait.move (show Careful _ (.cancel 7) from (by decide +kernel : Waits.Unclaimed _ isCall 7)) rfl
  have hproceed := hcancel.move (show Careful _ (.proceed 0 false) from nofun) rfl
  have hsend := hproceed.move (show Careful _ (.trySend 5) from trivial) rfl
  exact ⟨_,hsend,by decide +kernel,rfl,waiters_not_stranded none nofun _ hsend (by decide +kernel)⟩

/-- A receiver is resumed and its token is cancelled before it runs: the value that came stays in the buffer, and the
receiver behind it goes on waiting. -/
theorem cancelled_receiver_strands : ∃ s : System ℕ,
    [.call .receive (some 7) false,.call .receive none false,.trySend 5,.cancel 7,.proceed 0 false].foldlM step
      (System.new none nofun) = some s ∧ s.Idle ∧ ¬ s.Settled := by
  refine ⟨_,rfl,?_,?_⟩ <;> decide +kernel

/-! ## Order -/

section

/-- The value that a call sends where it returns. -/
def Call.offer : Call T → Option T
  | .send value => some value
  | .receive => none

def Return.sent (offer : Option T) : Return T → List T
  | .done => offer.toList
  | _ => []

def Return.received : Return T → List T
  | .value v => [v]
  | _ => []

/-- The value that a move comes with. -/
def offer (s : System T) : Move T → Option T
  | .call call _ _ => call.offer
  | .trySend value => some value
  | .proceed id _ => (s.waits.table.lookup id).bind (·.kind.offer)
  | _ => none

def reply (s : System T) : Move T → Return T
  | .call call token expires => (s.start call token expires).1
  | .trySend value => (s.trySend value).1
  | .tryReceive => s.tryReceive.1
  | .proceed id expires => ((s.proceed id expires).map Prod.fst).getD .suspended
  | .close | .cancel _ => .done

/-- A run with all that is sent and received in it. -/
inductive Runs (s : System T) : List T → List T → System T → Prop
  | start : Runs s [] [] s
  | move {xs ys : List T} {s' s'' : System T} {m : Move T} (h : Runs s xs ys s') (hstep : step s' m = some s'') :
    Runs s (xs++(reply s' m).sent (offer s' m)) (ys++(reply s' m).received) s''

def State.Fits (s : State T) : Prop := ∀ c, s.capacity = some c → s.buffer.length ≤ c

/-- Values are taken from the front of the buffer and added at its end, and none are added once it is closed. -/
structure Transfers (s : State T) (sent received : List T) (s' : State T) : Prop where
  order : received++s'.buffer = s.buffer++sent
  capacity : s'.capacity = s.capacity
  fits : s.Fits → s'.Fits
  closed : s.closed = true → s'.closed = true ∧ sent = []

abbrev Answers (s : State T) (offer : Option T) (a : Return T × System T) : Prop :=
  Transfers s (a.1.sent offer) a.1.received a.2.state

section
variable {s t u : State T} {xs ys xs' ys' : List T}

theorem Transfers.kept (hb : t.buffer = s.buffer) (hc : t.capacity = s.capacity)
    (hclosed : s.closed = true → t.closed = true) : Transfers s [] [] t where
  order := by rw [hb,nil_append,append_nil]
  capacity := hc
  fits := by simp only [State.Fits,hb,hc,imp_self]
  closed h := ⟨hclosed h,rfl⟩

theorem Transfers.trans (h : Transfers s xs ys t) (h' : Transfers t xs' ys' u) :
    Transfers s (xs++xs') (ys++ys') u where
  order := by rw [append_assoc,h'.order,← append_assoc,h.order,append_assoc]
  capacity := h'.capacity.trans h.capacity
  fits := h'.fits ∘ h.fits
  closed hs := by
    obtain ⟨ht,rfl⟩ := h.closed hs
    exact h'.closed ht

end

variable {o : Option T} {v : T} {a : Return T × System T} {s' : System T} {token : Option ℕ} {expires : Bool}

theorem answers_push (hopen : ¬s.state.closed = true) (hroom : ¬s.state.isFull = true) :
    Answers s.state (some v) (.done,(s.push v).wakeReceiver) where
  order := rfl
  capacity := rfl
  fits _ c hc := by
    change (s.state.buffer++[v]).length ≤ c
    by_contra hlen
    rw [length_append,length_singleton] at hlen
    exact hroom (isFull_iff.mpr ⟨c,hc,by omega⟩)
  closed h := absurd h hopen

theorem answers_take (hnil : Answers s.state none a) : Answers s.state none (s.take a) := by
  rw [System.take]
  split
  next v rest hbuf =>
    refine ⟨?_,rfl,fun hfits c hc => ?_,fun h => ⟨h,rfl⟩⟩
    · rw [hbuf]
      exact (append_nil _).symm
    · have hlen := hfits c hc
      rw [hbuf] at hlen
      exact Nat.le_of_succ_le hlen
  next => exact hnil

theorem answers_wait (call : Call T) : Answers s.state o (s.wait call token expires) := by
  rw [System.wait]
  generalize s.waits.enter call token expires .cancelled = entered
  obtain ⟨_ | _,w⟩ := entered <;> cases call <;> exact .kept rfl rfl id

theorem answers_start (call : Call T) : Answers s.state call.offer (s.start call token expires) := by
  cases call with
  | send v =>
    rw [System.start,System.send]
    split
    · exact .kept rfl rfl id
    split
    · exact .kept rfl rfl id
    next hopen =>
      split
      · exact answers_wait _
      · next hroom => exact answers_push hopen hroom
  | receive =>
    rw [System.start,System.receive]
    split
    · exact .kept rfl rfl id
    refine answers_take ?_
    split
    · exact .kept rfl rfl id
    · exact answers_wait _

theorem answers_step {m : Move T} (h : step s m = some s') :
    Answers s.state (offer s m) (reply s m,s') := by
  cases m with
  | call call =>
    cases h
    exact answers_start call
  | trySend v =>
    cases h
    rw [reply,System.trySend]
    split
    · exact .kept rfl rfl id
    next hopen =>
      split
      · exact .kept rfl rfl id
      · next hroom => exact answers_push hopen hroom
  | tryReceive =>
    cases h
    refine answers_take ?_
    split <;> exact .kept rfl rfl id
  | cancel =>
    cases h
    exact .kept rfl rfl id
  | close =>
    cases h
    rw [System.close]
    split
    · exact .kept rfl rfl id
    · exact .kept rfl rfl fun _ => rfl
  | proceed id expires =>
    obtain ⟨b,hgo,rfl⟩ := Option.map_eq_some_iff.mp h
    rw [reply,hgo,offer]
    rw [System.proceed] at hgo
    split at hgo
    next call token _ _ hx =>
      cases hgo
      rw [hx]
      exact answers_start (s := { s with waits := s.waits.leave id }) call
    next =>
      cases hgo
      exact .kept rfl rfl fun h => h
    next => cases hgo

theorem Runs.transfers {xs ys : List T} (h : Runs s xs ys s') : Transfers s.state xs ys s'.state := by
  induction h with
  | start => exact .kept rfl rfl id
  | move _ hstep ih => exact ih.trans (answers_step hstep)

/-- However the calls interleave, the values that are sent come out once each and in their order. -/
theorem values_in_order (capacity : Option ℕ) (positive : capacity ≠ some 0) {sent received : List T} {s : System T}
    (h : Runs (System.new capacity positive) sent received s) :
    received++s.state.buffer = sent ∧ s.state.capacity = capacity ∧ s.state.Fits :=
  ⟨h.transfers.order,h.transfers.capacity,h.transfers.fits fun _ _ => Nat.zero_le _⟩

theorem values_in_order_resumed :
    ∃ s : System ℕ, Runs (System.new none nofun) [5] [5] s ∧ [5]++s.state.buffer = [5] := by
  have hwait := Runs.start.move
    (show step (System.new none nofun : System ℕ) (.call .receive none false) = some _ from rfl)
  have hsend := hwait.move (show step _ (.trySend 5) = some _ from rfl)
  have hproceed := hsend.move (show step _ (.proceed 0 false) = some _ from rfl)
  exact ⟨_,hproceed,(values_in_order none nofun hproceed).1⟩

/-- From when it is closed on, a channel gives out what is left in it and nothing else. -/
theorem closed_drains {s s' : System T} {sent received : List T} (hclosed : s.state.closed = true)
    (h : Runs s sent received s') :
    sent = [] ∧ s'.state.closed = true ∧ received++s'.state.buffer = s.state.buffer := by
  obtain ⟨hclosed',rfl⟩ := h.transfers.closed hclosed
  exact ⟨rfl,hclosed',h.transfers.order.trans (append_nil _)⟩

theorem closed_drains_left : ∃ s s' : System ℕ, Runs s [] [5] s' ∧ [5]++s'.state.buffer = s.state.buffer := by
  have hreceive := Runs.start.move
    (show step (⟨⟨none,nofun,[5],true,[],[]⟩,.new⟩ : System ℕ) .tryReceive = some _ from rfl)
  exact ⟨_,_,hreceive,(closed_drains rfl hreceive).2.2⟩

end

end Whim.Channel
