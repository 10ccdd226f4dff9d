import Whim.Channel
import Whim.Primitives
import Whim.Runs
import Whim.Semaphore

/-!
# No suspension is resolved twice

Tasks use any number of primitives at once, with tokens that may be cancelled at any time. Every call but `sleep`
guards its suspension with a flag; a sleeper that has been woken is met by the cancellation of its token.
-/

namespace Whim

open Waiting Option List

/-! ## Calls with a guard -/

namespace Channel

variable {T : Type} {s s' : System T}

section
variable (h : s.waits.Sound)
include h

theorem sound_wakeSender : s.wakeSender.waits.Sound := h.wakeFirst (.resume ()) s.state.sendWaiters

theorem sound_wakeReceiver : s.wakeReceiver.waits.Sound := h.wakeFirst (.resume ()) s.state.receiveWaiters

theorem sound_take {z : Return T × System T} (hnil : z.2.waits.Sound) : (s.take z).2.waits.Sound := by
  rw [System.take]
  split
  · exact sound_wakeSender h
  · exact hnil

theorem sound_start (call : Call T) (t : Option ℕ) (x : Bool) : (s.start call t x).2.waits.Sound := by
  have hwait : ∀ call, (s.wait call t x).2.waits.Sound := fun call => h.enter call t x .cancelled
  cases call with
  | send v =>
    rw [System.start,System.send]
    split
    · exact h
    split
    · exact h
    split
    · exact hwait (.send v)
    · exact sound_wakeReceiver (s := s.push v) h
  | receive =>
    rw [System.start,System.receive]
    split
    · exact h
    refine sound_take h ?_
    split
    · exact h
    · exact hwait .receive

theorem sound_step {move : Move T} (hstep : step s move = some s') : s'.waits.Sound := by
  cases move with
  | call call t x =>
    cases hstep
    exact sound_start h call t x
  | trySend v =>
    cases hstep
    rw [System.trySend]
    split
    · exact h
    split
    · exact h
    · exact sound_wakeReceiver (s := s.push v) h
  | tryReceive =>
    cases hstep
    refine sound_take h ?_
    split <;> exact h
  | close =>
    cases hstep
    rw [System.close]
    split
    · exact h
    · exact (h.wakeAll _).wakeAll _
  | cancel t =>
    cases hstep
    exact h.cancel t .cancelled
  | proceed id x =>
    obtain ⟨a,hgo,rfl⟩ := map_eq_some_iff.mp hstep
    rw [System.proceed] at hgo
    split at hgo
    next call t _ _ _ =>
      cases hgo
      exact sound_start (s := { s with waits := s.waits.leave id }) (h.leave id) call t x
    next =>
      cases hgo
      exact h.leave id
    next => cases hgo

end

end Channel

namespace Semaphore

variable {T R E : Type} {s s' : System T E}

theorem sound_releaseSlot (h : s.waiting.Sound) : s.releaseSlot.waiting.Sound := by
  have hfirst := h.wakeFirst (.resume ()) s.state.pending
  cases hf : s.state.pending.find? s.waiting.isActive with
  | some =>
    rw [System.releaseSlot,hf]
    exact hfirst
  | none =>
    rw [System.releaseSlot,hf]
    exact hfirst.wakeAll _

theorem sound_step {move : Move T R E} (h : s.waiting.Sound) (hstep : step s move = some s') : s'.waiting.Sound := by
  have hwait : ∀ call t x, (s.wait (R := R) call t x).2.waiting.Sound :=
    fun call t x => h.enter call t x .cancelled
  cases move with
  | waitFor i t x =>
    cases hstep
    rw [System.waitFor]
    split
    · exact h
    split
    · exact hwait (.waitFor i) t x
    · exact h
  | cancel =>
    cases hstep
    exact h.wakeAll _
  | waitForPending t x =>
    cases hstep
    rw [System.waitForPending]
    split
    · exact h
    split
    · exact h
    · exact hwait .waitForPending t x
  | finish ix =>
    obtain ⟨a,hfinish,rfl⟩ := map_eq_some_iff.mp hstep
    unfold System.finish at hfinish
    split at hfinish <;> cases hfinish
    exact sound_releaseSlot (s := { s with running := s.running.eraseIdx ix }) h
  | cancelToken t =>
    cases hstep
    exact h.cancel t .cancelled
  | proceed id =>
    obtain ⟨a,hgo,rfl⟩ := map_eq_some_iff.mp hstep
    rw [System.proceed] at hgo
    split at hgo <;> cases hgo <;> exact h.leave id

end Semaphore

namespace Future

variable {T E : Type} {s s' : System T E}

theorem sound_step {move : Move T E} (h : s.waits.Sound) (hstep : step s move = some s') : s'.waits.Sound := by
  cases move with
  | await t x =>
    cases hstep
    have hwait := h.enter () t x (.cancelled : Exception E)
    rw [System.await]
    generalize s.waits.enter () t x (.cancelled : Exception E) = entered at hwait ⊢
    split
    · exact h
    split
    · exact h
    · exact h
    · obtain ⟨suspended,waits⟩ := entered
      cases suspended <;> exact hwait
  | complete =>
    cases hstep
    rw [System.complete]
    split <;> exact h
  | invoke id =>
    have hinv : s.invoke id = some s' := hstep
    unfold System.invoke at hinv
    split at hinv
    next => cases hinv
    next =>
      split at hinv <;> cases hinv
      split
      next hact => exact h.resolve hact
      next => exact h
  | proceed id =>
    obtain ⟨a,hgo,rfl⟩ := map_eq_some_iff.mp hstep
    unfold System.proceed at hgo
    split at hgo <;> cases hgo
    exact h.leave id

end Future

theorem Barrier.sound_decrement {E : Type} {s : Barrier E} (h : s.waits.Sound) : s.decrement.waits.Sound := by
  rw [decrement]
  split
  · exact h.wakeAll _
  · exact h

theorem WaitGroup.sound_step {s s' : Barrier Exception} {move : Move} (h : s.waits.Sound)
    (hstep : step s move = some s') : s'.waits.Sound := by
  cases move with
  | add =>
    cases hstep
    exact h
  | done =>
    cases hstep
    rw [done]
    split
    · exact h
    · exact Barrier.sound_decrement h
  | wait t x =>
    cases hstep
    rw [wait]
    split
    · exact h
    split
    · exact h
    · exact h.enter () t x .cancelled
  | proceed id =>
    obtain ⟨a,hgo,rfl⟩ := map_eq_some_iff.mp hstep
    unfold proceed at hgo
    split at hgo <;> cases hgo
    exact h.leave id

theorem TaskGroup.sound_step {E : Type} {s s' : System E} {move : Move E} (h : s.barrier.waits.Sound)
    (hstep : step s move = some s') : s'.barrier.waits.Sound := by
  cases move with
  | defer =>
    cases hstep
    exact h
  | finish =>
    rw [step,System.finish] at hstep
    split at hstep <;> cases hstep
    exact Barrier.sound_decrement h
  | awaitAll t x =>
    cases hstep
    rw [System.awaitAll]
    split
    · exact h
    split
    · exact h
    · exact h.enter () t x .cancelled
  | proceed id =>
    obtain ⟨a,hgo,rfl⟩ := map_eq_some_iff.mp hstep
    rw [System.proceed] at hgo
    split at hgo <;> cases hgo <;> exact h.leave id

/-! ## Sleeping -/

namespace Sleep

variable {s s' : System}

/-- Every sleeper that has been woken. -/
def woken (_ : Unit) (_ : Unit) : Bool := true

/-- A sleeper whose timer may still run is not resolved, and one that was thrown into had its token cancelled. -/
structure Snug (s : System) : Prop where
  fresh : ∀ id x, s.waits.table.lookup id = some x → id < s.waits.next
  distinct : s.timers.Nodup
  pending : ∀ id ∈ s.timers, ∃ x, s.waits.table.lookup id = some x ∧ x.outcome = none
  thrown : ∀ id x token, s.waits.table.lookup id = some x → x.token = some token → x.outcome.isSome = true →
    x.resumed woken = true ∨ s.waits.cancelled.contains token = true
  faultless : s.waits.faults = 0

theorem snug_new : Snug .new := ⟨nofun,nodup_nil,forall_mem_nil _,nofun,rfl⟩

theorem Snug.park (h : Snug s) (token : Option ℕ) : Snug ⟨s.timers++[s.waits.next],s.waits.park () token false⟩ := by
  have hnext : s.waits.next ∉ s.timers := by
    intro hmem
    obtain ⟨x,hx,_⟩ := h.pending _ hmem
    exact Nat.lt_irrefl _ (h.fresh _ x hx)
  refine ⟨fun id x hx => ?_,?_,fun id hid => ?_,fun id x t hx ht hsome => ?_,h.faultless⟩
  · rcases Waits.of_lookup_park hx with ⟨rfl,_⟩ | hx
    · exact Nat.lt_succ_self _
    · exact Nat.lt_succ_of_lt (h.fresh id x hx)
  · exact nodup_append.mpr ⟨h.distinct,nodup_singleton _,fun id hid other ho heq =>
      hnext (mem_singleton.mp ho ▸ heq ▸ hid)⟩
  · rw [Waits.lookup_park]
    split
    next => exact ⟨_,rfl,rfl⟩
    next hne => exact h.pending id ((mem_append.mp hid).resolve_right fun hid => hne (mem_singleton.mp hid))
  · rcases Waits.of_lookup_park hx with ⟨_,rfl⟩ | hx
    · cases hsome
    · exact h.thrown id x t hx ht hsome

theorem Snug.cancel (h : Snug s) {token : ℕ}
    (hunclaimed : s.waits.cancelled.contains token = false → s.waits.Unclaimed woken token) :
    Snug (s.cancel token) := by
  rw [System.cancel]
  cases hcontains : s.waits.cancelled.contains token with
  | true => exact h
  | false =>
    rw [if_neg Bool.false_ne_true]
    refine ⟨fun id y hy => ?_,h.distinct.filter _,fun id hid => ?_,fun id y t hy ht hsome => ?_,
      Waits.faults_cancel h.faultless fun _ id x hx hhears => ?_⟩
    · obtain ⟨x,hx,_⟩ := Waits.of_lookup_cancel hy
      rw [Waits.next_cancel]
      exact h.fresh id x hx
    · obtain ⟨hid,hnot⟩ := mem_filter.mp hid
      obtain ⟨x,hx,hn⟩ := h.pending id hid
      rw [hx,any_some,Bool.not_eq_true'] at hnot
      refine ⟨x,?_,hn⟩
      rw [Waits.lookup_cancel token .cancelled hcontains,hx,map_some,if_neg (by rw [hnot]; decide)]
    · rw [contains_iff_mem,Waits.mem_cancelled]
      obtain ⟨x,hx,⟨hhears,rfl⟩ | ⟨_,rfl⟩⟩ := Waits.of_lookup_cancel hy
      · have htoken := of_decide_eq_true (Bool.and_eq_true_iff.mp hhears).1
        exact .inr (.inl (some.inj (ht.symm.trans htoken)))
      · exact (h.thrown id y t hx ht hsome).imp_right fun hthrown => .inr (contains_iff_mem.mp hthrown)
    · have htoken := of_decide_eq_true (Bool.and_eq_true_iff.mp hhears).1
      rw [Bool.eq_false_iff]
      intro hsome
      rcases h.thrown id x token hx htoken hsome with hres | hthrown
      · rw [hunclaimed hcontains id x hx htoken] at hres
        cases hres
      · rw [hcontains] at hthrown
        cases hthrown

theorem mem_cancelled_cancel (s : System) (t : ℕ) : t ∈ (s.cancel t).waits.cancelled := by
  rw [System.cancel]
  split
  next hcontains => exact contains_iff_mem.mp hcontains
  next => exact Waits.mem_cancelled.mpr (.inl rfl)

theorem Snug.leave (h : Snug s) (id : ℕ) : Snug ⟨s.timers.erase id,s.waits.leave id⟩ := by
  refine ⟨fun other x hx => h.fresh other x (Waits.of_lookup_leave hx),h.distinct.erase id,fun other ho => ?_,
    fun other x t hx => h.thrown other x t (Waits.of_lookup_leave hx),h.faultless⟩
  rw [h.distinct.mem_erase_iff] at ho
  rw [Waits.lookup_leave,if_neg ho.1]
  exact h.pending other ho.2

theorem Snug.fire (h : Snug s) {id : ℕ} (hfire : s.fire id = some s') : Snug s' := by
  rw [System.fire] at hfire
  split at hfire
  next hid =>
    cases hfire
    obtain ⟨x,hx,hn⟩ := h.pending id hid
    refine ⟨fun other y hy => ?_,h.distinct.erase id,fun other ho => ?_,fun other y t hy ht hsome => ?_,?_⟩
    · rw [Waits.next_resolve]
      rcases Waits.of_lookup_resolve hx hy with ⟨rfl,_⟩ | hy
      · exact h.fresh other x hx
      · exact h.fresh other y hy
    · rw [h.distinct.mem_erase_iff] at ho
      rw [Waits.lookup_resolve hx,if_neg ho.1]
      exact h.pending other ho.2
    · rw [Waits.cancelled_resolve]
      rcases Waits.of_lookup_resolve hx hy with ⟨_,rfl⟩ | hy
      · rw [Wait.resolve,hn]
        exact .inl rfl
      · exact h.thrown other y t hy ht hsome
    · rw [Waits.resolve_eq hx,hn]
      exact h.faultless
  next => cases hfire

theorem Snug.step {move : Move} (h : Snug s) (hstep : step s move = some s')
    (hunclaimed : ∀ token ∈ s'.waits.cancelled, token ∉ s.waits.cancelled → s.waits.Unclaimed woken token) :
    Snug s' := by
  cases move with
  | sleep token =>
    cases hstep
    revert hunclaimed
    unfold System.sleep
    cases htoken : s.waits.isCancelled token with
    | true => exact fun _ => h
    | false =>
      rw [if_neg Bool.false_ne_true]
      split
      next t =>
        intro hunclaimed
        have hnot : t ∉ s.waits.cancelled := fun hmem => by simp [Waits.isCancelled,hmem] at htoken
        have hmem : t ∈ (System.cancel ⟨s.timers++[s.waits.next],s.waits.park () (some t) false⟩ t).waits.cancelled :=
          mem_cancelled_cancel _ t
        refine ((h.park (some t)).cancel fun _ => ?_).leave _
        exact (hunclaimed t hmem hnot).park () (some t) false
      next => exact fun _ => h.park token
  | fire => exact h.fire hstep
  | proceed id =>
    obtain ⟨a,hgo,rfl⟩ := map_eq_some_iff.mp hstep
    unfold System.proceed at hgo
    split at hgo <;> cases hgo
    exact h.leave id

end Sleep

/-! ## Everything at once -/

/-- Something that tasks wait on. -/
inductive Object (T E : Type)
  | sleep (s : Sleep.System)
  | future (s : Future.System T E)
  | channel (s : Channel.System T)
  | semaphore (s : Semaphore.System T E)
  | waitGroup (s : Barrier WaitGroup.Exception)
  | taskGroup (s : TaskGroup.System E)

inductive Act (T R E : Type)
  | sleep (move : Sleep.Move)
  | future (move : Future.Move T E)
  | channel (move : Channel.Move T)
  | semaphore (move : Semaphore.Move T R E)
  | waitGroup (move : WaitGroup.Move)
  | taskGroup (move : TaskGroup.Move E)

namespace Object

variable {T R E : Type}

/-- An object that nobody has used yet. -/
inductive Unused : Object T E → Prop
  | sleep : Unused (.sleep .new)
  | future : Unused (.future .new)
  | channel (capacity : Option ℕ) (positive : capacity ≠ some 0) : Unused (.channel (.new capacity positive))
  | semaphore (concurrencyLimit : ℕ) (positive : 0 < concurrencyLimit) :
      Unused (.semaphore (.new concurrencyLimit positive))
  | waitGroup : Unused (.waitGroup .new)
  | taskGroup : Unused (.taskGroup .new)

def step : Object T E → Act T R E → Option (Object T E)
  | .sleep s, .sleep move => (Sleep.step s move).map .sleep
  | .future s, .future move => (Future.step s move).map .future
  | .channel s, .channel move => (Channel.step s move).map .channel
  | .semaphore s, .semaphore move => (Semaphore.step s move).map .semaphore
  | .waitGroup s, .waitGroup move => (WaitGroup.step s move).map .waitGroup
  | .taskGroup s, .taskGroup move => (TaskGroup.step s move).map .taskGroup
  | _, _ => none

def cancel (token : ℕ) : Object T E → Object T E
  | .sleep s => .sleep (s.cancel token)
  | .future s => .future { s with waits := s.waits.cancel token .cancelled }
  | .channel s => .channel { s with waits := s.waits.cancel token .cancelled }
  | .semaphore s => .semaphore { s with waiting := s.waiting.cancel token .cancelled }
  | .waitGroup s => .waitGroup { s with waits := s.waits.cancel token .cancelled }
  | .taskGroup s => .taskGroup { s with barrier := { s.barrier with waits := s.barrier.waits.cancel token .cancelled } }

/-- The tokens whose cancellation the object has heard of. -/
def cancelled : Object T E → List ℕ
  | .sleep s => s.waits.cancelled
  | .future s => s.waits.cancelled
  | .channel s => s.waits.cancelled
  | .semaphore s => s.waiting.cancelled
  | .waitGroup s => s.waits.cancelled
  | .taskGroup s => s.barrier.waits.cancelled

/-- How often a suspension was resolved that had been resolved already. -/
def faults : Object T E → ℕ
  | .sleep s => s.waits.faults
  | .future s => s.waits.faults
  | .channel s => s.waits.faults
  | .semaphore s => s.waiting.faults
  | .waitGroup s => s.waits.faults
  | .taskGroup s => s.barrier.waits.faults

/-- No sleeper with the token has been woken by its timer and has not run yet. -/
def Unclaimed (token : ℕ) : Object T E → Prop
  | .sleep s => s.waits.Unclaimed Sleep.woken token
  | _ => True

def Sound : Object T E → Prop
  | .sleep s => Sleep.Snug s
  | .future s => s.waits.Sound
  | .channel s => s.waits.Sound
  | .semaphore s => s.waiting.Sound
  | .waitGroup s => s.waits.Sound
  | .taskGroup s => s.barrier.waits.Sound

variable {o o' : Object T E}

theorem Unused.sound (h : o.Unused) : o.Sound := by
  cases h with
  | sleep => exact Sleep.snug_new
  | _ => exact .new

theorem Sound.faultless (h : o.Sound) : o.faults = 0 := by
  cases o with
  | sleep => exact Sleep.Snug.faultless h
  | _ => exact Waits.Sound.faultless h

theorem Sound.step {act : Act T R E} (h : o.Sound) (hstep : o.step act = some o')
    (hunclaimed : ∀ t ∈ o'.cancelled, t ∉ o.cancelled → o.Unclaimed t) : o'.Sound := by
  cases o <;> cases act <;>
    first | cases hstep | obtain ⟨s',hm,rfl⟩ := map_eq_some_iff.mp hstep
  case sleep.sleep => exact Sleep.Snug.step h hm hunclaimed
  case future.future => exact Future.sound_step h hm
  case channel.channel => exact Channel.sound_step h hm
  case semaphore.semaphore => exact Semaphore.sound_step h hm
  case waitGroup.waitGroup => exact WaitGroup.sound_step h hm
  case taskGroup.taskGroup => exact TaskGroup.sound_step h hm

variable {t : ℕ}

theorem Sound.cancel (h : o.Sound) (hunclaimed : t ∉ o.cancelled → o.Unclaimed t) : (o.cancel t).Sound := by
  cases o with
  | sleep s => exact Sleep.Snug.cancel h fun hnot => hunclaimed (show t ∉ s.waits.cancelled by simpa using hnot)
  | _ => exact Waits.Sound.cancel h t .cancelled

theorem Unclaimed.cancel (h : o.Unclaimed t) (other : ℕ) : (o.cancel other).Unclaimed t := by
  cases o with
  | sleep s =>
    show (s.cancel other).waits.Unclaimed Sleep.woken t
    rw [Sleep.System.cancel]
    split
    · exact h
    · exact Waits.Unclaimed.cancel h other .cancelled
  | _ => exact h

theorem cancelled_cancel (o : Object T E) (token : ℕ) (h : t ∈ o.cancelled) : t ∈ (o.cancel token).cancelled := by
  cases o with
  | sleep s =>
    show t ∈ (s.cancel token).waits.cancelled
    rw [Sleep.System.cancel]
    split
    · exact h
    · exact Waits.mem_cancelled.mpr (.inr h)
  | _ => exact Waits.mem_cancelled.mpr (.inr h)

/-- Several tokens are cancelled. -/
def cancelAll (tokens : List ℕ) (o : Object T E) : Object T E := tokens.foldr cancel o

theorem Unclaimed.cancelAll {token : ℕ} (h : o.Unclaimed token) (ts : List ℕ) : (o.cancelAll ts).Unclaimed token := by
  induction ts with
  | nil => exact h
  | cons t _ ih => exact ih.cancel t

theorem cancelled_cancelAll (o : Object T E) (ts : List ℕ) (h : t ∈ o.cancelled) :
    t ∈ (o.cancelAll ts).cancelled := by
  induction ts with
  | nil => exact h
  | cons token _ ih => exact cancelled_cancel _ token ih

theorem Sound.cancelAll (h : o.Sound) {ts : List ℕ}
    (hunclaimed : ∀ t ∈ ts, t ∉ o.cancelled → o.Unclaimed t) : (o.cancelAll ts).Sound := by
  induction ts with
  | nil => exact h
  | cons _ ts ih =>
    rw [forall_mem_cons] at hunclaimed
    refine (ih hunclaimed.2).cancel fun hnot => ?_
    exact (hunclaimed.1 fun hmem => hnot (cancelled_cancelAll o ts hmem)).cancelAll ts

end Object

/-- Any number of objects. -/
abbrev World (T E : Type) : Type := ℕ → Object T E

namespace World

/-- A task does something with one object, or a token is cancelled. -/
inductive Move (T R E : Type)
  | act (i : ℕ) (act : Act T R E)
  | cancel (token : ℕ)

variable {T R E : Type}

/-- A token that expires while a task uses one object is cancelled for all of them. -/
def step (w : World T E) : Move T R E → Option (World T E)
  | .act i act => ((w i).step act).map fun o j => if j = i then o else (w j).cancelAll o.cancelled
  | .cancel token => some fun i => (w i).cancel token

/-- A token is cancelled, or expires, only while every sleeper with that token that its timer has woken has also run. -/
def Careful (w : World T E) : Move T R E → Prop
  | .act i act => ∀ o, (w i).step act = some o → ∀ token ∈ o.cancelled, ∀ j, token ∉ (w j).cancelled →
      (w j).Unclaimed token
  | .cancel token => ∀ i, token ∉ (w i).cancelled → (w i).Unclaimed token

theorem sound_step {w w' : World T E} {move : Move T R E} (h : ∀ i, (w i).Sound) (hcareful : Careful w move)
    (hstep : step w move = some w') : ∀ i, (w' i).Sound := by
  intro j
  cases move with
  | act i =>
    obtain ⟨o,ho,rfl⟩ := map_eq_some_iff.mp hstep
    dsimp only
    split
    next => exact (h i).step ho fun t hmem hnot => hcareful o ho t hmem i hnot
    next => exact (h j).cancelAll fun t hmem hnot => hcareful o ho t hmem j hnot
  | cancel =>
    cases hstep
    exact (h j).cancel (hcareful j)

/-- Where no token is cancelled between the moment a timer wakes a sleeper and the moment the sleeper runs, no suspension
is resolved twice. -/
theorem suspensions_resolved_once (R : Type) (start w : World T E) (hstart : ∀ i, (start i).Unused)
    (h : Visits (step (R := R)) Careful start w) : ∀ i, (w i).faults = 0 := by
  have hsound : ∀ i, (w i).Sound :=
    h.invariant (P := fun w => ∀ i, (w i).Sound) (fun i => (hstart i).sound) fun _ _ _ h hcareful hstep =>
      sound_step h hcareful hstep
  exact fun i => (hsound i).faultless

def sleepers : World ℕ Unit := fun _ => .sleep .new

/-- A sleeper runs before its token is cancelled. -/
theorem suspensions_resolved_once_woken : ∃ w : World ℕ Unit,
    [.act 0 (.sleep (.sleep (some 7) false)),.act 0 (.sleep (.fire 0)),.act 0 (.sleep (.proceed 0)),
      .cancel 7].foldlM (step (R := Unit)) sleepers = some w ∧ ∀ i, (w i).faults = 0 := by
  have hstart : Visits (step (R := Unit)) Careful sleepers _ := .start
  have hsleep := hstart.move (show Careful _ (.act 0 (.sleep (.sleep (some 7) false))) by rintro o ⟨⟩; nofun) rfl
  have hfire := hsleep.move (show Careful _ (.act 0 (.sleep (.fire 0))) by rintro o ⟨⟩; nofun) rfl
  have hproceed := hfire.move (show Careful _ (.act 0 (.sleep (.proceed 0))) by rintro o ⟨⟩; nofun) rfl
  have hcancel := hproceed.move (show Careful _ (.cancel 7) by
    intro i _
    cases i with
    | zero => exact nofun
    | succ => exact nofun) rfl
  exact ⟨_,rfl,suspensions_resolved_once Unit sleepers _ (fun _ => .sleep) hcancel⟩

/-- A timer wakes a sleeper, and its token is cancelled before the sleeper runs: the callback throws into a suspension
that has been resolved. -/
theorem woken_sleeper_cancelled : ∃ w : World ℕ Unit,
    [.act 0 (.sleep (.sleep (some 7) false)),.act 0 (.sleep (.fire 0)),.cancel 7].foldlM (step (R := Unit)) sleepers =
      some w ∧ (w 0).faults = 1 := ⟨_,rfl,rfl⟩

end World
end Whim
