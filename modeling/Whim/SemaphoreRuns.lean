import Whim.Semaphore
import Whim.Runs

/-!
# The slots of a semaphore

A slot belongs to a call inside the operation or to one that has been handed it; no call waits while a slot is free,
and slots go to the calls in the order in which they queued.
-/

namespace Whim.Semaphore

open Waiting List

variable {T R E : Type} {s : System T E} {m : ℕ}

def Call.isSlot : Call T → Bool
  | .waitFor _ => true
  | .waitForPending => false

/-- Calls that have been handed a slot. -/
def isSlot (call : Call T) (_ : Unit) : Bool := call.isSlot

/-- A run keeps this. In the middle of a step there may be slots that belong to nobody. -/
structure Inv (limit free : ℕ) (s : System T E) : Prop where
  limited : s.state.concurrencyLimit = limit
  sound : s.waiting.Sound
  pending : s.waiting.Queued (·.isSlot = true) s.state.pending
  waits : s.waiting.Queued (·.isSlot = false) s.state.waits
  slots : s.state.ongoing = s.running.length+s.waiting.resumed isSlot+free
  bounded : s.state.ongoing ≤ s.state.concurrencyLimit
  full : ∀ id ∈ s.state.pending, s.waiting.isActive id = true → s.state.ongoing = s.state.concurrencyLimit
  order : ∃ gone, s.queued = gone++s.state.pending ∧ s.granted.Sublist gone
  fresh : ∀ id ∈ s.queued, id < s.waiting.next
  distinct : s.queued.Nodup

theorem inv_new (concurrencyLimit : ℕ) (pos : 0 < concurrencyLimit) :
    Inv concurrencyLimit 0 (.new concurrencyLimit pos : System T E) :=
  ⟨rfl,.new,.nil,.nil,rfl,Nat.zero_le _,forall_mem_nil _,⟨[],rfl,.slnil⟩,forall_mem_nil _,.nil⟩

/-- A call takes a slot into the operation. -/
theorem Inv.begin (h : Inv m 1 s) (i : T) : Inv m 0 { s with running := s.running++[i] } :=
  { h with
    slots := by
      have hslots := h.slots
      simp only [length_append,length_singleton]
      omega }

theorem Inv.finished {i : ℕ} (h : Inv m 0 s) (hindex : i < s.running.length) :
    Inv m 1 { s with running := s.running.eraseIdx i } :=
  { h with
    slots := by
      have hslots := h.slots
      simp only [length_eraseIdx,if_pos hindex]
      omega }

/-- A call that finds a free slot. -/
theorem Inv.take (h : Inv m 0 s) (hf : s.state.ongoing < s.state.concurrencyLimit) :
    Inv m 1 { s with state := { s.state with ongoing := s.state.ongoing+1 } } :=
  { h with
    slots := congrArg (· + 1) h.slots
    bounded := hf
    full := fun id hid hactive => absurd (h.full id hid hactive) (Nat.ne_of_lt hf) }

theorem Inv.cancelToken {free : ℕ} (h : Inv m free s) (t : ℕ) :
    Inv m free { s with waiting := s.waiting.cancel t .cancelled } :=
  { h with
    sound := h.sound.cancel t .cancelled
    pending := h.pending.cancel t .cancelled
    waits := h.waits.cancel t .cancelled
    slots := by
      rw [Waits.resumed_cancel]
      exact h.slots
    full := fun id hid hactive => h.full id hid (Waits.isActive_of_cancel hactive)
    fresh := fun id hid => by
      rw [Waits.next_cancel]
      exact h.fresh id hid }

section
variable (h : Inv m 0 s)
include h

/-- A call that goes on takes its slot with it. -/
theorem Inv.leave {id : ℕ} {x : Wait (Call T) Unit (Exception E)} (hx : s.waiting.table.lookup id = some x) :
    Inv m (x.resumed isSlot).toNat { s with waiting := s.waiting.leave id } :=
  { h with
    sound := h.sound.leave id
    pending := h.pending.leave id
    waits := h.waits.leave id
    slots := by
      have hslots := h.slots
      have hleave := Waits.resumed_leave isSlot hx
      dsimp only
      omega
    full := fun o ho hactive => h.full o ho (Waits.isActive_of_leave hactive) }

variable {call : Call T}

/-- A call begins to wait, for a slot only if there is none. -/
theorem Inv.park
    (hfull : call.isSlot → s.state.concurrencyLimit ≤ s.state.ongoing) (t : Option ℕ) :
    Inv m 0 { s.enqueue call with waiting := s.waiting.park call t true } := by
  have hslots : s.state.ongoing = s.running.length+(s.waiting.park call t true).resumed isSlot := by
    rw [h.sound.resumed_park]
    exact h.slots
  cases call with
  | waitFor =>
    have heq := Nat.le_antisymm h.bounded (hfull rfl)
    refine ⟨h.limited,h.sound.park _ t,h.pending.append rfl t true,h.waits.park _ t true,hslots,h.bounded,
      fun _ _ _ => heq,?_,fun id hid => ?_,?_⟩
    · obtain ⟨gone,hqueued,hgranted⟩ := h.order
      exact ⟨gone,by simp [System.enqueue,hqueued],hgranted⟩
    · rcases mem_append.mp hid with hid | hid
      · exact Nat.lt_succ_of_lt (h.fresh id hid)
      · rw [mem_singleton.mp hid]
        exact Nat.lt_succ_self _
    · refine nodup_append.mpr ⟨h.distinct,nodup_singleton _,fun id hid o ho => ?_⟩
      rw [mem_singleton.mp ho]
      exact Nat.ne_of_lt (h.fresh id hid)
  | waitForPending =>
    refine ⟨h.limited,h.sound.park _ t,h.pending.park _ t true,h.waits.append rfl t true,hslots,h.bounded,
      fun id hid hactive => ?_,h.order,fun id hid => Nat.lt_succ_of_lt (h.fresh id hid),h.distinct⟩
    exact h.full id hid (Waits.isActive_of_park (Nat.ne_of_lt (h.pending.fresh id hid)) hactive)

theorem Inv.wait {token : Option ℕ} {x : Bool} (htoken : s.waiting.isCancelled token = false)
    (hfull : call.isSlot → s.state.concurrencyLimit ≤ s.state.ongoing) :
    Inv m 0 (s.wait (R := R) call token x).2 := by
  have hpark := h.park hfull token
  rw [System.wait]
  rcases s.waiting.enter_cases call token x .cancelled with ⟨hcancelled,_⟩ | ⟨_,heq | ⟨t,rfl,rfl,heq⟩⟩
  · rw [htoken] at hcancelled
    cases hcancelled
  · rw [heq]
    exact hpark
  · rw [heq]
    exact (hpark.cancelToken t).leave (Waits.lookup_expired htoken call true .cancelled)

theorem Inv.waitFor (i : T) (t : Option ℕ) (x : Bool) : Inv m 0 (s.waitFor (R := R) i t x).2 := by
  rw [System.waitFor]
  cases htoken : s.waiting.isCancelled t with
  | true => exact h
  | false =>
    rw [if_neg Bool.false_ne_true]
    split
    next hfull => exact h.wait htoken fun _ => hfull
    next hf => exact (h.take (Nat.lt_of_not_le hf)).begin i

theorem Inv.waitForPending (t : Option ℕ) (x : Bool) : Inv m 0 (s.waitForPending (R := R) t x).2 := by
  rw [System.waitForPending]
  split
  · exact h
  cases htoken : s.waiting.isCancelled t with
  | true => exact h
  | false =>
    rw [if_neg Bool.false_ne_true]
    exact h.wait htoken nofun

end

theorem Inv.order_nil {free : ℕ} (h : Inv m free s) : ∃ gone, s.queued = gone++[] ∧ s.granted.Sublist gone := by
  obtain ⟨gone,hqueued,hgranted⟩ := h.order
  exact ⟨s.queued,(append_nil _).symm,hqueued ▸ hgranted.trans (sublist_append_left gone _)⟩

theorem Inv.cancel (h : Inv m 0 s) (e : E) : Inv m 0 (s.cancel e) :=
  { h with
    sound := h.sound.wakeAll _
    pending := .nil
    waits := h.waits.wakeAll _
    slots := by
      have hslots := h.slots
      rw [System.cancel,Waits.resumed_wakeAll_throw]
      exact hslots
    full := forall_mem_nil _
    order := h.order_nil
    fresh := fun id hid => by
      rw [System.cancel,Waits.next_wakeAll]
      exact h.fresh id hid }

/-- A slot that belongs to nobody goes to the first call that waits for one, or is given back. -/
theorem Inv.releaseSlot (h : Inv m 1 s) : Inv m 0 s.releaseSlot := by
  rw [System.releaseSlot]
  rcases s.waiting.wakeFirst_cases (.resume ()) s.state.pending with
    ⟨hf,heq⟩ | ⟨before,id,after,hpending,hf,hactive,heq⟩
  · rw [heq,hf]
    refine ⟨h.limited,h.sound.wakeAll _,.nil,.nil,?_,(Nat.sub_le _ _).trans h.bounded,forall_mem_nil _,h.order_nil,
      fun id hid => ?_,h.distinct⟩
    · have hslots := h.slots
      have ho : s.waiting.Queued (∀ v, isSlot · v = false) s.state.waits :=
        ⟨h.waits.fresh,fun id hid x hx _ => h.waits.kind id hid x hx⟩
      rw [Waits.resumed_wakeAll_of_other ho]
      dsimp only
      omega
    · rw [Waits.next_wakeAll]
      exact h.fresh id hid
  · rw [heq,hf]
    obtain ⟨x,hx,hxactive⟩ := Waits.isActive_iff.mp hactive
    have hk : x.kind.isSlot = true := h.pending.kind id (by simp [hpending]) x hx
    have hafter : ∀ o ∈ after, o ∈ s.state.pending := fun o ho => by simp [hpending,ho]
    refine ⟨h.limited,h.sound.resolve hactive,(h.pending.resolve hactive).of_subset hafter,h.waits.resolve hactive,?_,
      h.bounded,
      fun o ho ho' => h.full o (hafter o ho) (Waits.isActive_of_resolve hx ho'),?_,
      fun o ho => ?_,h.distinct⟩
    · have hslots := h.slots
      rw [h.sound.resumed_resume isSlot hx hxactive,isSlot,hk]
      dsimp only [Bool.toNat_true]
      omega
    · obtain ⟨gone,hqueued,hgranted⟩ := h.order
      refine ⟨gone++before++[id],by simp [hqueued,hpending],?_⟩
      exact (hgranted.trans (sublist_append_left gone before)).append (List.Sublist.refl [id])
    · rw [Waits.next_resolve]
      exact h.fresh o ho

theorem Inv.proceed (h : Inv m 0 s) {id : ℕ} {a : Return R E × System T E}
    (hgo : s.proceed id = some a) : Inv m 0 a.2 := by
  rw [System.proceed] at hgo
  split at hgo
  next i _ _ _ hx =>
    cases hgo
    exact (h.leave hx).begin i
  next hx =>
    cases hgo
    exact h.leave hx
  next hx =>
    cases hgo
    exact h.leave hx
  next => cases hgo

theorem Inv.step {s' : System T E} {move : Move T R E} (h : Inv m 0 s) (hstep : step s move = some s') :
    Inv m 0 s' := by
  cases move with
  | waitFor i t x =>
    cases hstep
    exact h.waitFor i t x
  | cancel e =>
    cases hstep
    exact h.cancel e
  | waitForPending t x =>
    cases hstep
    exact h.waitForPending t x
  | finish =>
    obtain ⟨a,hfinish,rfl⟩ := Option.map_eq_some_iff.mp hstep
    unfold System.finish at hfinish
    split at hfinish
    next hindex =>
      cases hfinish
      exact (h.finished hindex).releaseSlot
    next => cases hfinish
  | cancelToken t =>
    cases hstep
    exact h.cancelToken t
  | proceed =>
    obtain ⟨a,hgo,rfl⟩ := Option.map_eq_some_iff.mp hstep
    exact h.proceed hgo

end Whim.Semaphore
