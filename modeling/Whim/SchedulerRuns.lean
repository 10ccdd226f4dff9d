import Whim.SchedulerInvariant

/-!
# Runs of the scheduler

The bookkeeping is exact, and every wake of a task that was not queued leads to one activation, which hands over what
the task was woken with.
-/

namespace Whim

open List Option UInt64

namespace Scheduler

open Tally

variable {H V : Type} {s s' : Scheduler H V} {id : TaskId} {task : Task H V} {a : Activation V}
  {events : List (Event V)} {ops : List (Operation H V)}

/-- An activation of this task. -/
def Event.activates (id : TaskId) : Event V → Bool
  | .activated other _ => other == id
  | _ => false

/-- The activation that a queued task waits for. -/
def queuedWith (s : Scheduler H V) (id : TaskId) : Option (Activation V) :=
  (s.tasks.lookup id).bind fun task => if task.queued then task.pending else none

def activations (id : TaskId) (events : List (Event V)) : ℕ := events.countP (Event.activates id)

/-- The steps of a run that queue a task. -/
def wakes (id : TaskId) : Scheduler H V → List (Operation H V) → ℕ
  | _, [] => 0
  | s, op::ops => (!s.isQueued id && (s.step op).1.isQueued id).toNat+wakes id (s.step op).1 ops

/-- The steps of a run that remove a queued task. -/
def losses (id : TaskId) : Scheduler H V → List (Operation H V) → ℕ
  | _, [] => 0
  | s, op::ops => (s.isQueued id && ((s.step op).1.tasks.lookup id).isNone).toNat+losses id (s.step op).1 ops

/-- The first activation of a task in a run hands over this activation; or the task has none in the run, and
still waits for it or is no longer live. -/
def Delivers (id : TaskId) (a : Activation V) (outcome : Scheduler H V × List (Event V)) : Prop :=
  (∃ before after, outcome.2 = before ++ .activated id a::after ∧ activations id before = 0) ∨
    activations id outcome.2 = 0 ∧ (outcome.1.queuedWith id = some a ∨ outcome.1.tasks.lookup id = none)

/-- The bookkeeping of a state, and what it means for the loop that drives it. -/
structure Exact (s : Scheduler H V) : Prop where
  once : ∀ id task, s.tasks.lookup id = some task →
    (s.ready++s.microtasks).count id = task.queued.toNat ∧
      (if task.microtask then s.microtasks else s.ready).count id = task.queued.toNat
  referenced : s.referencedTasks.toNat = count (·.referenced) s.tasks
  live : s.liveTimers.toNat = count (·.timerGeneration.isSome) s.tasks
  armed : ∀ id task, s.tasks.lookup id = some task → task.timerGeneration.isSome = true →
    ∃ timer ∈ s.timers, timer.task = id ∧ timer.generation = task.generation
  idle : s.isIdle = true ↔ ∀ id task, s.tasks.lookup id = some task → task.referenced = false
  wakeSource : ∀ id task, s.tasks.lookup id = some task → task.timerGeneration.isSome = true →
    s.hasWakeSource = true
  woken : ∀ id task a front, s.tasks.lookup id = some task → task.queued = false →
    (s.enqueueWithPriority id a front).queuedWith id = some a
  delivered : ∀ id a ops, s.queuedWith id = some a → Throughout Bounded s ops → Delivers id a (s.run ops)
  drained : ∀ id, activations id
    (s.run (List.replicate (s.ready.length+s.microtasks.length) .nextActivation)).2 = (s.isQueued id).toNat

theorem Sound.run (h : Sound s) (hb : Throughout Bounded s ops) : Sound (s.run ops).1 := by
  have hmoves : Moves True False s (s.run ops).2 (s.run ops).1 := run_moves ops (fun _ => hb) False.elim
  exact Trace.invariant (P := fun _ s => Sound s) (fun _ _ _ _ hs hm => hs.move hm) hmoves [] h

theorem Sound.step (h : Sound s) (op : Operation H V) (hb : s.Bounded op) : Sound (s.step op).1 := by
  have hrun : Sound (s.run [op]).1 := h.run ⟨hb,trivial⟩
  exact hrun

/-! ## Queued tasks -/

theorem queuedWith_of_lookup (hid : s.tasks.lookup id = some task) :
    s.queuedWith id = if task.queued then task.pending else none := by
  rw [queuedWith,hid]
  rfl

theorem isQueued_of_lookup (hid : s.tasks.lookup id = some task) : s.isQueued id = task.queued := by
  rw [isQueued,hid]
  rfl

attribute [local simp] activations Event.activates Scheduler.run queuedWith

theorem Sound.queuedWith_isSome (h : Sound s) (id : TaskId) : (s.queuedWith id).isSome = s.isQueued id := by
  cases hid : s.tasks.lookup id with
  | none => simp [isQueued,hid]
  | some task =>
    rw [queuedWith_of_lookup hid,isQueued_of_lookup hid]
    cases hq : task.queued with
    | false => rfl
    | true => exact (h.tasks id task hid).pending hq

theorem queuedWith_eq_some : s.queuedWith id = some a ↔
    ∃ task, s.tasks.lookup id = some task ∧ task.queued ∧ task.pending = some a := by
  cases hid : s.tasks.lookup id with
  | none => simp [hid]
  | some task => cases hq : task.queued <;> simp [hid,hq]

/-- A task that was live once and is not any more. -/
def Gone (s : Scheduler H V) (id : TaskId) : Prop := s.tasks.lookup id = none ∧ id < s.nextId

theorem Sound.lt_nextId (h : Sound s) (hid : s.tasks.lookup id = some task) : id < s.nextId :=
  h.ids id (mem_tasks hid)

theorem Sound.ne_nextId (h : Sound s) (hid : s.tasks.lookup id = some task) : id ≠ s.nextId := by
  rintro rfl
  exact absurd (h.lt_nextId hid) (UInt64.lt_irrefl _)

variable {guarded : Prop}

/-- What a move does to a task that is queued: it stays so, with the same activation, until it is activated or
removed. -/
theorem Sound.move_queuedWith (h : Sound s) (hm : Move True guarded s events s')
    (hqueued : s.queuedWith id = some a) : events = [.activated id a] ∨
      activations id events = 0 ∧ (s'.queuedWith id = some a ∨ s'.Gone id) := by
  obtain ⟨task,hid,hq,hp⟩ := queuedWith_eq_some.mp hqueued
  -- The moves that change only what the queue does not show.
  have hkeeps {j : TaskId} {o o' : Task H V} {t : Scheduler H V} (hj : s.tasks.lookup j = some o)
      (htasks : t.tasks = s.tasks.insert j o') (hq' : o.queued = true → o'.queued = true)
      (hp' : o.queued = true → o'.pending = o.pending) : t.queuedWith id = some a := by
    by_cases hne : id = j
    · subst hne
      rw [hid] at hj
      cases hj
      exact queuedWith_eq_some.mpr ⟨o',by rw [htasks,AList.lookup_insert],hq' hq,(hp' hq).trans hp⟩
    · exact queuedWith_eq_some.mpr ⟨task,by rw [htasks,AList.lookup_insert_ne hne]; exact hid,hq,hp⟩
  cases hm with
  | forget hforgets =>
    exact .inr ⟨rfl,.inl (queuedWith_eq_some.mpr ⟨task,by rw [hforgets.tasks]; exact hid,hq,hp⟩)⟩
  | insert =>
    refine .inr ⟨rfl,.inl (queuedWith_eq_some.mpr ⟨task,?_,hq,hp⟩)⟩
    exact (AList.lookup_insert_ne (h.ne_nextId hid)).trans hid
  | @remove j =>
    refine .inr ⟨rfl,?_⟩
    by_cases hne : id = j
    · subst hne
      exact .inr ⟨AList.lookup_erase _ _,h.lt_nextId hid⟩
    · exact .inl (queuedWith_eq_some.mpr ⟨task,(AList.lookup_erase_ne hne).trans hid,hq,hp⟩)
  | arm hj => exact .inr ⟨rfl,.inl (hkeeps hj rfl (·) fun _ => rfl)⟩
  | @renew j o hj hidle =>
    refine .inr ⟨rfl,.inl ?_⟩
    by_cases hqueued : o.queued = true
    · have hpending := (h.tasks j o hj).pending hqueued
      rw [hidle hpending] at hqueued
      cases hqueued
    · exact hkeeps hj rfl (fun hq => absurd hq hqueued) fun hq => absurd hq hqueued
  | mark hj _ _ f =>
    exact .inr ⟨rfl,.inl (hkeeps hj (tasks_markQueuedWithPriority hj f) (fun _ => rfl) fun _ => rfl)⟩
  | @expire _ _ o _ hj =>
    refine .inr ⟨?_,.inl (hkeeps hj rfl (·) fun _ => rfl)⟩
    cases o.queued <;> rfl
  | refer hj => exact .inr ⟨rfl,.inl (hkeeps hj rfl (·) fun _ => rfl)⟩
  | skip => exact .inr ⟨rfl,.inl (queuedWith_eq_some.mpr ⟨task,by rw [tasks_setQueue]; exact hid,hq,hp⟩)⟩
  | discard hqueue hj hidle => exact absurd hidle (h.not_discarded hqueue hj)
  | @activate j _ _ _ _ _ hj _ hpending =>
    by_cases hne : id = j
    · subst hne
      rw [hid] at hj
      cases hj
      rw [hp] at hpending
      cases hpending
      exact .inl rfl
    · refine .inr ⟨?_,.inl (queuedWith_eq_some.mpr ⟨task,?_,hq,hp⟩)⟩
      · simp [Ne.symm hne]
      · rw [tasks_setQueue]
        exact (AList.lookup_insert_ne hne).trans hid

theorem Sound.move_gone (h : Sound s) (hm : Move True guarded s events s') (hgone : s.Gone id) :
    activations id events = 0 ∧ s'.Gone id := by
  obtain ⟨hid,hlt⟩ := hgone
  have hkeeps {j : TaskId} {o o' : Task H V} (hj : s.tasks.lookup j = some o) :
      (s.tasks.insert j o').lookup id = none := by
    have hne : id ≠ j := by
      rintro rfl
      rw [hid] at hj
      cases hj
    rw [AList.lookup_insert_ne hne,hid]
  cases hm with
  | forget hforgets => exact ⟨rfl,by rw [hforgets.tasks]; exact hid,by rw [hforgets.nextId]; exact hlt⟩
  | insert hnext =>
    have hne : id ≠ s.nextId := by
      rintro rfl
      exact absurd hlt (UInt64.lt_irrefl _)
    refine ⟨rfl,(AList.lookup_insert_ne hne).trans hid,?_⟩
    exact UInt64.lt_trans hlt (lt_succ (hnext trivial))
  | remove =>
    refine ⟨rfl,?_,hlt⟩
    exact AList.lookup_eq_none.mpr fun hmem => AList.lookup_eq_none.mp hid (AList.mem_erase.mp hmem).2
  | arm hj => exact ⟨rfl,hkeeps hj,hlt⟩
  | renew hj => exact ⟨rfl,hkeeps hj,hlt⟩
  | mark hj _ _ f =>
    refine ⟨rfl,by rw [tasks_markQueuedWithPriority hj]; exact hkeeps hj,?_⟩
    rw [(frame_markQueuedWithPriority f).1]
    exact hlt
  | @expire _ _ o _ hj =>
    refine ⟨?_,hkeeps hj,hlt⟩
    cases o.queued <;> rfl
  | refer hj => exact ⟨rfl,hkeeps hj,hlt⟩
  | skip => exact ⟨rfl,by rw [tasks_setQueue]; exact hid,by rw [nextId_setQueue]; exact hlt⟩
  | discard hq hj hidle => exact absurd hidle (h.not_discarded hq hj)
  | @activate j _ _ _ _ _ hj =>
    have hne : id ≠ j := by
      rintro rfl
      rw [hid] at hj
      cases hj
    refine ⟨by simp [Ne.symm hne],?_,by rw [nextId_setQueue]; exact hlt⟩
    rw [tasks_setQueue]
    exact hkeeps hj

/-- Along moves, the first activation of a queued task is the one it waits for. -/
theorem Sound.moves_deliver (h : Sound s) (hmoves : Moves True guarded s events s')
    (hqueued : s.queuedWith id = some a) : Delivers id a (s',events) := by
  have hinv := Trace.invariant (P := fun past t => Sound t ∧
      ((∃ before after, past = before ++ .activated id a::after ∧ activations id before = 0) ∨
        activations id past = 0 ∧ (t.queuedWith id = some a ∨ t.Gone id))) ?_ hmoves []
      ⟨h,.inr ⟨rfl,.inl hqueued⟩⟩
  · rcases hinv.2 with hdone | ⟨hn,hwaits | hgone⟩
    · exact .inl hdone
    · exact .inr ⟨hn,.inl hwaits⟩
    · exact .inr ⟨hn,.inr hgone.1⟩
  · rintro past t more u ⟨ht,hpast⟩ hm
    refine ⟨ht.move hm,?_⟩
    rcases hpast with ⟨before,after,rfl,hbefore⟩ | ⟨hn,hwaits | hgone⟩
    · exact .inl ⟨before,after++more,by simp,hbefore⟩
    · rcases ht.move_queuedWith hm hwaits with rfl | ⟨hmore,hnext⟩
      · exact .inl ⟨past,[],rfl,hn⟩
      · exact .inr ⟨by simp at hn hmore ⊢; exact ⟨hn,hmore⟩,hnext⟩
    · obtain ⟨hmore,hnext⟩ := ht.move_gone hm hgone
      exact .inr ⟨by simp at hn hmore ⊢; exact ⟨hn,hmore⟩,.inr hnext⟩

/-! ## Activations -/

/-- In a queue of tasks that wait for an activation or are dead, the first one that waits is taken. -/
theorem popQueue_cases (tasks : AList fun _ : TaskId => Task H V) (queue : List TaskId)
    (hwaits : ∀ id ∈ queue, ∀ task, tasks.lookup id = some task →
      task.readyRequested ∧ task.pending.isSome) :
    (popQueue tasks queue = (tasks,[],none) ∧ ∀ id ∈ queue, tasks.lookup id = none) ∨
      ∃ dead id rest task activation, queue = dead++id::rest ∧ (∀ j ∈ dead, tasks.lookup j = none) ∧
        tasks.lookup id = some task ∧ task.pending = some activation ∧ popQueue tasks queue =
          (tasks.insert id { task.dequeued with pending := none },rest,some ⟨id,task.coroutine,activation⟩) := by
  induction queue with
  | nil => exact .inl ⟨rfl,by simp⟩
  | cons id queue ih =>
    unfold popQueue
    cases hid : tasks.lookup id with
    | none =>
      rcases ih fun j hj => hwaits j (mem_cons_of_mem id hj) with
        ⟨hpop,hdead⟩ | ⟨dead,j,rest,task,activation,rfl,hdead,hj,hpending,hpop⟩
      · exact .inl ⟨hpop,forall_mem_cons.mpr ⟨hid,hdead⟩⟩
      · exact .inr ⟨id::dead,j,rest,task,activation,rfl,forall_mem_cons.mpr ⟨hid,hdead⟩,hj,hpending,hpop⟩
    | some task =>
      obtain ⟨hready,hsome⟩ := hwaits id (mem_cons_self) task hid
      obtain ⟨activation,hpending⟩ := isSome_iff_exists.mp hsome
      refine .inr ⟨[],id,queue,task,activation,rfl,by simp,hid,hpending,?_⟩
      simp [hready,hpending,Task.dequeued]

theorem activations_append (id : TaskId) (more : List (Event V)) :
    activations id (events++more) = activations id events+activations id more := countP_append

/-- What the search of one queue does to the queues and to every task. -/
structure Takes (s : Scheduler H V) (b : Bool) (outcome : Scheduler H V × Option (ReadyActivation H V)) : Prop where
  empty : outcome.2 = none → outcome.1.queueOf b = []
  shorter : outcome.2.isSome = true → (outcome.1.queueOf b).length < (s.queueOf b).length
  other : outcome.1.queueOf (!b) = s.queueOf (!b)
  queued : ∀ id, activations id (activatedEvents outcome.2)+(outcome.1.isQueued id).toNat = (s.isQueued id).toNat
  live : ∀ id, (outcome.1.tasks.lookup id).isSome = (s.tasks.lookup id).isSome

section

variable {b : Bool} {tasks : AList fun _ : TaskId => Task H V} {queue : List TaskId}

theorem nextQueuedActivation_none (hpop : popQueue s.tasks (s.queueOf b) = (tasks,queue,none)) :
    s.nextQueuedActivation b = (({ s with tasks := tasks } : Scheduler H V).setQueue b queue,none) := by
  unfold nextQueuedActivation
  rw [show (if b then s.microtasks else s.ready) = s.queueOf b from rfl,hpop]
  cases b <;> rfl

theorem nextQueuedActivation_some {r : ReadyActivation H V}
    (hpop : popQueue s.tasks (s.queueOf b) = (tasks,queue,some r)) : s.nextQueuedActivation b =
      ({ ({ s with tasks := tasks } : Scheduler H V).setQueue b queue with current := some r.id },some r) := by
  unfold nextQueuedActivation
  rw [show (if b then s.microtasks else s.ready) = s.queueOf b from rfl,hpop]
  cases b <;> rfl

end

theorem Sound.takes_nextQueuedActivation (h : Sound s) (b : Bool) : Takes s b (s.nextQueuedActivation b) := by
  have hwaits : ∀ id ∈ s.queueOf b, ∀ task, s.tasks.lookup id = some task →
      task.readyRequested = true ∧ task.pending.isSome = true := by
    intro id hid task htask
    have ht := h.tasks id task htask
    have hpos : 0 < (s.queueOf b).count id := count_pos_iff.mpr hid
    have hq : task.queued = true := by
      cases hq : task.queued with
      | true => rfl
      | false =>
        rw [ht.queue,hq] at hpos
        exact absurd hpos (Nat.lt_irrefl 0)
    exact ⟨ht.requested.trans hq,ht.pending hq⟩
  rcases popQueue_cases s.tasks (s.queueOf b) hwaits with
    ⟨hpop,_⟩ | ⟨dead,j,rest,task,activation,hqueue,_,hj,hpending,hpop⟩
  · rw [nextQueuedActivation_none hpop]
    refine ⟨fun _ => ?_,fun hsome => absurd hsome Bool.false_ne_true,?_,fun id => ?_,fun id => ?_⟩
    · rw [queueOf_setQueue,if_pos rfl]
    · cases b <;> rfl
    · simp [isQueued,activatedEvents]
    · rw [tasks_setQueue]
  · have htask : (s.nextQueuedActivation b).1.tasks =
        s.tasks.insert j { task.dequeued with pending := none } := by
      rw [nextQueuedActivation_some hpop]
      simp
    have hq : task.queued = true := by
      have ht := h.tasks j task hj
      have hready := hwaits j (by rw [hqueue]; simp) task hj
      rw [← ht.requested]
      exact hready.1
    refine ⟨?_,?_,?_,fun id => ?_,fun id => ?_⟩
    · rw [nextQueuedActivation_some hpop]
      exact fun hn => absurd hn (some_ne_none _)
    · rw [nextQueuedActivation_some hpop,hqueue]
      intro _
      have hr : (({ s with tasks := s.tasks.insert j { task.dequeued with pending := none } } :
          Scheduler H V).setQueue b rest).queueOf b = rest := by simp
      refine lt_of_eq_of_lt (congrArg List.length hr) ?_
      rw [length_append,length_cons]
      omega
    · rw [nextQueuedActivation_some hpop]
      cases b <;> rfl
    · have hevents : activatedEvents (s.nextQueuedActivation b).2 = [.activated j activation] := by
        rw [nextQueuedActivation_some hpop]
        rfl
      rw [hevents]
      by_cases hne : id = j
      · subst hne
        simp [isQueued,htask,hj,hq,Task.dequeued]
      · simp [isQueued,htask,hne,Ne.symm hne]
    · rw [htask]
      by_cases hne : id = j
      · subst hne
        simp [hj]
      · simp [hne]

theorem Sound.nextQueuedActivation (h : Sound s) (b : Bool) : Sound (s.nextQueuedActivation b).1 := by
  cases b
  · exact h.step .nextReadyActivation trivial
  · exact h.step .nextMicrotaskActivation trivial

def queueLength (s : Scheduler H V) : ℕ := s.ready.length+s.microtasks.length

/-- What one call of `next_activation` does to the queues and to every task. -/
theorem Sound.nextActivation_spec (h : Sound s) : s.nextActivation.1.queueLength ≤ s.queueLength-1 ∧
    ∀ id, activations id (activatedEvents s.nextActivation.2)+(s.nextActivation.1.isQueued id).toNat =
        (s.isQueued id).toNat ∧ (s.nextActivation.1.tasks.lookup id).isSome = (s.tasks.lookup id).isSome := by
  have hmicro := h.takes_nextQueuedActivation true
  have hsound := h.nextQueuedActivation true
  unfold nextActivation nextMicrotaskActivation nextReadyActivation
  cases hnext : s.nextQueuedActivation true with
  | mk next activation =>
    rw [hnext] at hmicro hsound
    cases activation with
    | some =>
      refine ⟨?_,fun id => ⟨hmicro.queued id,hmicro.live id⟩⟩
      have hshorter : next.microtasks.length < s.microtasks.length := hmicro.shorter rfl
      have ho : next.ready = s.ready := hmicro.other
      unfold queueLength
      dsimp only
      rw [ho]
      omega
    | none =>
      have hready := hsound.takes_nextQueuedActivation false
      have hempty : next.microtasks = [] := hmicro.empty rfl
      have ho : next.ready = s.ready := hmicro.other
      refine ⟨?_,fun id => ⟨?_,(hready.live id).trans (hmicro.live id)⟩⟩
      · have hnil' : (next.nextQueuedActivation false).1.microtasks = [] := hready.other.trans hempty
        unfold queueLength
        dsimp only
        rw [hnil',length_nil]
        cases hsome : (next.nextQueuedActivation false).2 with
        | none =>
          have hnil : (next.nextQueuedActivation false).1.ready = [] := hready.empty hsome
          rw [hnil]
          exact Nat.zero_le _
        | some =>
          have hshorter : (next.nextQueuedActivation false).1.ready.length < next.ready.length :=
            hready.shorter (by rw [hsome]; rfl)
          rw [ho] at hshorter
          omega
      · have hfirst := hmicro.queued id
        have hsecond := hready.queued id
        have hn : activations id (activatedEvents (none : Option (ReadyActivation H V))) = 0 := rfl
        rw [hn] at hfirst
        dsimp only at hfirst hsecond ⊢
        omega

variable {n : ℕ}

/-- Once both queues are empty, every task that was queued has been activated once. -/
theorem Sound.drained (h : Sound s) (hn : s.queueLength ≤ n) (id : TaskId) :
    activations id (s.run (List.replicate n .nextActivation)).2 = (s.isQueued id).toNat := by
  induction n generalizing s with
  | zero =>
    have hready : s.ready = [] := eq_nil_of_length_eq_zero (by unfold queueLength at hn; omega)
    have hmicro : s.microtasks = [] := eq_nil_of_length_eq_zero (by unfold queueLength at hn; omega)
    have hqueue (b : Bool) : s.queueOf b = [] := by cases b <;> assumption
    cases hid : s.tasks.lookup id with
    | none => simp [isQueued,hid]
    | some task =>
      have hcount := (h.tasks id task hid).queue task.microtask
      rw [hqueue] at hcount
      have hq : task.queued = false := by
        cases hq : task.queued with
        | false => rfl
        | true => simp [hq] at hcount
      rw [isQueued_of_lookup hid,hq]
      rfl
  | succ n ih =>
    obtain ⟨hshorter,ht⟩ := h.nextActivation_spec
    have hr := ih (h.step .nextActivation trivial) (show s.nextActivation.1.queueLength ≤ n by omega)
    have hfirst := (ht id).1
    rw [replicate_succ]
    unfold Scheduler.run
    rw [activations_append]
    have hevents : (s.step .nextActivation).2 = activatedEvents s.nextActivation.2 := rfl
    have hstate : (s.step .nextActivation).1 = s.nextActivation.1 := rfl
    rw [hevents]
    rw [hstate] at hr ⊢
    omega

/-! ## Wakes and activations -/

/-- The operations that take an activation from a queue. -/
def Operation.takes : Operation H V → Bool
  | .nextActivation | .nextMicrotaskActivation | .nextReadyActivation => true
  | _ => false

theorem activations_fired (id : TaskId) (ts : List Timer) :
    activations id (ts.map (.fired : Timer → Event V)) = 0 := by
  simp

theorem activations_armedEvents (id : TaskId) (o : Option TaskId) (d : Instant) :
    activations id (s.armedEvents o d) = 0 := by
  cases o with
  | none => rfl
  | some j => cases hj : s.tasks.lookup j <;> simp [armedEvents,hj]

variable {op : Operation H V}

theorem activations_step (hop : op.takes = false) (id : TaskId) : activations id (s.step op).2 = 0 := by
  cases op with
  | armTimer => exact activations_armedEvents id _ _
  | parkCurrentOnTimer => exact activations_armedEvents id _ _
  | pollReactor => exact activations_fired id _
  | pollReactorNonblocking => exact activations_fired id _
  | nextActivation => cases hop
  | nextMicrotaskActivation => cases hop
  | nextReadyActivation => cases hop
  | _ => rfl

theorem activations_cons_self (id : TaskId) (a : Activation V) (before after : List (Event V)) :
    activations id (before ++ .activated id a::after) ≠ 0 := by
  rw [activations_append]
  simp

/-- A step that takes nothing leaves a queued task queued, or removes it. -/
theorem Sound.step_queued (h : Sound s) (hb : s.Bounded op) (hop : op.takes = false) (hid : s.isQueued id) :
    (s.step op).1.isQueued id ∨ (s.step op).1.tasks.lookup id = none := by
  have hsome : (s.queuedWith id).isSome = true := by rw [h.queuedWith_isSome,hid]
  obtain ⟨a,ha⟩ := isSome_iff_exists.mp hsome
  have hmoves : Moves True False s _ _ := step_moves op (fun _ => hb) False.elim
  rcases h.moves_deliver hmoves ha with ⟨before,after,heq,_⟩ | ⟨_,hwaits | hgone⟩
  · have hz := activations_step (s := s) hop id
    rw [heq] at hz
    exact absurd hz (activations_cons_self id a before after)
  · left
    rw [← (h.step op hb).queuedWith_isSome]
    rw [hwaits]
    rfl
  · exact .inr hgone

/-- In every step the activations of a task and its losses account for where it was queued. -/
theorem Sound.step_balance (h : Sound s) (hb : s.Bounded op) (id : TaskId) :
    activations id (s.step op).2+(s.isQueued id && ((s.step op).1.tasks.lookup id).isNone).toNat +
      ((s.step op).1.isQueued id).toNat =
    (!s.isQueued id && (s.step op).1.isQueued id).toNat+(s.isQueued id).toNat := by
  -- A step that takes an activation neither adds nor removes tasks.
  have htakes (hqueued : activations id (s.step op).2+((s.step op).1.isQueued id).toNat = (s.isQueued id).toNat)
      (hlive : ((s.step op).1.tasks.lookup id).isSome = (s.tasks.lookup id).isSome) :
      activations id (s.step op).2+(s.isQueued id && ((s.step op).1.tasks.lookup id).isNone).toNat +
        ((s.step op).1.isQueued id).toNat =
      (!s.isQueued id && (s.step op).1.isQueued id).toNat+(s.isQueued id).toNat := by
    cases hq : s.isQueued id with
    | false =>
      rw [hq,Bool.toNat_false] at hqueued
      cases hq' : (s.step op).1.isQueued id with
      | false => simpa [hq'] using hqueued
      | true => simp [hq'] at hqueued
    | true =>
      have hsome : (s.tasks.lookup id).isSome = true := by
        cases hid : s.tasks.lookup id with
        | none => simp [isQueued,hid] at hq
        | some => rfl
      rw [hsome] at hlive
      have hn : ((s.step op).1.tasks.lookup id).isNone = false := by
        rw [← not_isSome,hlive]
        rfl
      rw [hq] at hqueued
      simpa [hn] using hqueued
  cases hop : op.takes with
  | false =>
    rw [activations_step hop]
    cases hq : s.isQueued id with
    | false => simp
    | true =>
      rcases h.step_queued hb hop hq with hqueued | hgone
      · have hsome : ((s.step op).1.tasks.lookup id).isNone = false := by
          cases hid : (s.step op).1.tasks.lookup id with
          | none => simp [isQueued,hid] at hqueued
          | some => rfl
        simp [hqueued,hsome]
      · simp [isQueued,hgone]
  | true =>
    cases op with
    | nextActivation => exact htakes (h.nextActivation_spec.2 id).1 (h.nextActivation_spec.2 id).2
    | nextMicrotaskActivation =>
      have hspec := h.takes_nextQueuedActivation true
      exact htakes (hspec.queued id) (hspec.live id)
    | nextReadyActivation =>
      have hspec := h.takes_nextQueuedActivation false
      exact htakes (hspec.queued id) (hspec.live id)
    | _ => cases hop

theorem Sound.run_balance (h : Sound s) (hb : Throughout Bounded s ops) (id : TaskId) :
    activations id (s.run ops).2+losses id s ops+((s.run ops).1.isQueued id).toNat =
      wakes id s ops+(s.isQueued id).toNat := by
  induction ops generalizing s with
  | nil => simp [losses,wakes]
  | cons op _ ih =>
    have hstep := h.step_balance hb.1 id
    have hr := ih (h.step op hb.1) hb.2
    unfold Scheduler.run losses wakes
    rw [activations_append]
    dsimp only
    omega

theorem Sound.woken (h : Sound s) (hid : s.tasks.lookup id = some task) (hq : task.queued = false) (f : Bool) :
    (s.enqueueWithPriority id a f).queuedWith id = some a := by
  have hready : task.readyRequested = false := (h.tasks id task hid).requested.trans hq
  have hlookup : (s.enqueueWithPriority id a f).tasks.lookup id =
      some { task.renewed a with readyRequested := true, queued := true } := by
    unfold enqueueWithPriority markQueuedFront markQueued
    cases f <;> cases ht : task.timerGeneration <;>
      simp [hid,hq,hready,ht,lookup_markQueuedWithPriority,tasks_invalidateTimer,setTask,Scheduler.disarm,
        Task.renewed]
  exact queuedWith_eq_some.mpr ⟨_,hlookup,rfl,rfl⟩

theorem Sound.exact (h : Sound s) : Exact s where
  once id task hid := by
    have ht := (h.tasks id task hid).queue
    have hready : s.ready.count id = _ := ht false
    have hmicro : s.microtasks.count id = _ := ht true
    rw [count_append,hready,hmicro]
    cases hm : task.microtask <;> simp [hready,hmicro,hm]
  referenced := h.referenced
  live := h.live
  armed id task hid harmed := by
    obtain ⟨g,hg⟩ := isSome_iff_exists.mp harmed
    obtain ⟨rfl,htimer⟩ := (h.tasks id task hid).armed g hg
    exact htimer
  idle := by
    rw [← count_eq_zero (p := fun task : Task H V => task.referenced),← h.referenced,isIdle,beq_iff_eq,
      ← UInt64.toNat_inj]
    rfl
  wakeSource id task hid harmed := by
    have hpos := count_pos (p := fun task : Task H V => task.timerGeneration.isSome) hid harmed
    have hne : s.liveTimers ≠ 0 := by
      intro hz
      rw [← h.live,hz] at hpos
      exact absurd hpos (Nat.lt_irrefl 0)
    simp [hasWakeSource,hne]
  woken id task a front hid hq := h.woken hid hq front
  delivered id a ops hqueued hb := by
    have hmoves : Moves True False s (s.run ops).2 (s.run ops).1 := run_moves ops (fun _ => hb) False.elim
    exact h.moves_deliver hmoves hqueued
  drained id := h.drained (le_refl _) id

/-- Along every run in which ids do not wrap, the bookkeeping is exact, and the wakes of a task are accounted
for by its activations, its removals while queued, and its place in a queue at the end. -/
theorem bookkeeping_exact (idle : V) (ops : List (Operation H V)) (hb : Throughout Bounded (new idle) ops) :
    Exact ((new idle).run ops).1 ∧ ∀ id, activations id ((new idle).run ops).2+losses id (new idle) ops +
        (((new idle).run ops).1.isQueued id).toNat = wakes id (new idle) ops :=
  ⟨((sound_new idle).run hb).exact,fun id => (sound_new idle).run_balance hb id⟩

/-- A task is started, waits for a timer, and is resumed by it. -/
def sleepingRun : List (Operation Unit Unit) :=
  [.spawn () [],.nextActivation,.parkCurrentOnTimer 10,.clearCurrent,.pollReactor (some []) 10,.nextActivation]

theorem bookkeeping_exact_sleeping : Throughout Bounded (new () : Scheduler Unit Unit) sleepingRun ∧
    Exact ((new () : Scheduler Unit Unit).run sleepingRun).1 ∧ ((new () : Scheduler Unit Unit).run sleepingRun).2 =
      [.activated 0 (.start []),.armed ⟨10,0,0⟩,.fired ⟨10,0,0⟩,.activated 0 (.resume ())] := by
  have hb : Throughout Bounded (new () : Scheduler Unit Unit) sleepingRun :=
    ⟨show (0 : UInt64).toNat+1 < 2 ^ 64 by decide,trivial,trivial,trivial,trivial,trivial,trivial⟩
  exact ⟨hb,(bookkeeping_exact () sleepingRun hb).1,by decide⟩

theorem run_append (ops more : List (Operation H V)) :
    s.run (ops++more) = (((s.run ops).1.run more).1,(s.run ops).2++((s.run ops).1.run more).2) := by
  induction ops generalizing s with
  | nil => rfl
  | cons _ _ ih => simp [ih]

/-! ## Ids that wrap -/

/-- Tasks that are spawned and finished at once, with the ids from 1 on. -/
def spawnCycles (n : ℕ) : List (Operation Unit Unit) :=
  (List.range n).flatMap fun i => [.spawnArmed () [],.finish (ofNat (i+1))]

/-- A first task, cycles that use up all other ids, and one more task. -/
def wrappingRun (n : ℕ) : List (Operation Unit Unit) := .spawn () []::spawnCycles n++[.spawn () []]

/-- The state with one task that has not started. -/
def oneTask (nextId : TaskId) : Scheduler Unit Unit :=
  { ((new () : Scheduler Unit Unit).spawn () []).1 with nextId := nextId }

theorem run_cycle {id : TaskId} (hid : id ≠ 0) :
    ((oneTask id).run [.spawnArmed () [],.finish id]).1 = oneTask (id+1) := by
  have hn : id ∉ (oneTask id).tasks := by
    intro hmem
    rcases (AList.mem_insert _).mp hmem with h | hmem
    · exact hid h
    rcases (AList.mem_insert _).mp hmem with h | hmem
    · exact hid h
    exact AList.notMem_empty _ hmem
  have hlookup : (((oneTask id).spawnArmed () []).1.disarm id).tasks.lookup id =
      some ⟨(),some (.start []),false,false,true,false,0,none⟩ := AList.lookup_insert _
  show (((oneTask id).spawnArmed () []).1.disarm id).removeTask id = oneTask (id+1)
  unfold removeTask
  rw [hlookup]
  have htasks := erase_insert hn ⟨(),some (.start []),false,false,true,false,0,none⟩
  have hnext : (oneTask id).nextId = id := rfl
  have hwaiters : (oneTask id).waiters.erase id = (oneTask id).waiters := AList.ext rfl
  have hregistrations : (oneTask id).registrations.erase id = (oneTask id).registrations := AList.ext rfl
  simp only [spawnArmed,insertTask,disarm,if_true,hnext,htasks,hwaiters,hregistrations,UInt64.add_sub_cancel,
    isSome_none,Bool.false_eq_true,if_false]
  rfl

theorem run_spawnCycles (hn : n < 2 ^ 64) : ((oneTask 1).run (spawnCycles n)).1 = oneTask (UInt64.ofNat (n+1)) := by
  induction n with
  | zero => rfl
  | succ n ih =>
    have hne : ofNat (n+1) ≠ 0 := by
      intro hz
      have htoNat := congrArg toNat hz
      rw [toNat_ofNat_of_lt' hn] at htoNat
      cases htoNat
    unfold spawnCycles at ih ⊢
    rw [range_succ,flatMap_append,run_append,ih (by omega)]
    rw [flatMap_singleton,run_cycle hne,ofNat_add (n+1) 1]
    rfl

theorem run_wrappingRun (hn : n < 2 ^ 64) : ((new () : Scheduler Unit Unit).run (wrappingRun n)).1 =
    ((oneTask (ofNat (n+1))).spawn () []).1 := by
  have hfirst : ((new () : Scheduler Unit Unit).step (.spawn () [])).1 = oneTask 1 := rfl
  unfold wrappingRun
  rw [run_append]
  show ((((new () : Scheduler Unit Unit).step (.spawn () [])).1.run (spawnCycles n)).1.run [.spawn () []]).1 = _
  rw [hfirst,run_spawnCycles hn]
  rfl

theorem wrapping_ids : ((new () : Scheduler Unit Unit).run (wrappingRun (2 ^ 64-1))).1.ready.count 0 = 2 ∧
    ((new () : Scheduler Unit Unit).run (wrappingRun (2 ^ 64-1))).1.referencedTasks = 2 ∧
    count (·.referenced) ((new () : Scheduler Unit Unit).run (wrappingRun (2 ^ 64-1))).1.tasks = 1 := by
  have hzero : ofNat (2 ^ 64-1+1) = 0 := by decide
  rw [run_wrappingRun (by decide),hzero]
  decide

end Scheduler
end Whim
