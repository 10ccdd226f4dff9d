import Whim.SchedulerMoves

/-!
# Timers and the suspensions they end

A timer that fires was armed by its task's last arming, and the task has not been activated since, where a timer is
armed only if no older entry of its task can come back to life.
-/

namespace Whim.Scheduler

open List

variable {H V : Type} {s s' : Scheduler H V} {id : TaskId} {task : Task H V} {timer : Timer}
  {past more events : List (Event V)}

/-- The events that end what a timer of this task was armed for: an activation, and another arming. -/
def Event.Concerns (id : TaskId) : Event V → Prop
  | .activated other _ => other = id
  | .armed timer => timer.task = id
  | .fired _ => False

/-- An entry was pushed, and nothing that concerns its task happened since. -/
def Fresh (past : List (Event V)) (timer : Timer) : Prop :=
  ∃ before after, past = before ++ .armed timer::after ∧ ∀ event ∈ after, ¬event.Concerns timer.task

/-- Every timer that fires was armed for the suspension it ends. -/
def ResumesOwn (events : List (Event V)) : Prop :=
  ∀ before timer after, events = before ++ .fired timer::after → Fresh before timer

theorem Fresh.append (h : Fresh past timer) (hmore : ∀ event ∈ more, ¬event.Concerns timer.task) :
    Fresh (past++more) timer := by
  obtain ⟨b,a,rfl,hafter⟩ := h
  exact ⟨b,a++more,by simp,forall_mem_append.mpr ⟨hafter,hmore⟩⟩

variable {event : Event V}

theorem ResumesOwn.snoc (h : ResumesOwn past)
    (hevent : ∀ timer, event = .fired timer → Fresh past timer) : ResumesOwn (past++[event]) := by
  intro b timer a heq
  rcases eq_nil_or_concat a with rfl | ⟨a,last,rfl⟩
  · obtain ⟨rfl,hl⟩ := append_inj' heq rfl
    cases hl
    exact hevent timer rfl
  · rw [concat_eq_append,← cons_append,← append_assoc] at heq
    exact h b timer a (append_inj' heq rfl).1

/-- What is known of the flags of a task. -/
structure Flags (task : Task H V) : Prop where
  requested : task.readyRequested = task.queued
  pending : task.queued = true → task.pending.isSome = true
  timer : task.timerGeneration.isSome = true → task.queued = false

/-- The invariant: a task with a timer is not queued, and an entry that would wake its task is fresh. -/
structure Timely (past : List (Event V)) (s : Scheduler H V) : Prop where
  flags : ∀ id task, s.tasks.lookup id = some task → Flags task
  fresh : ∀ timer ∈ s.timers, isLive s.tasks timer = true → Fresh past timer
  fired : ResumesOwn past

theorem timely_new (idle : V) : Timely [] (new idle : Scheduler H V) where
  flags id task h := by simp [new] at h
  fresh timer h := by simp [new] at h
  fired before timer after h := by simp at h

/-! ## Moves -/

section

variable {ts : AList fun _ : TaskId => Task H V} {task' : Task H V}

theorem isLive_insert_ne (hne : timer.task ≠ id) : isLive (ts.insert id task') timer = isLive ts timer := by
  simp [isLive,hne]

theorem isLive_insert_self (hlive : isLive (ts.insert id task') timer) (hid : timer.task = id) :
    task'.generation = timer.generation ∧ task'.timerGeneration = some timer.generation := by
  obtain ⟨task,hlookup,hgeneration,htimer⟩ := isLive_iff.mp hlive
  rw [hid,AList.lookup_insert] at hlookup
  cases hlookup
  exact ⟨hgeneration,htimer⟩

/-- A step that inserts or changes one task, with events that concern no other. -/
structure Changes (past : List (Event V)) (s : Scheduler H V) (id : TaskId) (task' : Task H V) (more : List (Event V))
    (s' : Scheduler H V) : Prop where
  tasks : s'.tasks = s.tasks.insert id task'
  flags : Flags task'
  others : ∀ event ∈ more, ∀ other, other ≠ id → ¬event.Concerns other
  fired : ResumesOwn (past++more)
  timers : ∀ timer ∈ s'.timers, timer.task ≠ id → timer ∈ s.timers

/-- The entries of the other tasks are as fresh as before. -/
theorem Timely.change (h : Timely past s) (hchanges : Changes past s id task' more s')
    (hself : ∀ timer ∈ s'.timers, timer.task = id → task'.generation = timer.generation →
      task'.timerGeneration = some timer.generation → Fresh (past++more) timer) : Timely (past++more) s' where
  flags j other hj := by
    rw [hchanges.tasks] at hj
    by_cases hne : j = id
    · subst hne
      rw [AList.lookup_insert] at hj
      cases hj
      exact hchanges.flags
    · rw [AList.lookup_insert_ne hne] at hj
      exact h.flags j other hj
  fresh timer hmem hlive := by
    rw [hchanges.tasks] at hlive
    by_cases hne : timer.task = id
    · obtain ⟨hgeneration,htimer⟩ := isLive_insert_self hlive hne
      exact hself timer hmem hne hgeneration htimer
    · rw [isLive_insert_ne hne] at hlive
      have hfresh := h.fresh timer (hchanges.timers timer hmem hne) hlive
      exact hfresh.append fun event hevent => hchanges.others event hevent _ hne
  fired := hchanges.fired

/-- A task without a timer has no live entry, whatever is in the heap. -/
theorem Timely.changeIdle (h : Timely past s) (hchanges : Changes past s id task' more s')
    (hidle : task'.timerGeneration = none) : Timely (past++more) s' := by
  refine h.change hchanges fun timer _ _ _ hsome => ?_
  rw [hidle] at hsome
  cases hsome

/-- A task keeps its generation and its timer, and nothing happens. -/
theorem Timely.changeKept (h : Timely past s) (hchanges : Changes past s id task' [] s')
    (hid : s.tasks.lookup id = some task) (hgeneration : task'.generation = task.generation)
    (htimer : task'.timerGeneration = task.timerGeneration) (htimers : s'.timers = s.timers) :
    Timely (past++[]) s' := by
  refine h.change hchanges fun timer hmem htask hgeneration' htimer' => ?_
  rw [append_nil]
  refine h.fresh timer (htimers ▸ hmem) (isLive_iff.mpr ⟨task,htask ▸ hid,?_,?_⟩)
  · rw [← hgeneration,hgeneration']
  · rw [← htimer,htimer']

end

theorem Timely.forget (h : Timely past s) (hforgets : Forgets s s') : Timely past s' where
  flags id task hid := h.flags id task (hforgets.tasks ▸ hid)
  fresh timer hmem hlive := h.fresh timer (hforgets.sub timer hmem) (hforgets.tasks ▸ hlive)
  fired := h.fired

theorem Timely.remove (h : Timely past s) (htasks : s'.tasks = s.tasks.erase id) (htimers : s'.timers = s.timers) :
    Timely past s' where
  flags j task hj := by
    rw [htasks] at hj
    have hne : j ≠ id := by
      rintro rfl
      rw [AList.lookup_erase] at hj
      cases hj
    rw [AList.lookup_erase_ne hne] at hj
    exact h.flags j task hj
  fresh timer hmem hlive := by
    rw [htasks] at hlive
    obtain ⟨task,hid,hgeneration,htimer⟩ := isLive_iff.mp hlive
    have hne : timer.task ≠ id := by
      intro heq
      rw [heq,AList.lookup_erase] at hid
      cases hid
    rw [AList.lookup_erase_ne hne] at hid
    exact h.fresh timer (htimers ▸ hmem) (isLive_iff.mpr ⟨task,hid,hgeneration,htimer⟩)
  fired := h.fired

section

variable (h : Timely past s) (hid : s.tasks.lookup id = some task)
include h hid

theorem Timely.arm (hqueued : task.queued = false)
    (hfree : ∀ timer ∈ s.timers, timer.task = id → timer.generation ≠ task.generation) (deadline : Instant) :
    Timely (past++[.armed ⟨deadline,id,task.generation⟩])
      { s.change id task { task with timerGeneration := some task.generation } with
        timers := s.timers.orderedInsert Timer.le ⟨deadline,id,task.generation⟩ } := by
  have hflags := h.flags id task hid
  refine h.change ⟨rfl,⟨hflags.requested,hflags.pending,fun _ => hqueued⟩,
    forall_mem_singleton.mpr fun _ hne heq => hne heq.symm,h.fired.snoc nofun,?_⟩ ?_
  · intro timer hmem hne
    rcases (mem_orderedInsert Timer.le).mp hmem with rfl | hmem
    · exact absurd rfl hne
    · exact hmem
  · intro timer hmem htask hgeneration _
    rcases (mem_orderedInsert Timer.le).mp hmem with rfl | hmem
    · exact ⟨past,[],rfl,nofun⟩
    · exact absurd hgeneration.symm (hfree timer hmem htask)

theorem Timely.renew (hidle : task.pending.isSome = true → task.queued = false) (activation : Activation V) :
    Timely (past++[]) (s.change id task (task.renewed activation)) := by
  have hflags := h.flags id task hid
  have hqueued : task.queued = false := by
    cases hqueued : task.queued with
    | false => rfl
    | true => exact hqueued.symm.trans (hidle (hflags.pending hqueued))
  exact h.changeIdle ⟨rfl,⟨hflags.requested,fun _ => rfl,fun _ => hqueued⟩,nofun,by simpa using h.fired,
    fun _ hmem _ => hmem⟩ rfl

theorem Timely.mark (hpending : task.pending.isSome = true) (htimer : task.timerGeneration = none) (front : Bool) :
    Timely (past++[]) (s.markQueuedWithPriority id front) := by
  refine h.changeIdle ⟨tasks_markQueuedWithPriority hid front,⟨rfl,fun _ => hpending,fun hsome => ?_⟩,nofun,
    by simpa using h.fired,?_⟩ htimer
  · rw [htimer] at hsome
    cases hsome
  · rw [(frame_markQueuedWithPriority front).2.1]
    exact fun _ hmem _ => hmem

theorem Timely.refer (referenced : Bool) :
    Timely (past++[]) (s.change id task { task with referenced := referenced }) := by
  have hflags := h.flags id task hid
  exact h.changeKept ⟨rfl,⟨hflags.requested,hflags.pending,hflags.timer⟩,nofun,by simpa using h.fired,
    fun _ hmem _ => hmem⟩ hid rfl rfl rfl

variable (microtask : Bool) (queue : List TaskId)

theorem Timely.discard : Timely (past++[]) ((s.setTask id task.dequeued).setQueue microtask queue) := by
  have htimers := timers_setQueue (s := s.setTask id task.dequeued) microtask queue
  refine h.changeKept ⟨tasks_setQueue microtask queue,⟨rfl,nofun,fun _ => rfl⟩,nofun,by simpa using h.fired,?_⟩
    hid rfl rfl htimers
  rw [htimers]
  exact fun _ hmem _ => hmem

theorem Timely.activate (hready : task.readyRequested = true) (activation : Activation V) :
    Timely (past++[.activated id activation])
      ((s.setTask id { task.dequeued with pending := none }).setQueue microtask queue) := by
  have hflags := h.flags id task hid
  have htimer : task.timerGeneration = none := by
    cases ht : task.timerGeneration with
    | none => rfl
    | some =>
      have hqueued := hflags.timer (by rw [ht]; rfl)
      rw [hflags.requested,hqueued] at hready
      cases hready
  refine h.changeIdle ⟨tasks_setQueue microtask queue,⟨rfl,nofun,fun _ => rfl⟩,
    forall_mem_singleton.mpr fun _ hne heq => hne heq.symm,h.fired.snoc nofun,?_⟩ htimer
  rw [timers_setQueue]
  exact fun _ hmem _ => hmem

end

/-- The task of a live entry is not queued, so that the entry fires. -/
theorem Timely.expire {timers : List Timer} (h : Timely past s) (htimers : s.timers = timer::timers)
    (hid : s.tasks.lookup timer.task = some task) (hlive : isLive s.tasks timer = true) :
    Timely (past++if task.queued then [] else [.fired timer])
      { s.change timer.task task { task with timerGeneration := none } with timers := timers } := by
  have hflags := h.flags timer.task task hid
  obtain ⟨other,hother,_,hsome⟩ := isLive_iff.mp hlive
  rw [hid] at hother
  cases hother
  have hqueued : task.queued = false := hflags.timer (by rw [hsome]; rfl)
  have hfresh : Fresh past timer := h.fresh timer (by rw [htimers]; exact mem_cons_self) hlive
  have hevents : (if task.queued then [] else [Event.fired (V := V) timer]) = [.fired timer] := by rw [hqueued]; rfl
  rw [hevents]
  refine h.changeIdle ⟨rfl,⟨hflags.requested,hflags.pending,fun _ => hqueued⟩,forall_mem_singleton.mpr fun _ _ => id,
    ?_,?_⟩ rfl
  · refine h.fired.snoc fun other heq => ?_
    cases heq
    exact hfresh
  · intro other hmem _
    rw [htimers]
    exact mem_cons_of_mem timer hmem

theorem Timely.move {bounded : Prop} (h : Timely past s) (hmove : Move bounded True s more s') :
    Timely (past++more) s' := by
  have hquiet : ResumesOwn (past++[]) := by simpa using h.fired
  cases hmove with
  | forget hforgets => simpa using h.forget hforgets
  | insert => exact h.changeIdle ⟨rfl,⟨rfl,nofun,nofun⟩,nofun,hquiet,fun _ hmem _ => hmem⟩ rfl
  | remove =>
    rw [append_nil]
    exact h.remove rfl rfl
  | arm hid hguard deadline =>
    obtain ⟨hqueued,hfree⟩ := hguard trivial
    exact h.arm hid hqueued hfree deadline
  | renew hid hidle activation => exact h.renew hid hidle activation
  | mark hid hpending hguard front => exact h.mark hid hpending (hguard trivial) front
  | expire htimers hid hlive => exact h.expire htimers hid hlive
  | refer hid referenced => exact h.refer hid referenced
  | skip =>
    refine ⟨?_,?_,hquiet⟩
    · rw [tasks_setQueue]
      exact h.flags
    · rw [tasks_setQueue,timers_setQueue,append_nil]
      exact h.fresh
  | discard _ hid _ => exact h.discard hid _ _
  | activate _ hid hready _ => exact h.activate hid _ _ hready _

/-! ## Runs -/

/-- A timer resumes only the suspension it was armed for, when every step meets the condition. -/
theorem timers_resume_own (idle : V) (ops : List (Operation H V)) (hg : Throughout Guarded (new idle) ops) :
    ResumesOwn ((new idle).run ops).2 := by
  have hmoves : Moves False True (new idle) ((new idle).run ops).2 ((new idle).run ops).1 :=
    run_moves ops False.elim fun _ => hg
  exact (Trace.invariant (P := Timely) (fun _ _ _ _ h hmove => h.move hmove) hmoves [] (timely_new idle)).fired

/-- A task sleeps twice. -/
def sleepTwice : List (Operation Unit Unit) :=
  [.spawn () [],.nextActivation,.parkCurrentOnTimer 10,.pollReactor (some []) 10,.nextActivation,
    .parkCurrentOnTimer 20,.pollReactor (some []) 20]

theorem timers_resume_own_sleepTwice : Throughout Guarded (new () : Scheduler Unit Unit) sleepTwice ∧
    ((new () : Scheduler Unit Unit).run sleepTwice).2 =
      [.activated 0 (.start []),.armed ⟨10,0,0⟩,.fired ⟨10,0,0⟩,.activated 0 (.resume ()),.armed ⟨20,0,1⟩,
        .fired ⟨20,0,1⟩] ∧ ResumesOwn ((new () : Scheduler Unit Unit).run sleepTwice).2 := by
  have hg : Throughout Guarded (new () : Scheduler Unit Unit) sleepTwice := by
    refine ⟨trivial,trivial,?_,?_,trivial,?_,?_,trivial⟩
    · intro id hid
      cases hid
      intro task htask
      cases htask
      exact ⟨rfl,nofun⟩
    · intro keys hkeys
      cases hkeys
      exact nofun
    · intro id hid
      cases hid
      intro task htask
      cases htask
      exact ⟨rfl,nofun⟩
    · intro keys hkeys
      cases hkeys
      exact nofun
  exact ⟨hg,by decide,timers_resume_own () sleepTwice hg⟩

theorem not_fresh_snoc (past : List (Event V)) (hconcerns : event.Concerns timer.task) (hne : event ≠ .armed timer) :
    ¬Fresh (past++[event]) timer := by
  rintro ⟨b,a,heq,hafter⟩
  rcases eq_nil_or_concat a with rfl | ⟨a,last,rfl⟩
  · have hl := (append_inj' heq rfl).2
    exact hne (singleton_inj.mp hl)
  · rw [concat_eq_append,← cons_append,← append_assoc] at heq
    have hl := singleton_inj.mp (append_inj' heq rfl).2
    rw [hl] at hconcerns
    exact hafter last (by simp) hconcerns

/-- A running task is woken and then parks on a timer; the wake resumes it, and the timer resumes what it waits
for next. -/
def wokenThenParked : List (Operation Unit Unit) :=
  [.spawn () [],.nextActivation,.wake 0 (),.parkCurrentOnTimer 10,.nextActivation,.pollReactor (some []) 10]

/-- A timer is armed again for a later time. -/
def armedTwice : List (Operation Unit Unit) :=
  [.spawnArmed () [],.armTimer 0 10,.armTimer 0 20,.pollReactor (some []) 10]

theorem timer_resumes_other : ((new () : Scheduler Unit Unit).run wokenThenParked).2 =
      [.activated 0 (.start []),.armed ⟨10,0,1⟩,.activated 0 (.resume ()),.fired ⟨10,0,1⟩] ∧
    ¬ResumesOwn ((new () : Scheduler Unit Unit).run wokenThenParked).2 ∧
    ((new () : Scheduler Unit Unit).run armedTwice).2 = [.armed ⟨10,0,0⟩,.armed ⟨20,0,0⟩,.fired ⟨10,0,0⟩] ∧
    ¬ResumesOwn ((new () : Scheduler Unit Unit).run armedTwice).2 := by
  have hwoken : ((new () : Scheduler Unit Unit).run wokenThenParked).2 =
      [.activated 0 (.start []),.armed ⟨10,0,1⟩,.activated 0 (.resume ()),.fired ⟨10,0,1⟩] := by decide
  have harmed : ((new () : Scheduler Unit Unit).run armedTwice).2 =
      [.armed ⟨10,0,0⟩,.armed ⟨20,0,0⟩,.fired ⟨10,0,0⟩] := by decide
  refine ⟨hwoken,fun h => ?_,harmed,fun h => ?_⟩
  · rw [hwoken] at h
    have hfresh := h [.activated 0 (.start []),.armed ⟨10,0,1⟩,.activated 0 (.resume ())] ⟨10,0,1⟩ [] rfl
    have hconcerns : (.activated 0 (.resume ()) : Event Unit).Concerns (⟨10,0,1⟩ : Timer).task := rfl
    exact not_fresh_snoc [.activated 0 (.start []),.armed ⟨10,0,1⟩] hconcerns nofun hfresh
  · rw [harmed] at h
    have hfresh := h [.armed ⟨10,0,0⟩,.armed ⟨20,0,0⟩] ⟨10,0,0⟩ [] rfl
    have hconcerns : (.armed ⟨20,0,0⟩ : Event Unit).Concerns (⟨10,0,0⟩ : Timer).task := rfl
    exact not_fresh_snoc [.armed ⟨10,0,0⟩] hconcerns (by decide) hfresh

end Whim.Scheduler
