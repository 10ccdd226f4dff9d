import Mathlib.Algebra.Order.Ring.Nat
import Whim.Scheduler
import Whim.Runs

/-!
# The moves of the scheduler

Every operation is a chain of moves: one task changes, an entry is pushed or popped, or something is forgotten that no
live task depends on.
-/

namespace Whim

open List

namespace Task

variable {H V : Type}

/-- A woken task: it gets its activation, and entries of its old generation become stale. -/
def renewed (task : Task H V) (activation : Activation V) : Task H V :=
  { task with pending := some activation, generation := task.generation+1, timerGeneration := none }

def dequeued (task : Task H V) : Task H V := { task with queued := false, readyRequested := false }

end Task

namespace Scheduler

variable {H V : Type} {s s' : Scheduler H V} {id : TaskId} {task task' : Task H V}

theorem isLive_iff {ts : AList fun _ : TaskId => Task H V} {t : Timer} :
    isLive ts t ↔ ∃ task, ts.lookup t.task = some task ∧
      task.generation = t.generation ∧ task.timerGeneration = some t.generation := by
  cases h : ts.lookup t.task <;> simp [isLive,h]

/-! ## Queues -/

def queueOf (s : Scheduler H V) (microtask : Bool) : List TaskId := if microtask then s.microtasks else s.ready

def setQueue (s : Scheduler H V) (microtask : Bool) (queue : List TaskId) : Scheduler H V :=
  if microtask then { s with microtasks := queue } else { s with ready := queue }

section

variable (b c : Bool) (queue : List TaskId)

@[simp] theorem queueOf_setQueue : (s.setQueue b queue).queueOf c = if c = b then queue else s.queueOf c := by
  cases b <;> cases c <;> rfl

@[simp] theorem queueOf_setTask : (s.setTask id task).queueOf b = s.queueOf b := rfl

@[simp] theorem tasks_setQueue : (s.setQueue b queue).tasks = s.tasks := by cases b <;> rfl

@[simp] theorem timers_setQueue : (s.setQueue b queue).timers = s.timers := by cases b <;> rfl

@[simp] theorem referencedTasks_setQueue : (s.setQueue b queue).referencedTasks = s.referencedTasks := by
  cases b <;> rfl

@[simp] theorem liveTimers_setQueue : (s.setQueue b queue).liveTimers = s.liveTimers := by cases b <;> rfl

@[simp] theorem waiters_setQueue : (s.setQueue b queue).waiters = s.waiters := by cases b <;> rfl

@[simp] theorem nextId_setQueue : (s.setQueue b queue).nextId = s.nextId := by cases b <;> rfl

@[simp] theorem setQueue_queueOf : s.setQueue b (s.queueOf b) = s := by cases b <;> rfl

theorem setQueue_setQueue (tasks : AList fun _ : TaskId => Task H V) (rest : List TaskId) :
    ({ s.setQueue b queue with tasks := tasks } : Scheduler H V).setQueue b rest =
      ({ s with tasks := tasks } : Scheduler H V).setQueue b rest := by
  cases b <;> rfl

theorem pushQueue_eq (f : Bool) :
    s.pushQueue id b f = s.setQueue b (if f then id::s.queueOf b else s.queueOf b++[id]) := by
  cases b <;> cases f <;> rfl

end

/-! ## The change of a task -/

@[simp] theorem toUInt64_false : false.toUInt64 = 0 := rfl

@[simp] theorem toUInt64_true : true.toUInt64 = 1 := rfl

/-- One task changes, and the counters with it. -/
def change (s : Scheduler H V) (id : TaskId) (task task' : Task H V) : Scheduler H V :=
  { s with
    tasks := s.tasks.insert id task'
    referencedTasks := s.referencedTasks-task.referenced.toUInt64+task'.referenced.toUInt64
    liveTimers :=
      s.liveTimers-task.timerGeneration.isSome.toUInt64+task'.timerGeneration.isSome.toUInt64 }

/-- What is lost does not matter to any live task. -/
structure Forgets (s s' : Scheduler H V) : Prop where
  tasks : s'.tasks = s.tasks
  queues : s'.queueOf = s.queueOf
  referenced : s'.referencedTasks = s.referencedTasks
  live : s'.liveTimers = s.liveTimers
  nextId : s'.nextId = s.nextId
  sub : ∀ timer ∈ s'.timers, timer ∈ s.timers
  keeps : ∀ timer ∈ s.timers, isLive s.tasks timer = true → timer ∈ s'.timers

theorem forgets_of_timers_eq (htasks : s'.tasks = s.tasks) (hready : s'.ready = s.ready)
    (hmicro : s'.microtasks = s.microtasks) (hreferenced : s'.referencedTasks = s.referencedTasks)
    (hlive : s'.liveTimers = s.liveTimers) (hnext : s'.nextId = s.nextId) (htimers : s'.timers = s.timers) :
    Forgets s s' where
  tasks := htasks
  queues := by funext b; simp [queueOf,hready,hmicro]
  referenced := hreferenced
  live := hlive
  nextId := hnext
  sub timer h := htimers ▸ h
  keeps timer h _ := htimers ▸ h

theorem forgets_compactTimers : Forgets s s.compactTimers := by
  unfold compactTimers
  split
  · exact forgets_of_timers_eq rfl rfl rfl rfl rfl rfl rfl
  · exact ⟨rfl,rfl,rfl,rfl,rfl,fun _ h => mem_of_mem_filter h,
      fun _ h hlive => mem_filter.mpr ⟨h,hlive⟩⟩

theorem pruneLoop_spec (ts : AList fun _ : TaskId => Task H V) (timers : List Timer) (stale : UInt64) :
    ∃ dropped, timers = dropped++(pruneLoop ts timers stale).1 ∧
      ∀ t ∈ dropped, isLive ts t = false := by
  induction timers generalizing stale with
  | nil => exact ⟨[],rfl,by simp⟩
  | cons t _ ih =>
    unfold pruneLoop
    by_cases hlive : isLive ts t = true
    · exact ⟨[],by simp [hlive],by simp⟩
    obtain ⟨dropped,heq,hdropped⟩ := ih (saturatingPred stale)
    have hstale : isLive ts t = false := by simpa using hlive
    refine ⟨t::dropped,?_,?_⟩
    · rw [if_neg hlive,cons_append,← heq]
    intro o ho
    rcases mem_cons.mp ho with rfl | ho
    · exact hstale
    · exact hdropped o ho

theorem forgets_pruneStaleTimerHead : Forgets s s.pruneStaleTimerHead := by
  obtain ⟨dropped,heq,hdropped⟩ := pruneLoop_spec s.tasks s.timers s.staleTimers
  refine ⟨rfl,rfl,rfl,rfl,rfl,fun t h => ?_,fun t h hlive => ?_⟩
  · rw [heq]
    exact mem_append_right _ h
  rw [heq] at h
  rcases mem_append.mp h with h | h
  · rw [hdropped t h] at hlive
    cases hlive
  · exact h

/-! ## Moves -/

/-- When the moves are bounded, ids do not wrap. When they are guarded, a timer is armed only for a task that
is not queued and has no other entry, and a task is queued only without a timer. -/
inductive Move (bounded guarded : Prop) : Scheduler H V → List (Event V) → Scheduler H V → Prop
  | forget {s s' : Scheduler H V} (h : Forgets s s') : Move bounded guarded s [] s'
  | insert {s : Scheduler H V} (h : bounded → s.nextId.toNat+1 < 2 ^ 64) (coroutine : H)
      (arguments : List V) (microtask : Bool) :
      Move bounded guarded s [] (s.insertTask coroutine arguments microtask).1
  | remove {s : Scheduler H V} {id : TaskId} {task : Task H V} (hid : s.tasks.lookup id = some task) :
      Move bounded guarded s []
        { s with
          tasks := s.tasks.erase id
          referencedTasks := s.referencedTasks-task.referenced.toUInt64
          liveTimers := s.liveTimers-task.timerGeneration.isSome.toUInt64 }
  | arm {s : Scheduler H V} {id : TaskId} {task : Task H V} (hid : s.tasks.lookup id = some task)
      (hguard : guarded → task.queued = false ∧
        ∀ timer ∈ s.timers, timer.task = id → timer.generation ≠ task.generation) (deadline : Instant) :
      Move bounded guarded s [.armed ⟨deadline,id,task.generation⟩]
        { s.change id task { task with timerGeneration := some task.generation } with
          timers := s.timers.orderedInsert Timer.le ⟨deadline,id,task.generation⟩ }
  | renew {s : Scheduler H V} {id : TaskId} {task : Task H V} (hid : s.tasks.lookup id = some task)
      (hidle : task.pending.isSome = true → task.queued = false) (activation : Activation V) :
      Move bounded guarded s [] (s.change id task (task.renewed activation))
  | mark {s : Scheduler H V} {id : TaskId} {task : Task H V} (hid : s.tasks.lookup id = some task)
      (hpending : task.pending.isSome = true) (hguard : guarded → task.timerGeneration = none) (front : Bool) :
      Move bounded guarded s [] (s.markQueuedWithPriority id front)
  | expire {s : Scheduler H V} {timer : Timer} {timers : List Timer} {task : Task H V}
      (htimers : s.timers = timer::timers) (hid : s.tasks.lookup timer.task = some task)
      (hlive : isLive s.tasks timer = true) :
      Move bounded guarded s (if task.queued then [] else [.fired timer])
        { s.change timer.task task { task with timerGeneration := none } with timers := timers }
  | refer {s : Scheduler H V} {id : TaskId} {task : Task H V} (hid : s.tasks.lookup id = some task)
      (referenced : Bool) :
      Move bounded guarded s [] (s.change id task { task with referenced := referenced })
  | skip {s : Scheduler H V} {id : TaskId} {microtask : Bool} {queue : List TaskId}
      (hqueue : s.queueOf microtask = id::queue) (hid : s.tasks.lookup id = none) :
      Move bounded guarded s [] (s.setQueue microtask queue)
  | discard {s : Scheduler H V} {id : TaskId} {task : Task H V} {microtask : Bool} {queue : List TaskId}
      (hqueue : s.queueOf microtask = id::queue) (hid : s.tasks.lookup id = some task)
      (hidle : task.readyRequested = false ∨ task.pending = none) :
      Move bounded guarded s [] ((s.setTask id task.dequeued).setQueue microtask queue)
  | activate {s : Scheduler H V} {id : TaskId} {task : Task H V} {microtask : Bool} {queue : List TaskId}
      {activation : Activation V} (hqueue : s.queueOf microtask = id::queue)
      (hid : s.tasks.lookup id = some task) (hready : task.readyRequested = true)
      (hpending : task.pending = some activation) :
      Move bounded guarded s [.activated id activation]
        ((s.setTask id { task.dequeued with pending := none }).setQueue microtask queue)

abbrev Moves (bounded guarded : Prop) : Scheduler H V → List (Event V) → Scheduler H V → Prop :=
  Trace (Move bounded guarded)

variable {bounded g : Prop}

theorem moves_forget (h : Forgets s s') : Moves bounded g s [] s' := Trace.single (.forget h)

/-- The fields that no invariant reads. -/
theorem moves_congr (htasks : s'.tasks = s.tasks) (hready : s'.ready = s.ready)
    (hmicro : s'.microtasks = s.microtasks) (hreferenced : s'.referencedTasks = s.referencedTasks)
    (hlive : s'.liveTimers = s.liveTimers) (hnext : s'.nextId = s.nextId) (htimers : s'.timers = s.timers) :
    Moves bounded g s [] s' := moves_forget (forgets_of_timers_eq htasks hready hmicro hreferenced hlive hnext htimers)

theorem Forgets.trans {s'' : Scheduler H V} (h : Forgets s s') (h' : Forgets s' s'') : Forgets s s'' where
  tasks := h'.tasks.trans h.tasks
  queues := h'.queues.trans h.queues
  referenced := h'.referenced.trans h.referenced
  live := h'.live.trans h.live
  nextId := h'.nextId.trans h.nextId
  sub timer hmem := h.sub timer (h'.sub timer hmem)
  keeps timer hmem hlive := h'.keeps timer (h.keeps timer hmem hlive) (by rw [h.tasks]; exact hlive)

/-! ## Operations as moves -/

section

section
variable (h : bounded → s.nextId.toNat+1 < 2 ^ 64) (coroutine : H) (args : List V) (m : Bool)
include h coroutine args m

theorem moves_insertTask :
    Moves bounded g s [] (s.insertTask coroutine args m).1 := Trace.single (.insert h coroutine args m)

/-- A new task starts in its queue. -/
theorem moves_insertTask_markQueued : Moves bounded g s [] ((s.insertTask coroutine args m).1.markQueued s.nextId) := by
  have hid := AList.lookup_insert (s := s.tasks) (a := s.nextId)
    (b := (⟨coroutine,some (.start args),false,m,true,false,0,none⟩ : Task H V))
  exact (moves_insertTask h coroutine args m).trans
    (Trace.single (.mark hid rfl (fun _ => rfl) false))

end

/-- Where a timer may be armed without an older entry of its task coming back to life. -/
def MayArm (s : Scheduler H V) (id : TaskId) : Prop :=
  ∀ task, s.tasks.lookup id = some task → task.queued = false ∧
    ∀ timer ∈ s.timers, timer.task = id → timer.generation ≠ task.generation

attribute [local simp] setTask Task.renewed change pushQueue_eq

theorem moves_armTimer (hguard : g → s.MayArm id) (d : Instant) :
    Moves bounded g s (s.armedEvents (some id) d) (s.armTimer id d) := by
  unfold armTimer
  cases hid : s.tasks.lookup id with
  | none => simpa [armedEvents,hid] using Trace.refl s
  | some task =>
    have harm : Moves bounded g s _ _ := Trace.single (.arm hid (fun h => hguard h task hid) d)
    have hevents : s.armedEvents (some id) d = [.armed ⟨d,id,task.generation⟩] := by
      simp [armedEvents,hid]
    rw [hevents]
    refine harm.then_quiet (moves_forget (Forgets.trans ?_ forgets_compactTimers))
    cases ht : task.timerGeneration <;>
      exact forgets_of_timers_eq rfl rfl rfl (by simp) (by simp [ht]) rfl rfl

theorem moves_removeTask : Moves bounded g s [] (s.removeTask id) := by
  unfold removeTask
  cases hid : s.tasks.lookup id with
  | none => exact Trace.refl s
  | some task =>
    have hremove : Moves bounded g s [] _ := Trace.single (.remove hid)
    refine hremove.quiet (moves_forget ?_)
    dsimp only
    cases ht : task.timerGeneration with
    | none => cases task.referenced <;> exact forgets_of_timers_eq rfl rfl rfl (by simp) (by simp) rfl rfl
    | some =>
      refine Forgets.trans ?_ forgets_compactTimers
      cases task.referenced <;> exact forgets_of_timers_eq rfl rfl rfl (by simp) (by simp) rfl rfl

theorem moves_unreference : Moves bounded g s [] (s.unreference id) := by
  unfold unreference
  cases hid : s.tasks.lookup id with
  | none => exact Trace.refl s
  | some task =>
    by_cases hreferenced : task.referenced = true
    · have hrefer : Moves bounded g s [] _ := Trace.single (.refer hid false)
      simp only [hreferenced,if_true]
      exact hrefer.quiet (moves_congr rfl rfl rfl (by simp [hreferenced]) (by simp) rfl rfl)
    · simpa [hreferenced] using Trace.refl s

theorem moves_reference : Moves bounded g s [] (s.reference id) := by
  unfold reference
  cases hid : s.tasks.lookup id with
  | none => exact Trace.refl s
  | some task =>
    by_cases hreferenced : task.referenced = true
    · simpa [hreferenced] using Trace.refl s
    have hrefer : Moves bounded g s [] _ := Trace.single (.refer hid true)
    simp only [hreferenced]
    exact hrefer.quiet (moves_congr rfl rfl rfl (by simp [hreferenced]) (by simp) rfl rfl)

theorem moves_disarm : Moves bounded g s [] (s.disarm id) := moves_congr rfl rfl rfl rfl rfl rfl rfl

variable {x : Scheduler H V} {a : Activation V}

/-- The renewal of a task, with the timer it may have had. -/
theorem moves_renew (hid : s.tasks.lookup id = some task)
    (hidle : task.pending.isSome → task.queued = false)
    (hx : Forgets (s.setTask id (task.renewed a)) x) :
    Moves bounded g s [] (if task.timerGeneration.isSome then x.invalidateTimer else x) := by
  have hrenew : Moves bounded g s [] _ := Trace.single (.renew hid hidle a)
  refine hrenew.quiet (moves_forget ?_)
  cases ht : task.timerGeneration with
  | none =>
    have hset : Forgets (s.change id task (task.renewed a)) (s.setTask id (task.renewed a)) :=
      forgets_of_timers_eq rfl rfl rfl (by simp) (by simp [ht]) rfl rfl
    exact hset.trans hx
  | some =>
    have hreferenced : x.referencedTasks = (s.change id task (task.renewed a)).referencedTasks := by
      rw [hx.referenced]
      simp
    have hlive : x.liveTimers-1 = (s.change id task (task.renewed a)).liveTimers := by
      rw [hx.live]
      simp [ht]
    have hcount : Forgets (s.change id task (task.renewed a))
        { x with liveTimers := x.liveTimers-1, staleTimers := x.staleTimers+1 } :=
      ⟨hx.tasks,hx.queues,hreferenced,hlive,hx.nextId,hx.sub,hx.keeps⟩
    exact hcount.trans forgets_compactTimers

theorem tasks_invalidateTimer : s.invalidateTimer.tasks = s.tasks := forgets_compactTimers.tasks

/-- The renewed task is queued. -/
theorem moves_wake (hid : s.tasks.lookup id = some task)
    (hidle : task.pending.isSome → task.queued = false)
    (hx : Forgets (s.setTask id (task.renewed a)) x) (f : Bool) : Moves bounded g s []
      ((if task.timerGeneration.isSome then x.invalidateTimer else x).markQueuedWithPriority id f) := by
  have hlookup : x.tasks.lookup id = some (task.renewed a) := by
    rw [hx.tasks]
    exact AList.lookup_insert s.tasks
  have hmarked : (if task.timerGeneration.isSome then x.invalidateTimer else x).tasks.lookup id =
      some (task.renewed a) := by
    split
    · rw [tasks_invalidateTimer]
      exact hlookup
    · exact hlookup
  exact (moves_renew hid hidle hx).quiet (Trace.single (.mark hmarked rfl (fun _ => rfl) f))

theorem moves_enqueueWithPriority (a : Activation V) (f : Bool) :
    Moves bounded g s [] (s.enqueueWithPriority id a f) := by
  unfold enqueueWithPriority
  cases hid : s.tasks.lookup id with
  | none => exact Trace.refl s
  | some task =>
    dsimp only
    by_cases hq : (task.queued || task.readyRequested) = true
    · rw [if_pos hq]
      exact Trace.refl s
    have hqueued : task.queued = false := by
      cases h : task.queued
      · rfl
      · rw [h] at hq
        exact absurd rfl hq
    have hx : Forgets (s.setTask id (task.renewed a))
        ((s.setTask id (task.renewed a)).disarm id) :=
      forgets_of_timers_eq rfl rfl rfl rfl rfl rfl rfl
    rw [if_neg hq]
    cases f
    · exact moves_wake hid (fun _ => hqueued) hx false
    · exact moves_wake hid (fun _ => hqueued) hx true

/-- A task with a pending activation is queued as it is; under guard it has no timer. -/
theorem moves_fire (hguard : g → ∀ task, s.tasks.lookup id = some task →
    task.pending.isSome → task.timerGeneration = none) : Moves bounded g s [] (s.fire id) := by
  unfold fire
  cases hid : s.tasks.lookup id with
  | none =>
    have hn : s.markQueued id = s := by simp [markQueued,markQueuedWithPriority,hid]
    rw [hn]
    exact Trace.refl s
  | some task =>
    dsimp only
    cases hp : task.pending with
    | some =>
      have hsome : task.pending.isSome = true := by rw [hp]; rfl
      exact Trace.single (.mark hid hsome (fun h => hguard h task hid hsome) false)
    | none =>
      have hidle : task.pending.isSome = true → task.queued = false := by simp [hp]
      have hx : Forgets (s.setTask id (task.renewed (.resume s.idle)))
          (s.setTask id (task.renewed (.resume s.idle))) :=
        forgets_of_timers_eq rfl rfl rfl rfl rfl rfl rfl
      exact moves_wake hid hidle hx false

/-! ## Polls -/

/-- The descriptors that are ready belong to tasks without a timer, or without a pending activation. -/
def MayFire (s : Scheduler H V) (keys : List UInt64) : Prop :=
  ∀ key ∈ keys, (s.waiters.lookup key).isSome = true → ∀ task, s.tasks.lookup key = some task →
    task.pending.isSome = true → task.timerGeneration = none

theorem tasks_markQueuedWithPriority (hid : s.tasks.lookup id = some task) (f : Bool) :
    (s.markQueuedWithPriority id f).tasks =
      s.tasks.insert id { task with readyRequested := true, queued := true } := by
  unfold markQueuedWithPriority
  rw [hid]
  cases hq : task.queued <;> simp [hq]

/-- Nothing changes but tasks and queues. -/
theorem frame_markQueuedWithPriority (f : Bool) : (s.markQueuedWithPriority id f).nextId = s.nextId ∧
    (s.markQueuedWithPriority id f).timers = s.timers ∧ (s.markQueuedWithPriority id f).waiters = s.waiters := by
  unfold markQueuedWithPriority
  cases s.tasks.lookup id with
  | none => exact ⟨rfl,rfl,rfl⟩
  | some task => cases hq : task.queued <;> simp [hq]

theorem lookup_markQueuedWithPriority (f : Bool) (j : TaskId) :
    (s.markQueuedWithPriority id f).tasks.lookup j =
      if j = id then (s.tasks.lookup id).map fun task => { task with readyRequested := true, queued := true }
      else s.tasks.lookup j := by
  cases hid : s.tasks.lookup id with
  | none =>
    have hsame : s.markQueuedWithPriority id f = s := by simp [markQueuedWithPriority,hid]
    rw [hsame]
    split
    next hj => rw [hj,hid]; rfl
    next => rfl
  | some =>
    rw [tasks_markQueuedWithPriority hid]
    by_cases hj : j = id
    · rw [if_pos hj,hj,AList.lookup_insert]
      rfl
    · rw [if_neg hj,AList.lookup_insert_ne hj]

theorem lookup_fire (j : TaskId) : (s.fire id).tasks.lookup j = if j = id then (s.tasks.lookup id).map fun task =>
    { if task.pending.isNone then task.renewed (.resume s.idle) else task with
      readyRequested := true, queued := true }
      else s.tasks.lookup j := by
  unfold fire markQueued
  rw [lookup_markQueuedWithPriority]
  cases hid : s.tasks.lookup id with
  | none => simp [hid]
  | some task =>
    dsimp only
    by_cases hj : j = id
    · cases hp : task.pending <;> cases ht : task.timerGeneration <;>
        simp [hj,hid,hp,tasks_invalidateTimer]
    · cases hp : task.pending <;> cases ht : task.timerGeneration <;>
        simp [hj,tasks_invalidateTimer]

theorem waiters_invalidateTimer : s.invalidateTimer.waiters = s.waiters := by
  unfold invalidateTimer compactTimers
  split <;> rfl

theorem waiters_fire : (s.fire id).waiters = s.waiters := by
  unfold fire markQueued
  rw [(frame_markQueuedWithPriority false).2.2]
  cases s.tasks.lookup id with
  | none => rfl
  | some task =>
    cases hp : task.pending <;> cases ht : task.timerGeneration <;> simp [hp,ht,waiters_invalidateTimer]

variable {keys : List UInt64}

theorem MayFire.wakeKey {key : UInt64} (h : s.MayFire (key::keys)) : (s.wakeKey key).MayFire keys := by
  unfold Scheduler.wakeKey
  by_cases hwaits : (s.waiters.lookup key).isSome = true
  · rw [if_pos hwaits]
    intro k hk hkwaits o ho hpending
    rw [lookup_fire] at ho
    by_cases hkey : k = key
    · subst hkey
      rw [if_pos rfl] at ho
      obtain ⟨task,hid,rfl⟩ := Option.map_eq_some_iff.mp ho
      cases hp : task.pending with
      | none => simp
      | some => simpa [hp] using h k (by simp) hwaits task hid (by rw [hp]; rfl)
    · rw [if_neg hkey] at ho
      rw [waiters_fire] at hkwaits
      have hbefore : (s.waiters.lookup k).isSome = true := by
        rwa [show (s.disarm key).waiters = s.waiters.erase key from rfl,AList.lookup_erase_ne hkey] at hkwaits
      exact h k (mem_cons_of_mem _ hk) hbefore o ho hpending
  · rw [if_neg hwaits]
    exact fun k hk => h k (mem_cons_of_mem _ hk)

theorem moves_wakeKey {key : UInt64} (hguard : g → s.MayFire (key::keys)) : Moves bounded g s [] (s.wakeKey key) := by
  unfold wakeKey
  by_cases hwaits : (s.waiters.lookup key).isSome = true
  · rw [if_pos hwaits]
    exact moves_disarm.quiet (moves_fire fun h => hguard h key (by simp) hwaits)
  · rw [if_neg hwaits]
    exact Trace.refl s

theorem moves_wakeKeys (hguard : g → s.MayFire keys) : Moves bounded g s [] (keys.foldl wakeKey s) := by
  induction keys generalizing s with
  | nil => exact Trace.refl s
  | cons _ _ ih => exact (moves_wakeKey hguard).quiet (ih fun h => (hguard h).wakeKey)

/-- One round of the loop: an entry that is due comes off the heap. -/
theorem moves_expire {t : Timer} {timers : List Timer} (htimers : s.timers = t::timers)
    (hlive : isLive s.tasks t) :
    Moves bounded g s (if s.isQueued t.task then [] else [.fired t])
      (expire { s with timers := timers } t) := by
  obtain ⟨task,hid,hgeneration,htimer⟩ := isLive_iff.mp hlive
  have hpop : Moves bounded g s _ _ := Trace.single (.expire htimers hid hlive)
  have hqueued : s.isQueued t.task = task.queued := by simp [isQueued,hid]
  rw [hqueued]
  refine hpop.then_quiet ?_
  have heq : expire { s with timers := timers } t =
      ({ s.change t.task task { task with timerGeneration := none } with timers := timers }).fire
        t.task := by
    simp [expire,hid,htimer]
  rw [heq]
  refine moves_fire fun _ o ho _ => ?_
  have hsome : some ({ task with timerGeneration := none } : Task H V) = some o :=
    (AList.lookup_insert s.tasks).symm.trans ho
  cases hsome
  rfl

theorem moves_wakeExpiredLoop (now : Instant) (fuel : ℕ) :
    Moves bounded g s ((wakeExpiredLoop now fuel s).2.map .fired) (wakeExpiredLoop now fuel s).1 := by
  induction fuel generalizing s with
  | zero => exact Trace.refl s
  | succ _ ih =>
    unfold wakeExpiredLoop
    cases htimers : s.timers with
    | nil => exact Trace.refl s
    | cons t =>
      dsimp only
      by_cases hdue : t.deadline ≤ now
      · rw [if_pos hdue]
        by_cases hlive : isLive s.tasks t = true
        · rw [if_pos hlive]
          have hround : Moves bounded g s _ _ := moves_expire htimers hlive
          by_cases hqueued : s.isQueued t.task = true
          · rw [if_pos hqueued] at hround ⊢
            exact hround.quiet ih
          · rw [if_neg hqueued] at hround ⊢
            exact hround.trans ih
        · rw [if_neg hlive]
          refine Trace.quiet ?_ ih
          refine moves_forget ⟨rfl,rfl,rfl,rfl,rfl,?_,?_⟩
          · intro o ho
            rw [htimers]
            exact mem_cons_of_mem t ho
          · intro o ho hotherlive
            rw [htimers] at ho
            rcases mem_cons.mp ho with rfl | ho
            · exact absurd hotherlive hlive
            · exact ho
      · rw [if_neg hdue]
        exact Trace.refl s

variable {readiness : Option (List UInt64)}

section
variable (hguard : g → ∀ keys, readiness = some keys → s.MayFire keys) (now : Instant)
include hguard now

theorem moves_pollReactorWithTimeout : Moves bounded g s ((s.pollReactorWithTimeout readiness now).2.map .fired)
    (s.pollReactorWithTimeout readiness now).1 := by
  cases readiness with
  | none => exact Trace.refl s
  | some keys =>
    exact (moves_wakeKeys fun h => hguard h keys rfl).quiet (moves_wakeExpiredLoop now _)

theorem moves_pollReactor :
    Moves bounded g s ((s.pollReactor readiness now).2.map .fired) (s.pollReactor readiness now).1 :=
  (moves_forget forgets_pruneStaleTimerHead).quiet
    (moves_pollReactorWithTimeout (s := s.pruneStaleTimerHead) hguard now)

theorem moves_pollReactorNonblocking : Moves bounded g s ((s.pollReactorNonblocking readiness now).2.map .fired)
    (s.pollReactorNonblocking readiness now).1 := by
  unfold pollReactorNonblocking
  split
  · exact moves_wakeExpiredLoop now _
  · exact moves_pollReactorWithTimeout hguard now

end

/-! ## Activations -/

theorem moves_popQueue {m : Bool} {queue : List TaskId} (hq : s.queueOf m = queue) :
    Moves bounded g s (activatedEvents (popQueue s.tasks queue).2.2)
      (({ s with tasks := (popQueue s.tasks queue).1 } : Scheduler H V).setQueue m
        (popQueue s.tasks queue).2.1) := by
  induction queue generalizing s with
  | nil =>
    have hsame : s.setQueue m [] = s := by rw [← hq,setQueue_queueOf]
    show Moves bounded g s [] (s.setQueue m [])
    rw [hsame]
    exact Trace.refl s
  | cons id queue ih =>
    unfold popQueue
    cases hid : s.tasks.lookup id with
    | none =>
      have hskip : Moves bounded g s [] (s.setQueue m queue) := Trace.single (.skip hq hid)
      have hr := ih (s := s.setQueue m queue) (by simp)
      rw [tasks_setQueue,setQueue_setQueue] at hr
      exact hskip.quiet hr
    | some task =>
      dsimp only
      -- An entry that is not requested, or has nothing pending, only loses its flags.
      have hdiscard (hidle : task.readyRequested = false ∨ task.pending = none) :
          Moves bounded g s (activatedEvents (popQueue (s.tasks.insert id task.dequeued) queue).2.2)
            (({ s with tasks := (popQueue (s.tasks.insert id task.dequeued) queue).1 } :
              Scheduler H V).setQueue m (popQueue (s.tasks.insert id task.dequeued) queue).2.1) := by
        have hm : Moves bounded g s [] ((s.setTask id task.dequeued).setQueue m queue) :=
          Trace.single (.discard hq hid hidle)
        have hr := ih (s := (s.setTask id task.dequeued).setQueue m queue) (by simp)
        rw [tasks_setQueue,setQueue_setQueue] at hr
        exact hm.quiet hr
      by_cases hready : task.readyRequested = true
      · rw [if_pos hready]
        cases hp : task.pending with
        | none => simpa [Task.dequeued,hp] using hdiscard (.inr hp)
        | some =>
          have hm : Moves bounded g s _ _ := Trace.single (.activate hq hid hready hp)
          exact hm
      · rw [if_neg hready]
        have hfalse : task.readyRequested = false := by simpa using hready
        have hsame : ({ task with queued := false } : Task H V) = task.dequeued := by simp [Task.dequeued,hfalse]
        rw [hsame]
        exact hdiscard (.inl hfalse)

theorem moves_nextQueuedActivation (m : Bool) : Moves bounded g s (activatedEvents (s.nextQueuedActivation m).2)
      (s.nextQueuedActivation m).1 := by
  have hpop : Moves bounded g s _ _ := moves_popQueue (s := s) (Eq.refl (s.queueOf m))
  unfold nextQueuedActivation
  unfold queueOf setQueue at hpop
  dsimp only
  cases hnext : (popQueue s.tasks (if m then s.microtasks else s.ready)).2.2 with
  | none =>
    rw [hnext] at hpop
    exact hpop
  | some =>
    rw [hnext] at hpop
    exact hpop.then_quiet (moves_congr rfl rfl rfl rfl rfl rfl rfl)

theorem moves_nextActivation : Moves bounded g s (activatedEvents s.nextActivation.2) s.nextActivation.1 := by
  have hmicro : Moves bounded g s _ _ := moves_nextQueuedActivation true
  unfold nextActivation nextMicrotaskActivation nextReadyActivation
  cases hnext : s.nextQueuedActivation true with
  | mk _ a =>
    rw [hnext] at hmicro
    cases a with
    | some => exact hmicro
    | none => exact hmicro.quiet (moves_nextQueuedActivation false)

/-! ## The other operations -/

theorem moves_registerDescriptor (fd : RawDescriptor) (i : Interest) (reactor : Reactor) :
    Moves bounded g s [] (s.registerDescriptor id fd i reactor).1 := by
  unfold registerDescriptor
  repeat' split
  all_goals exact moves_congr rfl rfl rfl rfl rfl rfl rfl

theorem moves_armDescriptor (fd : RawDescriptor) (i : Interest) (reactor : Reactor) :
    Moves bounded g s [] (s.armDescriptor id fd i reactor).1 := by
  have hregister : Moves bounded g s [] (s.registerDescriptor id fd i reactor).1 :=
    moves_registerDescriptor fd i reactor
  unfold armDescriptor
  dsimp only
  split
  · exact hregister.quiet (moves_congr rfl rfl rfl rfl rfl rfl rfl)
  · exact hregister

theorem moves_forgetError (e : UInt64) : Moves bounded g s [] (s.forgetError e) := by
  unfold forgetError compactErrors
  dsimp only
  repeat' split
  all_goals exact moves_congr rfl rfl rfl rfl rfl rfl rfl

/-! ## Steps -/

/-- `next_id += 1` does not overflow. -/
def Bounded (s : Scheduler H V) : Operation H V → Prop
  | .spawn _ _ | .queue _ _ | .spawnArmed _ _ => s.nextId.toNat+1 < 2 ^ 64
  | _ => True

/-- A timer is armed only where its task is not queued and has no entry of its generation, and no descriptor
is ready whose task has both a pending activation and a timer. -/
def Guarded (s : Scheduler H V) : Operation H V → Prop
  | .armTimer id _ => s.MayArm id
  | .parkCurrentOnTimer _ => ∀ id, s.current = some id → s.MayArm id
  | .pollReactor readiness _ | .pollReactorNonblocking readiness _ =>
    ∀ keys, readiness = some keys → s.MayFire keys
  | _ => True

theorem step_moves (op : Operation H V) (hb : bounded → s.Bounded op) (hg : g → s.Guarded op) :
    Moves bounded g s (s.step op).2 (s.step op).1 := by
  cases op with
  | spawn coroutine args => exact moves_insertTask_markQueued hb coroutine args false
  | queue coroutine args => exact moves_insertTask_markQueued hb coroutine args true
  | spawnArmed coroutine args => exact moves_insertTask hb coroutine args false
  | armTimer _ d => exact moves_armTimer hg d
  | parkCurrentOnTimer d =>
    unfold step parkCurrentOnTimer
    cases hcurrent : s.current with
    | none => exact Trace.refl s
    | some id => exact moves_armTimer (fun h => hg h id hcurrent) d
  | armDescriptor _ fd i reactor => exact moves_armDescriptor fd i reactor
  | parkCurrentOnDescriptor fd i reactor =>
    unfold step parkCurrentOnDescriptor
    cases hcurrent : s.current with
    | none => exact Trace.refl s
    | some => exact moves_armDescriptor fd i reactor
  | unreference => exact moves_unreference
  | reference => exact moves_reference
  | wake _ v => exact moves_enqueueWithPriority (.resume v) false
  | wakeFront _ v => exact moves_enqueueWithPriority (.resume v) true
  | wakeThrow _ e => exact moves_enqueueWithPriority (.throw e) false
  | pollReactor _ now => exact moves_pollReactor hg now
  | pollReactorNonblocking _ now => exact moves_pollReactorNonblocking hg now
  | nextActivation => exact moves_nextActivation
  | nextMicrotaskActivation => exact moves_nextQueuedActivation true
  | nextReadyActivation => exact moves_nextQueuedActivation false
  | disarm => exact moves_disarm
  | finish | cancel => exact moves_disarm.quiet moves_removeTask
  | forgetError e => exact moves_forgetError e
  | clearCurrent | recordError | takePendingError => exact moves_congr rfl rfl rfl rfl rfl rfl rfl

/-- Every step of a run meets a condition on the state before it. -/
def Throughout (condition : Scheduler H V → Operation H V → Prop) : Scheduler H V → List (Operation H V) → Prop
  | _, [] => True
  | s, op::ops => condition s op ∧ Throughout condition (s.step op).1 ops

theorem run_moves (ops : List (Operation H V)) (hb : bounded → Throughout Bounded s ops)
    (hg : g → Throughout Guarded s ops) : Moves bounded g s (s.run ops).2 (s.run ops).1 := by
  induction ops generalizing s with
  | nil => exact Trace.refl s
  | cons op _ ih =>
    have hstep : Moves bounded g s _ _ := step_moves op (fun h => (hb h).1) (fun h => (hg h).1)
    exact hstep.trans (ih (fun h => (hb h).2) (fun h => (hg h).2))

end

end Scheduler
end Whim
