import Mathlib.Data.List.AList
import Mathlib.Data.List.Sort

/-!
# The scheduler

Live tasks, the two ready queues, the timer heap and the unobserved errors. The answers of the reactor and of the clock
are arguments.
-/

namespace Whim

abbrev TaskId := UInt64

/-- A point in time, counted from any fixed one. -/
abbrev Instant := ℕ

abbrev RawDescriptor := Int32

inductive Interest
  | readable | writable | readableOrWritable
  deriving DecidableEq

/-- What a task's next activation feeds its coroutine. -/
inductive Activation (V : Type)
  | start (arguments : List V)
  | resume (value : V)
  | throw (value : V)
  deriving DecidableEq

structure Task (H V : Type) where
  coroutine : H
  pending : Option (Activation V)
  queued : Bool
  microtask : Bool
  referenced : Bool
  readyRequested : Bool
  generation : UInt64
  timerGeneration : Option UInt64

structure Timer where
  deadline : Instant
  task : TaskId
  generation : UInt64
  deriving DecidableEq

/-- The order of the heap: by deadline, then by task and generation. -/
def Timer.le (a b : Timer) : Prop :=
  a.deadline < b.deadline ∨ a.deadline = b.deadline ∧
    (a.task < b.task ∨ a.task = b.task ∧ a.generation ≤ b.generation)

instance : DecidableRel Timer.le := fun a b => by
  unfold Timer.le
  infer_instance

structure ReadyActivation (H V : Type) where
  id : TaskId
  coroutine : H
  activation : Activation V
  deriving DecidableEq

/-- The heap is the sorted list of its entries; counters are `usize`. -/
structure Scheduler (H V : Type) where
  tasks : AList fun _ : TaskId => Task H V
  referencedTasks : UInt64
  ready : List TaskId
  microtasks : List TaskId
  waiters : AList fun _ : UInt64 => RawDescriptor
  registrations : AList fun _ : UInt64 => RawDescriptor × Interest
  timers : List Timer
  liveTimers : UInt64
  staleTimers : UInt64
  current : Option TaskId
  pendingErrors : AList fun _ : UInt64 => V
  pendingErrorOrder : List UInt64
  staleErrors : UInt64
  nextErrorId : UInt64
  nextId : TaskId
  idle : V

namespace Scheduler

variable {H V : Type}

def timerCompactionThreshold : UInt64 := 1024
def errorCompactionThreshold : UInt64 := 1024

def new (idle : V) : Scheduler H V where
  tasks := ∅
  referencedTasks := 0
  ready := []
  microtasks := []
  waiters := ∅
  registrations := ∅
  timers := []
  liveTimers := 0
  staleTimers := 0
  current := none
  pendingErrors := ∅
  pendingErrorOrder := []
  staleErrors := 0
  nextErrorId := 0
  nextId := 0
  idle := idle

def saturatingPred (n : UInt64) : UInt64 := if n = 0 then 0 else n-1

/-- The compactions wait for this many stale entries, and for half of all entries to be stale. -/
def fewStale (stale threshold : UInt64) (length : ℕ) : Bool :=
  decide (stale < threshold) || decide (stale.toNat < (length+1) / 2)

section

variable (s : Scheduler H V) (id : TaskId)

def setTask (task : Task H V) : Scheduler H V := { s with tasks := s.tasks.insert id task }

/-! ## Timers -/

/-- An entry that would wake its task. -/
def isLive (tasks : AList fun _ : TaskId => Task H V) (timer : Timer) : Bool :=
  (tasks.lookup timer.task).any fun task =>
    task.generation == timer.generation && task.timerGeneration == some timer.generation

def compactTimers : Scheduler H V :=
  if fewStale s.staleTimers timerCompactionThreshold s.timers.length then s
  else { s with timers := s.timers.filter (isLive s.tasks), staleTimers := 0 }

def pruneLoop (tasks : AList fun _ : TaskId => Task H V) : List Timer → UInt64 → List Timer × UInt64
  | [], stale => ([],stale)
  | timer::timers, stale =>
    if isLive tasks timer then (timer::timers,stale) else pruneLoop tasks timers (saturatingPred stale)

def pruneStaleTimerHead : Scheduler H V :=
  { s with
    timers := (pruneLoop s.tasks s.timers s.staleTimers).1
    staleTimers := (pruneLoop s.tasks s.timers s.staleTimers).2 }

/-- A timer lost its task's interest. -/
def invalidateTimer : Scheduler H V :=
  compactTimers { s with liveTimers := s.liveTimers-1, staleTimers := s.staleTimers+1 }

def armTimer (deadline : Instant) : Scheduler H V :=
  match s.tasks.lookup id with
  | none => s
  | some task =>
    let s := s.setTask id { task with timerGeneration := some task.generation }
    let s :=
      if task.timerGeneration.isSome then { s with staleTimers := s.staleTimers+1 }
      else { s with liveTimers := s.liveTimers+1 }
    compactTimers { s with timers := s.timers.orderedInsert Timer.le ⟨deadline,id,task.generation⟩ }

def parkCurrentOnTimer (deadline : Instant) : Scheduler H V :=
  match s.current with
  | some task => s.armTimer task deadline
  | none => s

/-! ## Queues -/

def pushQueue (microtask front : Bool) : Scheduler H V :=
  match microtask, front with
  | true, true => { s with microtasks := id::s.microtasks }
  | true, false => { s with microtasks := s.microtasks++[id] }
  | false, true => { s with ready := id::s.ready }
  | false, false => { s with ready := s.ready++[id] }

def markQueuedWithPriority (front : Bool) : Scheduler H V :=
  match s.tasks.lookup id with
  | none => s
  | some task =>
    let s := s.setTask id { task with readyRequested := true, queued := true }
    if task.queued then s else s.pushQueue id task.microtask front

def markQueued : Scheduler H V := s.markQueuedWithPriority id false

def markQueuedFront : Scheduler H V := s.markQueuedWithPriority id true

/-- `insert_task`, with the new id. -/
def insertTask (coroutine : H) (arguments : List V) (microtask : Bool) : Scheduler H V × TaskId :=
  let task : Task H V :=
    ⟨coroutine,some (.start arguments),false,microtask,true,false,0,none⟩
  ({ s with
    nextId := s.nextId+1, tasks := s.tasks.insert s.nextId task
    referencedTasks := s.referencedTasks+1 },s.nextId)

def spawn (coroutine : H) (arguments : List V) : Scheduler H V × TaskId :=
  let (s,id) := s.insertTask coroutine arguments false
  (s.markQueued id,id)

def queue (coroutine : H) (arguments : List V) : Scheduler H V × TaskId :=
  let (s,id) := s.insertTask coroutine arguments true
  (s.markQueued id,id)

def spawnArmed (coroutine : H) (arguments : List V) : Scheduler H V × TaskId := s.insertTask coroutine arguments false

def unreference : Scheduler H V :=
  match s.tasks.lookup id with
  | some task =>
    if task.referenced then
      { s.setTask id { task with referenced := false } with referencedTasks := s.referencedTasks-1 }
    else s
  | none => s

def reference : Scheduler H V :=
  match s.tasks.lookup id with
  | some task =>
    if task.referenced then s
    else { s.setTask id { task with referenced := true } with referencedTasks := s.referencedTasks+1 }
  | none => s

def removeTask : Scheduler H V :=
  match s.tasks.lookup id with
  | none => s
  | some task =>
    let s := { s with tasks := s.tasks.erase id }
    let s := if task.referenced then { s with referencedTasks := s.referencedTasks-1 } else s
    if task.timerGeneration.isSome then s.invalidateTimer else s

/-! ## Descriptors -/

def disarm : Scheduler H V := { s with waiters := s.waiters.erase id, registrations := s.registrations.erase id }

/-- What the reactor answers to a registration. -/
structure Reactor where
  requiresRearm : Bool
  rearm : Bool
  deregister : Bool
  register : Bool

/-- `register_descriptor`, with whether it succeeds. -/
def registerDescriptor (fd : RawDescriptor) (interest : Interest) (reactor : Reactor) : Scheduler H V × Bool :=
  let add (s : Scheduler H V) : Scheduler H V × Bool :=
    if reactor.register then ({ s with registrations := s.registrations.insert id (fd,interest) },true)
    else (s,false)
  match s.registrations.lookup id with
  | some (registered,registeredInterest) =>
    if registered = fd then
      if registeredInterest = interest && !reactor.requiresRearm then (s,true)
      else if reactor.rearm then ({ s with registrations := s.registrations.insert id (fd,interest) },true)
      else (s,false)
    else if reactor.deregister then add { s with registrations := s.registrations.erase id }
    else (s,false)
  | none => add s

def armDescriptor (fd : RawDescriptor) (interest : Interest) (reactor : Reactor) : Scheduler H V × Bool :=
  let (s,registered) := s.registerDescriptor id fd interest reactor
  if registered then ({ s with waiters := s.waiters.insert id fd },true) else (s,false)

def parkCurrentOnDescriptor (fd : RawDescriptor) (interest : Interest) (reactor : Reactor) :
    Scheduler H V × Bool :=
  match s.current with
  | some task => s.armDescriptor task fd interest reactor
  | none => (s,true)

/-! ## Wakes -/

def enqueueWithPriority (activation : Activation V) (front : Bool) : Scheduler H V :=
  match s.tasks.lookup id with
  | none => s
  | some task =>
    if task.queued || task.readyRequested then s
    else
      let s := s.setTask id
        { task with pending := some activation, generation := task.generation+1, timerGeneration := none }
      let s := s.disarm id
      let s := if task.timerGeneration.isSome then s.invalidateTimer else s
      if front then s.markQueuedFront id else s.markQueued id

def wake (value : V) : Scheduler H V := s.enqueueWithPriority id (.resume value) false

def wakeFront (value : V) : Scheduler H V := s.enqueueWithPriority id (.resume value) true

def wakeThrow (error : V) : Scheduler H V := s.enqueueWithPriority id (.throw error) false

def fire : Scheduler H V :=
  let woken :=
    match s.tasks.lookup id with
    | some task =>
      if task.pending.isNone then
        let s := s.setTask id
          { task with
            pending := some (.resume s.idle), generation := task.generation+1, timerGeneration := none }
        if task.timerGeneration.isSome then s.invalidateTimer else s
      else s
    | none => s
  woken.markQueued id

def wakeKey (key : UInt64) : Scheduler H V :=
  if (s.waiters.lookup key).isSome then (s.disarm key).fire key else s

/-- Whether a task is live and in a queue. -/
def isQueued : Bool := (s.tasks.lookup id).any (·.queued)

/-- The wake of a task by its timer, which is then no longer armed. -/
def expire (timer : Timer) : Scheduler H V :=
  match s.tasks.lookup timer.task with
  | some task =>
    let s := s.setTask timer.task { task with timerGeneration := none }
    { s with liveTimers := s.liveTimers-1 }.fire timer.task
  | none => s

/-- `wake_expired_timers`, with the entries that put a task into a queue. Each round takes an entry off the
heap, so that the length of the heap is enough fuel. -/
def wakeExpiredLoop (now : Instant) : ℕ → Scheduler H V → Scheduler H V × List Timer
  | 0, s => (s,[])
  | fuel+1, s =>
    match s.timers with
    | [] => (s,[])
    | timer::timers =>
      if timer.deadline ≤ now then
        if isLive s.tasks timer then
          let woken := expire { s with timers := timers } timer
          let rest := wakeExpiredLoop now fuel woken
          if s.isQueued timer.task then rest else (rest.1,timer::rest.2)
        else wakeExpiredLoop now fuel { s with timers := timers, staleTimers := saturatingPred s.staleTimers }
      else (s,[])

def wakeExpiredTimers (now : Instant) : Scheduler H V × List Timer := wakeExpiredLoop now s.timers.length s

/-- The wait is interrupted by an error, or reports ready keys. -/
def pollReactorWithTimeout (readiness : Option (List UInt64)) (now : Instant) : Scheduler H V × List Timer :=
  match readiness with
  | none => (s,[])
  | some keys => (keys.foldl wakeKey s).wakeExpiredTimers now

def pollReactor (readiness : Option (List UInt64)) (now : Instant) : Scheduler H V × List Timer :=
  s.pruneStaleTimerHead.pollReactorWithTimeout readiness now

def pollReactorNonblocking (readiness : Option (List UInt64)) (now : Instant) : Scheduler H V × List Timer :=
  if s.waiters.entries.isEmpty then s.wakeExpiredTimers now else s.pollReactorWithTimeout readiness now

/-! ## Activations -/

/-- The search of a queue for a task that can be activated. -/
def popQueue (tasks : AList fun _ : TaskId => Task H V) :
    List TaskId → (AList fun _ : TaskId => Task H V) × List TaskId × Option (ReadyActivation H V)
  | [] => (tasks,[],none)
  | id::queue =>
    match tasks.lookup id with
    | none => popQueue tasks queue
    | some task =>
      if task.readyRequested then
        match task.pending with
        | none => popQueue (tasks.insert id { task with queued := false, readyRequested := false }) queue
        | some activation =>
          (tasks.insert id { task with queued := false, readyRequested := false, pending := none },queue,
            some ⟨id,task.coroutine,activation⟩)
      else popQueue (tasks.insert id { task with queued := false }) queue

def nextQueuedActivation (microtask : Bool) : Scheduler H V × Option (ReadyActivation H V) :=
  let (tasks,queue,activation) := popQueue s.tasks (if microtask then s.microtasks else s.ready)
  let s := if microtask then { s with tasks := tasks, microtasks := queue }
    else { s with tasks := tasks, ready := queue }
  match activation with
  | some activation => ({ s with current := some activation.id },some activation)
  | none => (s,none)

def nextMicrotaskActivation : Scheduler H V × Option (ReadyActivation H V) := s.nextQueuedActivation true

def nextReadyActivation : Scheduler H V × Option (ReadyActivation H V) := s.nextQueuedActivation false

def nextActivation : Scheduler H V × Option (ReadyActivation H V) :=
  match s.nextMicrotaskActivation with
  | (s,some activation) => (s,some activation)
  | (s,none) => s.nextReadyActivation

def clearCurrent : Scheduler H V := { s with current := none }

def isIdle : Bool := s.referencedTasks == 0

def hasWakeSource : Bool := s.liveTimers != 0 || !s.waiters.entries.isEmpty

def finish : Scheduler H V := (s.disarm id).removeTask id

def cancel : Scheduler H V := (s.disarm id).removeTask id

/-! ## Unobserved errors -/

def compactErrors : Scheduler H V :=
  if fewStale s.staleErrors errorCompactionThreshold s.pendingErrorOrder.length then s
  else { s with
    pendingErrorOrder := s.pendingErrorOrder.filter fun id => (s.pendingErrors.lookup id).isSome
    staleErrors := 0 }

def recordError (error : V) : Scheduler H V × UInt64 :=
  ({ s with
    nextErrorId := s.nextErrorId+1, pendingErrors := s.pendingErrors.insert s.nextErrorId error
    pendingErrorOrder := s.pendingErrorOrder++[s.nextErrorId] },s.nextErrorId)

def forgetError (id : UInt64) : Scheduler H V :=
  if (s.pendingErrors.lookup id).isNone then s
  else
    let s := { s with pendingErrors := s.pendingErrors.erase id }
    if s.pendingErrors.entries.isEmpty then { s with pendingErrorOrder := [], staleErrors := 0 }
    else compactErrors { s with staleErrors := s.staleErrors+1 }

def takeLoop (errors : AList fun _ : UInt64 => V) :
    List UInt64 → UInt64 → (AList fun _ : UInt64 => V) × List UInt64 × UInt64 × Option V
  | [], stale => (errors,[],stale,none)
  | id::order, stale =>
    match errors.lookup id with
    | some error =>
      let errors := errors.erase id
      if errors.entries.isEmpty then (errors,[],0,some error) else (errors,order,stale,some error)
    | none => takeLoop errors order (saturatingPred stale)

def takePendingError : Scheduler H V × Option V :=
  let (errors,order,stale,error) := takeLoop s.pendingErrors s.pendingErrorOrder s.staleErrors
  ({ s with pendingErrors := errors, pendingErrorOrder := order, staleErrors := stale },error)

end

/-! ## Runs -/

inductive Operation (H V : Type)
  | spawn (coroutine : H) (arguments : List V)
  | queue (coroutine : H) (arguments : List V)
  | spawnArmed (coroutine : H) (arguments : List V)
  | armTimer (id : TaskId) (deadline : Instant)
  | parkCurrentOnTimer (deadline : Instant)
  | armDescriptor (id : TaskId) (fd : RawDescriptor) (interest : Interest) (reactor : Reactor)
  | parkCurrentOnDescriptor (fd : RawDescriptor) (interest : Interest) (reactor : Reactor)
  | unreference (id : TaskId)
  | reference (id : TaskId)
  | wake (id : TaskId) (value : V)
  | wakeFront (id : TaskId) (value : V)
  | wakeThrow (id : TaskId) (error : V)
  | pollReactor (readiness : Option (List UInt64)) (now : Instant)
  | pollReactorNonblocking (readiness : Option (List UInt64)) (now : Instant)
  | nextActivation | nextMicrotaskActivation | nextReadyActivation | clearCurrent
  | disarm (id : TaskId)
  | finish (id : TaskId)
  | cancel (id : TaskId)
  | recordError (error : V)
  | forgetError (id : UInt64)
  | takePendingError

/-- What a run shows of its timers and activations. -/
inductive Event (V : Type)
  | armed (timer : Timer)
  | fired (timer : Timer)
  | activated (id : TaskId) (activation : Activation V)
  deriving DecidableEq

/-- The entry that arming a timer of this task pushes. -/
def armedEvents (s : Scheduler H V) (id : Option TaskId) (deadline : Instant) : List (Event V) :=
  (id.bind fun id => (s.tasks.lookup id).map fun task => .armed ⟨deadline,id,task.generation⟩).toList

def activatedEvents (activation : Option (ReadyActivation H V)) : List (Event V) :=
  (activation.map fun ready => .activated ready.id ready.activation).toList

def step (s : Scheduler H V) : Operation H V → Scheduler H V × List (Event V)
  | .spawn coroutine arguments => ((s.spawn coroutine arguments).1,[])
  | .queue coroutine arguments => ((s.queue coroutine arguments).1,[])
  | .spawnArmed coroutine arguments => ((s.spawnArmed coroutine arguments).1,[])
  | .armTimer id deadline => (s.armTimer id deadline,s.armedEvents (some id) deadline)
  | .parkCurrentOnTimer deadline => (s.parkCurrentOnTimer deadline,s.armedEvents s.current deadline)
  | .armDescriptor id fd interest reactor => ((s.armDescriptor id fd interest reactor).1,[])
  | .parkCurrentOnDescriptor fd interest reactor => ((s.parkCurrentOnDescriptor fd interest reactor).1,[])
  | .unreference id => (s.unreference id,[])
  | .reference id => (s.reference id,[])
  | .wake id value => (s.wake id value,[])
  | .wakeFront id value => (s.wakeFront id value,[])
  | .wakeThrow id error => (s.wakeThrow id error,[])
  | .pollReactor readiness now =>
    ((s.pollReactor readiness now).1,(s.pollReactor readiness now).2.map .fired)
  | .pollReactorNonblocking readiness now =>
    ((s.pollReactorNonblocking readiness now).1,(s.pollReactorNonblocking readiness now).2.map .fired)
  | .nextActivation => (s.nextActivation.1,activatedEvents s.nextActivation.2)
  | .nextMicrotaskActivation => (s.nextMicrotaskActivation.1,activatedEvents s.nextMicrotaskActivation.2)
  | .nextReadyActivation => (s.nextReadyActivation.1,activatedEvents s.nextReadyActivation.2)
  | .clearCurrent => (s.clearCurrent,[])
  | .disarm id => (s.disarm id,[])
  | .finish id => (s.finish id,[])
  | .cancel id => (s.cancel id,[])
  | .recordError error => ((s.recordError error).1,[])
  | .forgetError id => (s.forgetError id,[])
  | .takePendingError => (s.takePendingError.1,[])

def run (s : Scheduler H V) : List (Operation H V) → Scheduler H V × List (Event V)
  | [] => (s,[])
  | op::ops => ((run (s.step op).1 ops).1,(s.step op).2++(run (s.step op).1 ops).2)

end Scheduler
end Whim
