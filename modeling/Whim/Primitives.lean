import Whim.Waiting

/-!
# Sleeping, futures and groups

The other calls of the async library that suspend a task. Each keeps what it needs to resume the calls that wait on it.
-/

namespace Whim

open Waiting

/-! ## Sleeping -/

namespace Sleep

inductive Exception
  | cancelled
  deriving DecidableEq

inductive Return
  | done
  | threw (exception : Exception)
  | suspended
  deriving DecidableEq

/-- Everything that sleeps, and the sleepers whose timer task has neither run nor been cancelled. Nothing guards the
suspension of a sleeper. -/
structure System where
  timers : List ℕ
  waits : Waits Unit Unit Exception

namespace System

def new : System := ⟨[],.new⟩

variable (s : System)

/-- The callback of a sleeper cancels its timer task and throws into its suspension. -/
def cancel (token : ℕ) : System :=
  if s.waits.cancelled.contains token then s
  else
    { timers := s.timers.filter fun id => !(s.waits.table.lookup id).any (·.hears token)
      waits := s.waits.cancel token .cancelled }

def sleep (token : Option ℕ) (expires : Bool) : Return × System :=
  if s.waits.isCancelled token then (.threw .cancelled,s)
  else
    let sleeping := ⟨s.timers++[s.waits.next],s.waits.park () token false⟩
    match token, expires with
    | some token, true =>
      let thrown := cancel sleeping token
      (.threw .cancelled,⟨thrown.timers.erase s.waits.next,thrown.waits.leave s.waits.next⟩)
    | _, _ => (.suspended,sleeping)

/-- The timer task of a sleeper runs. -/
def fire (id : ℕ) : Option System :=
  if id ∈ s.timers then some ⟨s.timers.erase id,s.waits.resolve id (.resume ())⟩ else none

/-- A sleeper whose suspension has been resolved goes on. -/
def proceed (id : ℕ) : Option (Return × System) :=
  match s.waits.table.lookup id with
  | some ⟨_,_,_,_,some outcome⟩ =>
    some (match outcome with
      | .resume () => .done
      | .throw exception => .threw exception,⟨s.timers.erase id,s.waits.leave id⟩)
  | _ => none

end System

inductive Move
  | sleep (token : Option ℕ) (expires : Bool)
  | fire (id : ℕ)
  | proceed (id : ℕ)
  deriving DecidableEq

def step (s : System) : Move → Option System
  | .sleep token expires => some (s.sleep token expires).2
  | .fire id => s.fire id
  | .proceed id => (s.proceed id).map Prod.snd

end Sleep

/-! ## Awaiting a future -/

namespace Future

inductive Exception (E : Type)
  | cancelled | alreadyResolved
  | given (error : E)
  deriving DecidableEq

inductive Return (T E : Type)
  | returned (value : T)
  | done
  | threw (exception : Exception E)
  | suspended
  deriving DecidableEq

/-- A future, the calls that await it, the callbacks that are subscribed and those queued as tasks. The gate of a call
is the guard of its wait. -/
structure System (T E : Type) where
  result : Option (Except E T)
  subscribed : List ℕ
  queued : List ℕ
  waits : Waits Unit T (Exception E)

variable {T E : Type}

namespace System

def new : System T E := ⟨none,[],[],.new⟩

variable (s : System T E)

/-- A call whose suspension throws at once unsubscribes again. -/
def await (token : Option ℕ) (expires : Bool) : Return T E × System T E :=
  if s.waits.isCancelled token then (.threw .cancelled,s)
  else
    match s.result with
    | some (.ok value) => (.returned value,s)
    | some (.error error) => (.threw (.given error),s)
    | none =>
      let (suspended,waits) := s.waits.enter () token expires .cancelled
      if suspended then (.suspended,{ s with subscribed := s.subscribed++[s.waits.next], waits })
      else (.threw .cancelled,{ s with waits })

def complete (result : Except E T) : Return T E × System T E :=
  if s.result.isSome then (.threw .alreadyResolved,s)
  else (.done,{ s with result := some result, subscribed := [], queued := s.queued++s.subscribed })

/-- A queued callback runs. -/
def invoke (id : ℕ) : Option (System T E) :=
  match s.result with
  | none => none
  | some result =>
    if id ∈ s.queued then
      let s := { s with queued := s.queued.erase id }
      some (if s.waits.isActive id then
        { s with
          waits := s.waits.resolve id (match result with
            | .ok value => .resume value
            | .error error => .throw (.given error)) }
        else s)
    else none

/-- A call whose suspension has been resolved goes on. -/
def proceed (id : ℕ) : Option (Return T E × System T E) :=
  match s.waits.table.lookup id with
  | some ⟨_,_,_,_,some outcome⟩ =>
    some (match outcome with
      | .resume value => .returned value
      | .throw exception => .threw exception,{ s with subscribed := s.subscribed.erase id, waits := s.waits.leave id })
  | _ => none

end System

inductive Move (T E : Type)
  | await (token : Option ℕ) (expires : Bool)
  | complete (result : Except E T)
  | invoke (id : ℕ)
  | proceed (id : ℕ)

def step (s : System T E) : Move T E → Option (System T E)
  | .await token expires => some (s.await token expires).2
  | .complete result => some (s.complete result).2
  | .invoke id => s.invoke id
  | .proceed id => (s.proceed id).map Prod.snd

end Future

/-! ## Groups -/

/-- Calls that wait until a counter is zero. -/
structure Barrier (E : Type) where
  count : ℕ
  waiters : List ℕ
  waits : Waits Unit Unit E

namespace Barrier

variable {E : Type} (s : Barrier E)

def new : Barrier E := ⟨0,[],.new⟩

/-- A call begins to wait; the answer is whether it is suspended. -/
def wait (token : Option ℕ) (expires : Bool) (cancelled : E) : Bool × Barrier E :=
  let (suspended,waits) := s.waits.enter () token expires cancelled
  (suspended,{ s with waiters := s.waiters++[s.waits.next], waits })

/-- One less to wait for; the last one resumes everybody. -/
def decrement : Barrier E :=
  if s.count-1 = 0 then ⟨s.count-1,[],s.waits.wakeAll (.resume ()) s.waiters⟩ else { s with count := s.count-1 }

end Barrier

namespace WaitGroup

inductive Exception
  | cancelled | zero
  deriving DecidableEq

inductive Return
  | done
  | threw (exception : Exception)
  | suspended
  deriving DecidableEq

variable (s : Barrier Exception)

def add : Barrier Exception := { s with count := s.count+1 }

def done : Return × Barrier Exception := if s.count = 0 then (.threw .zero,s) else (.done,s.decrement)

def wait (token : Option ℕ) (expires : Bool) : Return × Barrier Exception :=
  if s.waits.isCancelled token then (.threw .cancelled,s)
  else if s.count = 0 then (.done,s)
  else
    let (suspended,s) := s.wait token expires .cancelled
    (if suspended then .suspended else .threw .cancelled,s)

/-- A call whose suspension has been resolved goes on. -/
def proceed (id : ℕ) : Option (Return × Barrier Exception) :=
  match s.waits.table.lookup id with
  | some ⟨_,_,_,_,some outcome⟩ =>
    some (match outcome with
      | .resume () => .done
      | .throw exception => .threw exception,{ s with waits := s.waits.leave id })
  | _ => none

inductive Move
  | add | done
  | wait (token : Option ℕ) (expires : Bool)
  | proceed (id : ℕ)
  deriving DecidableEq

def step (s : Barrier Exception) : Move → Option (Barrier Exception)
  | .add => some (add s)
  | .done => some (done s).2
  | .wait token expires => some (wait s token expires).2
  | .proceed id => (proceed s id).map Prod.snd

end WaitGroup

namespace TaskGroup

inductive Exception (E : Type)
  | cancelled
  | given (error : E)
  | composite (errors : List E)
  deriving DecidableEq

inductive Return (E : Type)
  | done
  | threw (exception : Exception E)
  | suspended
  deriving DecidableEq

/-- The barrier counts the deferred tasks that have not finished. -/
structure System (E : Type) where
  barrier : Barrier (Exception E)
  errors : List E

variable {E : Type}

namespace System

def new : System E := ⟨.new,[]⟩

variable (s : System E)

def defer : System E := { s with barrier := { s.barrier with count := s.barrier.count+1 } }

/-- A deferred task ends, perhaps with an exception. -/
def finish (error : Option E) : Option (System E) :=
  if s.barrier.count = 0 then none else some ⟨s.barrier.decrement,s.errors++error.toList⟩

/-- The end of `awaitAll`: the errors so far are reported and forgotten. -/
def report : Return E × System E :=
  (match s.errors with
    | [] => .done
    | [error] => .threw (.given error)
    | errors => .threw (.composite errors),{ s with errors := [] })

def awaitAll (token : Option ℕ) (expires : Bool) : Return E × System E :=
  if s.barrier.waits.isCancelled token then (.threw .cancelled,s)
  else if s.barrier.count = 0 then s.report
  else
    let (suspended,barrier) := s.barrier.wait token expires .cancelled
    (if suspended then .suspended else .threw .cancelled,{ s with barrier })

/-- A call whose suspension has been resolved goes on. -/
def proceed (id : ℕ) : Option (Return E × System E) :=
  match s.barrier.waits.table.lookup id with
  | some ⟨_,_,_,_,some (.resume ())⟩ =>
    some (report { s with barrier := { s.barrier with waits := s.barrier.waits.leave id } })
  | some ⟨_,_,_,_,some (.throw exception)⟩ =>
    some (.threw exception,{ s with barrier := { s.barrier with waits := s.barrier.waits.leave id } })
  | _ => none

end System

inductive Move (E : Type)
  | defer
  | finish (error : Option E)
  | awaitAll (token : Option ℕ) (expires : Bool)
  | proceed (id : ℕ)
  deriving DecidableEq

def step (s : System E) : Move E → Option (System E)
  | .defer => some s.defer
  | .finish error => s.finish error
  | .awaitAll token expires => some (s.awaitAll token expires).2
  | .proceed id => (s.proceed id).map Prod.snd

end TaskGroup
end Whim
