import Whim.Waiting

/-!
# Semaphores

A bounded number of calls run the operation at once. A call that ends hands its slot to the first call that waits.
-/

namespace Whim.Semaphore

open Waiting

inductive Exception (E : Type)
  | cancelled
  | given (error : E)
  deriving DecidableEq

/-- What a waiting call goes on with: the operation on its input, or nothing. -/
inductive Call (T : Type)
  | waitFor (input : T)
  | waitForPending
  deriving DecidableEq

inductive Return (R E : Type)
  | running
  | returned (value : R)
  | done
  | threw (exception : Exception E)
  | suspended
  deriving DecidableEq

structure State where
  concurrencyLimit : ℕ
  positive : 0 < concurrencyLimit
  ongoing : ℕ
  pending : List ℕ
  waits : List ℕ

/-- A semaphore, everything that waits and the calls inside the operation. The history keeps the calls that went to
`pending` and those that were handed a slot, each in the order in which that happened. -/
structure System (T E : Type) where
  state : State
  waiting : Waits (Call T) Unit (Exception E)
  running : List T
  queued : List ℕ
  granted : List ℕ

variable {T R E : Type}

namespace System

def new (concurrencyLimit : ℕ) (positive : 0 < concurrencyLimit) : System T E :=
  ⟨⟨concurrencyLimit,positive,0,[],[]⟩,.new,[],[],[]⟩

variable (s : System T E)

def enqueue : Call T → System T E
  | .waitFor _ =>
    { s with
      state := { s.state with pending := s.state.pending++[s.waiting.next] }
      queued := s.queued++[s.waiting.next] }
  | .waitForPending => { s with state := { s.state with waits := s.state.waits++[s.waiting.next] } }

def wait (call : Call T) (token : Option ℕ) (expires : Bool) : Return R E × System T E :=
  let (suspended,waiting) := s.waiting.enter call token expires .cancelled
  (if suspended then .suspended else .threw .cancelled,{ s.enqueue call with waiting })

def waitFor (input : T) (token : Option ℕ) (expires : Bool) : Return R E × System T E :=
  if s.waiting.isCancelled token then (.threw .cancelled,s)
  else if s.state.concurrencyLimit ≤ s.state.ongoing then s.wait (.waitFor input) token expires
  else
    (.running,{ s with state := { s.state with ongoing := s.state.ongoing+1 }, running := s.running++[input] })

def cancel (error : E) : System T E :=
  { s with
    state := { s.state with pending := [] }
    waiting := s.waiting.wakeAll (.throw (.given error)) s.state.pending }

def waitForPending (token : Option ℕ) (expires : Bool) : Return R E × System T E :=
  if s.state.ongoing < s.state.concurrencyLimit then (.done,s)
  else if s.waiting.isCancelled token then (.threw .cancelled,s)
  else s.wait .waitForPending token expires

def releaseSlot : System T E :=
  let (waiting,pending) := s.waiting.wakeFirst (.resume ()) s.state.pending
  match s.state.pending.find? s.waiting.isActive with
  | some id => { s with state := { s.state with pending }, waiting, granted := s.granted++[id] }
  | none =>
    { s with
      state := { s.state with ongoing := s.state.ongoing-1, pending, waits := [] }
      waiting := waiting.wakeAll (.resume ()) s.state.waits }

/-- The operation of one of the running calls returns or throws. -/
def finish (index : ℕ) (result : Except E R) : Option (Return R E × System T E) :=
  if index < s.running.length then
    some (match result with
      | .ok value => .returned value
      | .error error => .threw (.given error),releaseSlot { s with running := s.running.eraseIdx index })
  else none

/-- A call whose suspension has been resolved goes on. -/
def proceed (id : ℕ) : Option (Return R E × System T E) :=
  match s.waiting.table.lookup id with
  | some ⟨.waitFor input,_,_,_,some (.resume ())⟩ =>
    some (.running,{ s with waiting := s.waiting.leave id, running := s.running++[input] })
  | some ⟨.waitForPending,_,_,_,some (.resume ())⟩ => some (.done,{ s with waiting := s.waiting.leave id })
  | some ⟨_,_,_,_,some (.throw exception)⟩ => some (.threw exception,{ s with waiting := s.waiting.leave id })
  | _ => none

end System

/-- What can happen next: a task makes a call, an operation ends, a token is cancelled, or a resolved call goes on. -/
inductive Move (T R E : Type)
  | waitFor (input : T) (token : Option ℕ) (expires : Bool)
  | cancel (error : E)
  | waitForPending (token : Option ℕ) (expires : Bool)
  | finish (index : ℕ) (result : Except E R)
  | cancelToken (token : ℕ)
  | proceed (id : ℕ)

def step (s : System T E) : Move T R E → Option (System T E)
  | .waitFor input token expires => some (s.waitFor (R := R) input token expires).2
  | .cancel error => some (s.cancel error)
  | .waitForPending token expires => some (s.waitForPending (R := R) token expires).2
  | .finish index result => (s.finish index result).map Prod.snd
  | .cancelToken token => some { s with waiting := s.waiting.cancel token .cancelled }
  | .proceed id => (s.proceed (R := R) id).map Prod.snd

end Whim.Semaphore
