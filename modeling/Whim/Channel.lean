import Whim.Waiting

/-!
# Channels

A buffer that may be bounded, and the queues of the calls that wait to send and to receive. A call that is resumed
starts over.
-/

namespace Whim.Channel

open Waiting

inductive Exception
  | closed | full | empty | cancelled
  deriving DecidableEq

/-- What a waiting call goes on with. -/
inductive Call (T : Type)
  | send (value : T)
  | receive
  deriving DecidableEq

inductive Return (T : Type)
  | done
  | value (value : T)
  | threw (exception : Exception)
  | suspended
  deriving DecidableEq

/-- The capacity is positive where there is one. -/
structure State (T : Type) where
  capacity : Option ℕ
  positive : capacity ≠ some 0
  buffer : List T
  closed : Bool
  sendWaiters : List ℕ
  receiveWaiters : List ℕ

/-- A channel and everything that waits. -/
structure System (T : Type) where
  state : State T
  waits : Waits (Call T) Unit Exception

variable {T : Type}

def State.isFull (s : State T) : Bool := s.capacity.any (· ≤ s.buffer.length)

namespace System

variable (s : System T)

def wakeSender : System T :=
  let (waits,queue) := s.waits.wakeFirst (.resume ()) s.state.sendWaiters
  { state := { s.state with sendWaiters := queue }, waits }

def wakeReceiver : System T :=
  let (waits,queue) := s.waits.wakeFirst (.resume ()) s.state.receiveWaiters
  { state := { s.state with receiveWaiters := queue }, waits }

def close : System T :=
  if s.state.closed then s
  else
    { state := { s.state with closed := true, sendWaiters := [], receiveWaiters := [] }
      waits := Waits.wakeAll (.resume ()) (s.waits.wakeAll (.resume ()) s.state.sendWaiters) s.state.receiveWaiters }

def push (value : T) : System T := { s with state := { s.state with buffer := s.state.buffer++[value] } }

def trySend (value : T) : Return T × System T :=
  if s.state.closed then (.threw .closed,s)
  else if s.state.isFull then (.threw .full,s)
  else (.done,(s.push value).wakeReceiver)

/-- The first value of the buffer, if there is one. -/
def take (otherwise : Return T × System T) : Return T × System T :=
  match s.state.buffer with
  | value::buffer => (.value value,wakeSender { s with state := { s.state with buffer } })
  | [] => otherwise

def tryReceive : Return T × System T := s.take (if s.state.closed then (.threw .closed,s) else (.threw .empty,s))

def enqueue : Call T → System T
  | .send _ => { s with state := { s.state with sendWaiters := s.state.sendWaiters++[s.waits.next] } }
  | .receive => { s with state := { s.state with receiveWaiters := s.state.receiveWaiters++[s.waits.next] } }

def wait (call : Call T) (token : Option ℕ) (expires : Bool) : Return T × System T :=
  let (suspended,waits) := s.waits.enter call token expires .cancelled
  (if suspended then .suspended else .threw .cancelled,⟨(s.enqueue call).state,waits⟩)

/-- One turn of the loop in `send`. -/
def send (value : T) (token : Option ℕ) (expires : Bool) : Return T × System T :=
  if s.waits.isCancelled token then (.threw .cancelled,s)
  else if s.state.closed then (.threw .closed,s)
  else if s.state.isFull then s.wait (.send value) token expires
  else (.done,(s.push value).wakeReceiver)

/-- One turn of the loop in `receive`. -/
def receive (token : Option ℕ) (expires : Bool) : Return T × System T :=
  if s.waits.isCancelled token then (.threw .cancelled,s)
  else s.take (if s.state.closed then (.threw .closed,s) else s.wait .receive token expires)

def start (call : Call T) (token : Option ℕ) (expires : Bool) : Return T × System T :=
  match call with
  | .send value => s.send value token expires
  | .receive => s.receive token expires

/-- A call whose suspension has been resolved runs again. -/
def proceed (id : ℕ) (expires : Bool) : Option (Return T × System T) :=
  match s.waits.table.lookup id with
  | some ⟨call,token,_,_,some (.resume ())⟩ => some (start { s with waits := s.waits.leave id } call token expires)
  | some ⟨_,_,_,_,some (.throw exception)⟩ => some (.threw exception,{ s with waits := s.waits.leave id })
  | _ => none

end System

/-- What can happen next: a task makes a call, a token is cancelled, or a resolved call runs again. -/
inductive Move (T : Type)
  | call (call : Call T) (token : Option ℕ) (expires : Bool)
  | trySend (value : T)
  | tryReceive | close
  | cancel (token : ℕ)
  | proceed (id : ℕ) (expires : Bool)
  deriving DecidableEq

def step (s : System T) : Move T → Option (System T)
  | .call call token expires => some (s.start call token expires).2
  | .trySend value => some (s.trySend value).2
  | .tryReceive => some s.tryReceive.2
  | .close => some s.close
  | .cancel token => some { s with waits := s.waits.cancel token .cancelled }
  | .proceed id expires => (s.proceed id expires).map Prod.snd

def System.new (capacity : Option ℕ) (positive : capacity ≠ some 0) : System T :=
  ⟨⟨capacity,positive,[],false,[],[]⟩,.new⟩

end Whim.Channel
