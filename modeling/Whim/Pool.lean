import Whim.Waiting

/-!
# Connection pools

A counter of the connections that are open or being opened, the idle ones, and the calls that wait for one. What a
connector, a ping or a clock answers is part of the move that asks.
-/

namespace Whim.Pool

open Waiting

inductive Exception
  | closed | cancelled | timedOut | failed
  deriving DecidableEq

/-- What becomes of a call of `acquire`: an entry, an exception, or it goes on inside `connect`, `ping` or a wait. -/
inductive Return
  | entry (entry : ℕ)
  | threw (exception : Exception)
  | connecting | pinging | suspended
  deriving DecidableEq

structure Configuration where
  maximumConnections : ℕ
  maximumIdleConnections : ℕ
  acquisitionTimeout : Bool
  positive : 0 < maximumConnections
  within : maximumIdleConnections ≤ maximumConnections

/-- What an entry and its connection answer when they are looked at. -/
structure Condition where
  isClosed : Bool
  isReusable : Bool
  idleTooLong : Bool
  exceededLifetime : Bool
  needsValidation : Bool

def Condition.isExpired (c : Condition) : Bool := c.idleTooLong || c.exceededLifetime

/-- How a ping ends. -/
inductive Ping
  | passed | connectionException | threw
  deriving DecidableEq

/-- What runs out just when the callback of a waiting call is registered. -/
inductive Expiry
  | nothing | token | timeout
  deriving DecidableEq

/-- The idle entry that was put back last comes first. -/
structure State where
  configuration : Configuration
  closed : Bool
  openConnections : ℕ
  idle : List ℕ
  pending : List ℕ

/-- A pool, everything that waits, the calls inside `connect` and `ping`, and the entries in the hands of callers.
Entries are named after their connections, which are numbered in the order in which the connector made them. -/
structure System where
  state : State
  waits : Waits Unit (Option ℕ) Exception
  opening : ℕ
  validating : List (ℕ × Option ℕ)
  held : List ℕ
  connections : ℕ

inductive Found
  | entry (entry : ℕ)
  | validate (entry : ℕ)
  | nothing

namespace System

def new (configuration : Configuration) : System := ⟨⟨configuration,false,0,[],[]⟩,.new,0,[],[],0⟩

section

variable (s : System)

def wakeForCapacity : System :=
  if s.state.closed then s
  else
    let (waits,pending) := s.waits.wakeFirst (.resume none) s.state.pending
    { s with state := { s.state with pending }, waits }

/-- Closing the connection of an entry does not touch the pool. -/
def discard : System :=
  wakeForCapacity { s with state := { s.state with openConnections := s.state.openConnections-1 } }

def release (entry : ℕ) (reusable : Bool) (condition : Condition) : System :=
  if s.state.closed || !reusable || condition.isClosed || !condition.isReusable || condition.exceededLifetime then
    s.discard
  else
    let (waits,pending) := s.waits.wakeFirst (.resume (some entry)) s.state.pending
    let s' := { s with state := { s.state with pending }, waits }
    if (s.state.pending.find? s.waits.isActive).isSome then s'
    else if s.state.configuration.maximumIdleConnections = 0
        || s.state.configuration.maximumIdleConnections ≤ s.state.idle.length then s'.discard
    else { s' with state := { s'.state with idle := entry::s.state.idle } }

def hold (entry : ℕ) : Return × System := (.entry entry,{ s with held := entry::s.held })

/-- `open` up to its call of `connect`. -/
def openNew : Return × System :=
  (.connecting,
    { s with
      state := { s.state with openConnections := s.state.openConnections+1 }
      opening := s.opening+1 })

/-- The callback is registered with the token of the caller and, where there is one, a timeout of its own. -/
def wait (token : Option ℕ) (expiry : Expiry) : Return × System :=
  let state := { s.state with pending := s.state.pending++[s.waits.next] }
  if expiry = .timeout && s.state.configuration.acquisitionTimeout && !s.waits.isCancelled token then
    (.threw .timedOut,{ s with state, waits := s.waits.refuse () token .timedOut })
  else
    let (suspended,waits) := s.waits.enter () token (expiry = .token) .cancelled
    (if suspended then .suspended else .threw .cancelled,{ s with state, waits })

end

/-- The loop over the idle entries up to the first that can be used. -/
def takeIdle (conditions : ℕ → Condition) : List ℕ → System → Found × System
  | [], s => (.nothing,{ s with state := { s.state with idle := [] } })
  | entry::idle, s =>
    let s' := { s with state := { s.state with idle } }
    if (conditions entry).isClosed || !(conditions entry).isReusable || (conditions entry).isExpired then
      takeIdle conditions idle s'.discard
    else if (conditions entry).needsValidation then (.validate entry,s')
    else (.entry entry,s')

section

variable (s : System)

/-- One turn of the loop in `acquire`, from `takeIdle` on. -/
def attempt (token : Option ℕ) (conditions : ℕ → Condition) (expiry : Expiry) : Return × System :=
  match takeIdle conditions s.state.idle s with
  | (.entry entry,s) => s.hold entry
  | (.validate entry,s) => (.pinging,{ s with validating := s.validating++[(entry,token)] })
  | (.nothing,s) =>
    if s.state.openConnections < s.state.configuration.maximumConnections then s.openNew else s.wait token expiry

def acquire (token : Option ℕ) (conditions : ℕ → Condition) (expiry : Expiry) : Return × System :=
  if s.state.closed then (.threw .closed,s)
  else if s.waits.isCancelled token then (.threw .cancelled,s)
  else s.attempt token conditions expiry

/-- A call of `connect` ends. -/
def connected (success : Bool) : Option (Return × System) :=
  if s.opening = 0 then none
  else
    let s := { s with opening := s.opening-1 }
    let fewer := { s with state := { s.state with openConnections := s.state.openConnections-1 } }
    if !success then some (.threw .failed,fewer.wakeForCapacity)
    else if s.state.closed then some (.threw .closed,{ fewer with connections := s.connections+1 })
    else some (hold { s with connections := s.connections+1 } s.connections)

/-- A call of `ping` ends. -/
def pinged (index : ℕ) (ping : Ping) (conditions : ℕ → Condition) (expiry : Expiry) : Option (Return × System) :=
  match s.validating[index]? with
  | none => none
  | some (entry,token) =>
    let s := { s with validating := s.validating.eraseIdx index }
    match ping with
    | .passed => some (s.hold entry)
    | .connectionException => some (s.discard.attempt token conditions expiry)
    | .threw => some (.threw .failed,s.release entry true (conditions entry))

/-- A call whose suspension has been resolved goes on. -/
def proceed (id : ℕ) (conditions : ℕ → Condition) (expiry : Expiry) : Option (Return × System) :=
  match s.waits.table.lookup id with
  | some ⟨_,_,_,_,some (.resume (some entry))⟩ => some (hold { s with waits := s.waits.leave id } entry)
  | some ⟨_,token,_,_,some (.resume none)⟩ => some
      (acquire { s with waits := s.waits.leave id } token conditions expiry)
  | some ⟨_,_,_,_,some (.throw exception)⟩ => some (.threw exception,{ s with waits := s.waits.leave id })
  | _ => none

def close : System :=
  if s.state.closed then s
  else
    { s with
      state :=
        { s.state with
          closed := true
          openConnections := s.state.openConnections-s.state.idle.length
          idle := []
          pending := [] }
      waits := s.waits.wakeAll (.throw .closed) s.state.pending }

/-- The timeout of a waiting call runs out. -/
def timeout (id : ℕ) : Option System :=
  if s.state.configuration.acquisitionTimeout && (s.waits.table.lookup id).isSome then
    some (if s.waits.isActive id then { s with waits := s.waits.resolve id (.throw .timedOut) } else s)
  else none

end
end System

/-- What can happen next: a task acquires or releases, a call of `connect` or `ping` ends, a token is cancelled or a
timeout runs out, the pool is closed, or a resolved call goes on. -/
inductive Move
  | acquire (token : Option ℕ) (conditions : ℕ → Condition) (expiry : Expiry)
  | release (entry : ℕ) (reusable : Bool) (condition : Condition)
  | connected (success : Bool)
  | pinged (index : ℕ) (ping : Ping) (conditions : ℕ → Condition) (expiry : Expiry)
  | proceed (id : ℕ) (conditions : ℕ → Condition) (expiry : Expiry)
  | cancel (token : ℕ)
  | timeout (id : ℕ)
  | close

/-- A caller releases only what it holds. -/
def step (s : System) : Move → Option System
  | .acquire token conditions expiry => some (s.acquire token conditions expiry).2
  | .release entry reusable condition =>
    if entry ∈ s.held then
      some (System.release { s with held := s.held.erase entry } entry reusable condition)
    else none
  | .connected success => (s.connected success).map Prod.snd
  | .pinged index ping conditions expiry => (s.pinged index ping conditions expiry).map Prod.snd
  | .proceed id conditions expiry => (s.proceed id conditions expiry).map Prod.snd
  | .cancel token => some { s with waits := s.waits.cancel token .cancelled }
  | .timeout id => s.timeout id
  | .close => some s.close

end Whim.Pool
