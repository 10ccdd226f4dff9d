import Whim.Throwing

/-!
# Heaps ordered by a comparator that may throw

One heap compares its values, the other separate priorities. Every operation first asks the comparator for the path
of a value and only then moves values along it.
-/

namespace Whim
namespace DataStructure

inductive Error (ε : Type)
  | logic (message : String)
  | outOfBounds
  | thrown (error : ε)
  deriving DecidableEq

/-- The stored values, the guard against re-entrance, and whatever the comparator itself depends on. -/
structure Store (α σ : Type) where
  values : List α
  comparing : Bool
  comparator : σ
  deriving DecidableEq

abbrev Run (α σ ε : Type) : Type → Type := EStateM (Error ε) (Store α σ)

/-- What the two classes differ in: what they compare of a value, and what they say to a comparator that re-enters. -/
structure Kind (α κ : Type) where
  priority : α → κ
  cannotReenter : String
  cannotMutate : String

variable {α κ σ ε : Type} (kind : Kind α κ) (comparator : κ → κ → EStateM ε σ Ordering)

/-- The comparator runs; afterwards, whether it returned or threw, the guard is taken back. -/
def callComparator (left right : κ) : Run α σ ε Ordering := fun s =>
  match comparator left right s.comparator with
  | .ok ordering state => .ok ordering { s with comparing := false, comparator := state }
  | .error error state => .error (.thrown error) { s with comparing := false, comparator := state }

def compare (left right : κ) : Run α σ ε Ordering := do
  if (← get).comparing then throw (.logic kind.cannotReenter)
  else
    modify fun s => { s with comparing := true }
    callComparator comparator left right

def assertMutable : Run α σ ε Unit := do
  if (← get).comparing then throw (.logic kind.cannotMutate) else pure ()

def present : Option α → Run α σ ε α
  | some value => pure value
  | none => throw .outOfBounds

def read (index : ℕ) : Run α σ ε α := do present (← get).values[index]?

def write (index : ℕ) (value : α) : Run α σ ε Unit := do
  if index < (← get).values.length then modify fun s => { s with values := s.values.set index value }
  else throw .outOfBounds

/-! ## Paths -/

/-- The parent path a new value must cross. -/
def upwardPath (priority : κ) (index : ℕ) : Run α σ ε (List ℕ) :=
  if _h : index = 0 then pure []
  else do
    let parent := (index-1) / 2
    let other ← read parent
    let ordering ← compare kind comparator priority (kind.priority other)
    if ordering ≠ .lt then pure []
    else do
      let path ← upwardPath priority parent
      pure (parent::path)
termination_by index
decreasing_by omega

/-- Whether the right child exists and comes before the left one. -/
def rightFirst (left limit : ℕ) : Run α σ ε Bool :=
  if left+1 < limit then do
    let rightValue ← read (left+1)
    let leftValue ← read left
    let ordering ← compare kind comparator (kind.priority rightValue) (kind.priority leftValue)
    pure (ordering = .lt)
  else pure false

/-- The child path a replacement value must cross. -/
def downwardPath (priority : κ) (limit index : ℕ) : Run α σ ε (List ℕ) :=
  if _h : limit ≤ index*2+1 then pure []
  else do
    let isRight ← rightFirst kind comparator (index*2+1) limit
    let first := index*2+1+isRight.toNat
    let child ← read first
    let ordering ← compare kind comparator (kind.priority child) priority
    if ordering ≠ .lt then pure []
    else do
      let path ← downwardPath priority limit first
      pure (first::path)
termination_by limit-index
decreasing_by omega

/-- The values on the path move to the position before them; the value itself goes to the end of the path. -/
def follow (value : α) : ℕ → List ℕ → Run α σ ε Unit
  | current, [] => write current value
  | current, next::path => do
    let moved ← read next
    write current moved
    follow value next path

/-! ## Operations -/

/-- The value at a position sinks to its place. -/
def settle (count index : ℕ) : Run α σ ε Unit := do
  let value ← read index
  let path ← downwardPath kind comparator (kind.priority value) count index
  follow value index path

def heapifyFrom (count : ℕ) : ℕ → Run α σ ε Unit
  | 0 => settle kind comparator count 0
  | index+1 => do
    settle kind comparator count (index+1)
    heapifyFrom count index

def heapify : Run α σ ε Unit := do
  let count := (← get).values.length
  if count < 2 then pure () else heapifyFrom kind comparator count ((count-2) / 2)

def construct (values : List α) : Run α σ ε Unit := do
  modify fun s => { s with values := s.values++values }
  heapify kind comparator

def push (value : α) : Run α σ ε Unit := do
  assertMutable kind
  let index := (← get).values.length
  let path ← upwardPath kind comparator (kind.priority value) index
  modify fun s => { s with values := s.values++[value] }
  follow value index path

/-- The first value of a heap that is known not to be empty. -/
def removeRoot : Run α σ ε α := do
  let count := (← get).values.length
  let root ← read 0
  if count = 1 then do
    modify fun s => { s with values := [] }
    pure root
  else do
    let value ← read (count-1)
    let path ← downwardPath kind comparator (kind.priority value) (count-1) 0
    modify fun s => { s with values := s.values.dropLast }
    follow value 0 path
    pure root

def pop : Run α σ ε (Option α) := do
  assertMutable kind
  if (← get).values.length = 0 then pure none
  else do
    let root ← removeRoot kind comparator
    pure (some root)

def peek : Run α σ ε (Option α) := do
  if (← get).values.length = 0 then pure none
  else do
    let root ← read 0
    pure (some root)

def clear : Run α σ ε Unit := do
  assertMutable kind
  modify fun s => { s with values := [] }

/-- Removal until nothing is left, for at most `count` values. -/
def drain : ℕ → Run α σ ε (List α)
  | 0 => pure []
  | count+1 => do
    if (← get).values.length = 0 then pure []
    else do
      let root ← removeRoot kind comparator
      let rest ← drain count
      pure (root::rest)

/-- The values in removal order, taken from a copy. The comparator is the same, so what it depends on stays changed. -/
def toVec : Run α σ ε (List α) := fun s =>
  match drain kind comparator s.values.length s with
  | .ok values copy => .ok values { s with comparator := copy.comparator }
  | .error error copy => .error error { s with comparator := copy.comparator }

inductive Operation (α : Type)
  | push (value : α)
  | pop | peek | clear | toVec

inductive Answer (α : Type)
  | done
  | value (value : Option α)
  | values (values : List α)
  deriving DecidableEq

end DataStructure

namespace BinaryHeap

open DataStructure

variable {T σ ε : Type} (comparator : T → T → EStateM ε σ Ordering)

def kind (T : Type) : Kind T T :=
  ⟨id,"a binary heap comparator cannot re-enter comparison","a binary heap comparator cannot mutate its heap"⟩

def construct (values : List T) : Run T σ ε Unit := DataStructure.construct (kind T) comparator values

def push (value : T) : Run T σ ε Unit := DataStructure.push (kind T) comparator value

def pop : Run T σ ε (Option T) := DataStructure.pop (kind T) comparator

def peek : Run T σ ε (Option T) := DataStructure.peek

def clear : Run T σ ε Unit := DataStructure.clear (kind T)

def toVec : Run T σ ε (List T) := DataStructure.toVec (kind T) comparator

def perform : Operation T → Run T σ ε (Answer T)
  | .push value => do
    push comparator value
    pure .done
  | .pop => do
    let value ← pop comparator
    pure (.value value)
  | .peek => do
    let value ← peek
    pure (.value value)
  | .clear => do
    clear
    pure .done
  | .toVec => do
    let values ← toVec comparator
    pure (.values values)

end BinaryHeap

namespace PriorityQueue

open DataStructure

variable {T P σ ε : Type} (comparator : P → P → EStateM ε σ Ordering)

def kind (T P : Type) : Kind (T × P) P :=
  ⟨Prod.snd,"a priority queue comparator cannot re-enter comparison",
    "a priority queue comparator cannot mutate its queue"⟩

def construct (entries : List (T × P)) : Run (T × P) σ ε Unit := DataStructure.construct (kind T P) comparator entries

def enqueue (value : T) (priority : P) : Run (T × P) σ ε Unit :=
  DataStructure.push (kind T P) comparator (value,priority)

def dequeue : Run (T × P) σ ε (Option (T × P)) := DataStructure.pop (kind T P) comparator

def peek : Run (T × P) σ ε (Option (T × P)) := DataStructure.peek

def clear : Run (T × P) σ ε Unit := DataStructure.clear (kind T P)

def toVec : Run (T × P) σ ε (List (T × P)) := DataStructure.toVec (kind T P) comparator

def perform : Operation (T × P) → Run (T × P) σ ε (Answer (T × P))
  | .push (value,priority) => do
    enqueue comparator value priority
    pure .done
  | .pop => do
    let entry ← dequeue comparator
    pure (.value entry)
  | .peek => do
    let entry ← peek
    pure (.value entry)
  | .clear => do
    clear
    pure .done
  | .toVec => do
    let entries ← toVec comparator
    pure (.values entries)

end PriorityQueue
end Whim
