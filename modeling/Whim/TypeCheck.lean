import Whim.TypeDescriptor

/-!
# What a type check reads of a value

The views of a value below its newtype. The class tables and the slots of objects are parameters.
-/

namespace Whim

open OrderedMap

namespace Value

def isNull (v : Value) : Bool := match v.transparent with | .null => true | _ => false
def isFresh (v : Value) : Bool := match v.transparent with | .fresh _ => true | _ => false
def isFunction (v : Value) : Bool := match v.transparent with | .function _ => true | _ => false
def isUninitialized (v : Value) : Bool := match v.transparent with | .uninitialized => true | _ => false

def asBool (v : Value) : Option Bool := match v.transparent with | .bool value => some value | _ => none
def asUint (v : Value) : Option UInt64 := match v.transparent with | .uint value => some value | _ => none
def asFloat (v : Value) : Option F64 := match v.transparent with | .float value => some value | _ => none
def asObject (v : Value) : Option UInt64 := match v.transparent with | .object address => some address | _ => none

def asVec (v : Value) : Option (List Value) := match v.transparent with | .vec xs => some xs.elements | _ => none

def asDict (v : Value) : Option (List (Key × Value)) :=
  match v.transparent with | .dict d => some d.iter | _ => none

def asTuple (v : Value) : Option (List Value) := match v.transparent with | .tuple xs => some xs | _ => none

def asStringBytes (v : Value) : Option (List UInt8) := v.transparent.asStringBytes
def asStringLen (v : Value) : Option ℕ := v.asStringBytes.map List.length

end Value

def Key.toValue : Key → Value
  | .int value => .mk (.int value) none
  | .uint value => .mk (.uint value) none
  | .fresh value => .mk (.fresh value) none
  | .bool value => .mk (.bool value) none
  | .string value => .mk (.string value) none
  | .shortString value => .mk (.shortString value) none
  | .newtypeInt value tag => .mk (.int value) (some tag)
  | .newtypeUint value tag => .mk (.uint value) (some tag)
  | .newtypeFresh value tag => .mk (.fresh value) (some tag)
  | .newtypeBool value tag => .mk (.bool value) (some tag)
  | .newtypeString value tag => .mk (.string value) (some tag)
  | .newtypeShortString value tag => .mk (.shortString value) (some tag)

def ShapeKey.toKey : ShapeKey → Key
  | .bool value => .bool value
  | .int value => .int value
  | .uint value => .uint value
  | .string value => .string value

/-- The slots of an object with their visibility, and the slots of its class by name. -/
structure ObjectSlots where
  slots : List (Bool × Value)
  slotNames : Atom → Option ℕ

/-- What the runtime tables answer: the slots of an object, and every check that resolves a name. -/
structure Tables where
  objects : UInt64 → ObjectSlots
  checkNominal : TypeDescriptor → Value → ℕ → Bool

/-- The public slot of this name, if the class has one. -/
def ObjectSlots.publicSlot (o : ObjectSlots) (name : Atom) : Option Value :=
  ((o.slotNames name).bind (o.slots[·]?)).bind fun slot => if slot.1 then some slot.2 else none

def ObjectSlots.publicCount (o : ObjectSlots) : ℕ := o.slots.countP (·.1)

/-- `MAX_TYPE_DEPTH`. -/
def maxTypeDepth : ℕ := 64

namespace TypeCheck

/-- `string_length_matches`: longer strings than `i64::MAX` match nothing. -/
def stringLengthMatches (length : ℕ) (min : Int64) (max : Option Int64) : Bool :=
  length < 2 ^ 63 && decide (min.toInt ≤ length) && max.all fun max => decide ((length : ℤ) ≤ max.toInt)

def inRange {α : Type} [LE α] [DecidableLE α] (value : α) (min max : Option α) : Bool :=
  (min.all fun min => decide (min ≤ value)) && max.all fun max => decide (value ≤ max)

end TypeCheck
end Whim
