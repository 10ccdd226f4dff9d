import Whim.DictObject
import Whim.VecObject

/-!
# Values

A payload with an optional newtype tag. Strings and arrays are given by their contents, other boxes by their address.
-/

namespace Whim

/-- A binary64 number by its bit pattern. -/
structure F64 where
  bits : UInt64
  deriving DecidableEq, Repr

namespace F64

def isNaN (x : F64) : Bool := (x.bits &&& 0x7fffffffffffffff) > 0x7ff0000000000000

def isZero (x : F64) : Bool := (x.bits &&& 0x7fffffffffffffff) == 0

/-- IEEE equality: `NaN` equals nothing and the two zeros are equal. -/
def eq (x y : F64) : Bool := !x.isNaN && !y.isNaN && (x.bits == y.bits || x.isZero && y.isZero)

end F64

/-- The payload of a value whose nested values are of type `V`. -/
inductive ValueView (V : Type)
  | uninitialized | null
  | bool (value : Bool)
  | int (value : Int64)
  | uint (value : UInt64)
  | float (value : F64)
  | string (value : ByteString)
  | shortString (value : ShortString)
  | vec (value : VecObject V)
  | dict (value : DictObject V)
  | tuple (elements : List V)
  | function (address : UInt64)
  | object (address : UInt64)
  | iter (address : UInt64)
  | fresh (value : UInt64)

inductive Value
  | mk (view : ValueView Value) (tag : Option NewtypeValueId)

namespace Value

/-- The payload with the newtype tag ignored. -/
def transparent : Value → ValueView Value
  | .mk view _ => view

def newtypeId : Value → Option NewtypeValueId
  | .mk _ tag => tag

def int (value : Int64) : Value := .mk (.int value) none
def uint (value : UInt64) : Value := .mk (.uint value) none
def float (value : F64) : Value := .mk (.float value) none
def bool (value : Bool) : Value := .mk (.bool value) none
def null : Value := .mk .null none

@[simp] theorem transparent_mk (view : ValueView Value) (tag : Option NewtypeValueId) :
    (Value.mk view tag).transparent = view := rfl

@[simp] theorem newtypeId_mk (view : ValueView Value) (tag : Option NewtypeValueId) :
    (Value.mk view tag).newtypeId = tag := rfl

/-- One write through `as_int_mut`: integers change, other values have no such reference. -/
def writeInt (write : Int64 → Int64) (v : Value) : Value :=
  match v.transparent with
  | .int value => .mk (.int (write value)) v.newtypeId
  | _ => v

def asInt (v : Value) : Option Int64 :=
  match v.transparent with
  | .int value => some value
  | _ => none

end Value

namespace ValueView

variable {V : Type}

def asStringBytes : ValueView V → Option (List UInt8)
  | .string value => some value.bytes
  | .shortString value => some value.asBytes
  | _ => none

def isString (view : ValueView V) : Bool := view.asStringBytes.isSome

end ValueView

namespace DictObject

/-- The integer reference handed out by `get_int_mut_string` and `get_int_mut_short_string`, and one
write through it. Neither leaves a note in the type-check cache. -/
def writeIntFound (d : DictObject Value) (write : Int64 → Int64) :
    Option IndexEntry → Checked (Option Int64 × DictObject Value)
  | none => .ok (none,d)
  | some entry =>
    match slotAt d.entries entry with
    | .occupied key value =>
      .ok (value.asInt,
        { d with entries := d.entries.set entry.slot.toNat (.occupied key (value.writeInt write)) })
    | .vacant => .error .vacantSlot

def getIntMutString (hs : HashState) (d : DictObject Value) (key : ByteString) (write : Int64 → Int64) :
    Checked (Option Int64 × DictObject Value) :=
  match d.packed with
  | some _ => .ok (none,d)
  | none => d.writeIntFound write (d.findSlot (key.hash64 hs) (·.matchesString key))

def getIntMutShortString (hs : HashState) (d : DictObject Value) (key : ShortString)
    (write : Int64 → Int64) : Checked (Option Int64 × DictObject Value) :=
  match d.packed with
  | some _ => .ok (none,d)
  | none => d.writeIntFound write (d.findSlot (key.hash64 hs) (·.matchesShortString key))

end DictObject
end Whim
