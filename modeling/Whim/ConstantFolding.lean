import Whim.Operations

/-!
# Constant folding

The optimizer's own evaluation of instructions on operands of which it knows a constant, a length or an array literal.
-/

namespace Whim

inductive ConstantValue
  | null
  | bool (value : Bool)
  | int (value : Int64)
  | uint (value : UInt64)
  | float (value : F64)
  | string (value : Atom)
  deriving DecidableEq

namespace ConstantValue

/-- `ConstantValue::position`. -/
def position : ConstantValue → Option ℕ
  | .int value => if 0 ≤ value then some value.toUInt64.toNat else none
  | .uint value => some value.toNat
  | _ => none

end ConstantValue

inductive ConstantDictionaryKey
  | bool (value : Bool)
  | int (value : Int64)
  | uint (value : UInt64)
  | string (value : Atom)
  deriving DecidableEq

namespace ConstantDictionaryKey

def fromValue : ConstantValue → Option ConstantDictionaryKey
  | .bool value => some (.bool value)
  | .int value => some (.int value)
  | .uint value => some (.uint value)
  | .string value => some (.string value)
  | _ => none

end ConstantDictionaryKey

/-- What type flow knows about a register before an instruction. -/
structure Fact where
  /-- The mask leaves only strings. -/
  isString : Bool
  /-- `constant_value_fact`. -/
  value : Option ConstantValue
  /-- The length of a string known from its type, its literal or the parts it was joined from. -/
  textLength : Option UInt64
  /-- The array literal at the origin, with the constants known for its registers. -/
  literal : Option (ArrayKind × List (Option ConstantValue))

namespace ConstantFolding

open Arithmetic UInt64

variable (rt : Runtime)

def constantNumeric : ConstantValue → Option F64
  | .int value => some (rt.floats.ofInt value)
  | .uint value => some (rt.floats.ofUint value)
  | .float value => some value
  | _ => none

/-- The table of `constant_add`, `constant_subtract` and `constant_multiply`. -/
def constantTable (signed : Int64 → Int64 → Option Int64) (unsigned : UInt64 → UInt64 → Option UInt64)
    (float : F64 → F64 → F64) (left right : ConstantValue) : Option ConstantValue :=
  match left, right with
  | .uint a, .uint b => (unsigned a b).map .uint
  | .int a, .int b => (signed a b).map .int
  | .float a, .float b => some (.float (float a b))
  | a, .float b => (constantNumeric rt a).map fun a => .float (float a b)
  | .float a, b => (constantNumeric rt b).map fun b => .float (float a b)
  | _, _ => none

def constantAdd : ConstantValue → ConstantValue → Option ConstantValue :=
  constantTable rt checkedAdd checkedAdd rt.floats.add

def constantSubtract : ConstantValue → ConstantValue → Option ConstantValue :=
  constantTable rt checkedSub checkedSub rt.floats.subtract

def constantMultiply : ConstantValue → ConstantValue → Option ConstantValue :=
  constantTable rt checkedMul checkedMul rt.floats.multiply

def constantDivide (left right : ConstantValue) : Option ConstantValue := do
  let left ← constantNumeric rt left
  let right ← constantNumeric rt right
  if right.eq ⟨0⟩ then none else some (.float (rt.floats.divide left right))

def constantModulo (left right : ConstantValue) : Option ConstantValue :=
  match left, right with
  | .int a, .int b => if b ≠ 0 then some (.int ((checkedRem a b).getD 0)) else none
  | .uint a, .uint b => (checkedRem a b).map .uint
  | _, _ => none

/-- An exponent that fits `u32`. -/
def exponentOf (exponent : UInt64) : Option ℕ :=
  if exponent.toNat < 2 ^ 32 then some exponent.toNat else none

def constantPower (left right : ConstantValue) : Option ConstantValue :=
  match left, right with
  | .uint base, .uint exponent =>
    if base = 0 then some (.uint (if exponent = 0 then 1 else 0))
    else if base = 1 then some (.uint 1)
    else ((exponentOf exponent).bind fun n => checkedPow base n).map .uint
  | .int base, .int exponent =>
    if 0 ≤ exponent then
      if base = 0 then some (.int (if exponent = 0 then 1 else 0))
      else if base = 1 then some (.int 1)
      else if base = -1 then some (.int (if exponent.toUInt64.toNat % 2 = 0 then 1 else -1))
      else ((exponentOf exponent.toUInt64).bind fun n => checkedPow base n).map .int
    else if base = 0 then none
    else some (.float (rt.floats.power (rt.floats.ofInt base) (rt.floats.ofInt exponent)))
  | .float base, .float exponent => some (.float (rt.floats.power base exponent))
  | base, .float exponent => (constantNumeric rt base).map fun base => .float (rt.floats.power base exponent)
  | .float base, exponent => (constantNumeric rt exponent).map fun exponent => .float (rt.floats.power base exponent)
  | _, _ => none

def constantNegate : ConstantValue → Option ConstantValue
  | .int value => (checkedNeg value).map .int
  | .uint value => if value = 0 then some (.uint 0) else none
  | .float value => some (.float (rt.floats.negate value))
  | _ => none

def constantUnaryPlus : ConstantValue → Option ConstantValue
  | .int value => some (.int value)
  | .uint value => some (.uint value)
  | .float value => some (.float value)
  | _ => none

/-- Two unsigned operands go through `i64` and back. -/
def constantIntBinary (operation : Int64 → Int64 → Int64) (left right : ConstantValue) : Option ConstantValue :=
  match left, right with
  | .int a, .int b => some (.int (operation a b))
  | .uint a, .uint b => some (.uint (operation a.toInt64 b.toInt64).toUInt64)
  | _, _ => none

def constantBitwiseNot : ConstantValue → Option ConstantValue
  | .int value => some (.int (~~~value))
  | .uint value => some (.uint (~~~value))
  | _ => none

/-- A shift count as `u32`, at most 63. -/
def shiftCount : ConstantValue → Option UInt64
  | .int value => if 0 ≤ value ∧ value ≤ 63 then some value.toUInt64 else none
  | .uint value => if value ≤ 63 then some value else none
  | _ => none

def constantShift (left right : ConstantValue) (shiftLeft : Bool) : Option ConstantValue := do
  let count ← shiftCount right
  match left with
  | .int value =>
    some (.int (if shiftLeft then value <<< count.toInt64 else value >>> count.toInt64))
  | .uint value => some (.uint (if shiftLeft then value <<< count else value >>> count))
  | _ => none

def constantEquals : ConstantValue → ConstantValue → Bool
  | .null, .null => true
  | .bool a, .bool b => a == b
  | .int a, .int b => a == b
  | .uint a, .uint b => a == b
  | .float a, .float b => a.eq b
  | .string a, .string b => a.bytes == b.bytes
  | _, _ => false

/-- `constant_compare`: `some none` is `Unordered`. -/
def constantCompare (left right : ConstantValue) : Option (Option Ordering) :=
  match left, right with
  | .uint a, .uint b => some (some (Ord.compare a b))
  | .int a, .uint b => some (some (Ord.compare a.toInt (b.toNat : ℤ)))
  | .uint a, .int b => some (some (Ord.compare (a.toNat : ℤ) b.toInt))
  | .uint a, .float b => some (rt.compareUintFloat a b)
  | .float a, .uint b => some ((rt.compareUintFloat b a).map Ordering.swap)
  | .int a, .int b => some (some (Ord.compare a b))
  | .float a, .float b => some (rt.partialCmp a b)
  | .int a, .float b => some (rt.compareIntFloat a b)
  | .float a, .int b => some ((rt.compareIntFloat b a).map Ordering.swap)
  | .string a, .string b => some (some (Ord.compare a.bytes b.bytes))
  | _, _ => none

/-- The folded `<`, `<=`, `>` and `>=`. -/
def constantOrdered (accepts : Ordering → Bool) (left right : ConstantValue) : Option ConstantValue :=
  (constantCompare rt left right).map fun ordering => .bool (ordering.any accepts)

def constantSpaceship (left right : ConstantValue) : Option ConstantValue :=
  match constantCompare rt left right with
  | some (some ordering) => some (.int (Operations.spaceship ordering))
  | _ => none

def constantNot : ConstantValue → Option ConstantValue
  | .bool value => some (.bool (!value))
  | _ => none

/-- The text `append_constant_text` appends. -/
def constantText : ConstantValue → Option (List UInt8)
  | .string value => some value.bytes
  | .int value => some (rt.renderInt value).bytes
  | .uint value => some (rt.renderUint value).bytes
  | .float value => some (rt.renderFloat value).bytes
  | .null | .bool _ => none

def constantConcatenate (left right : ConstantValue) : Option ConstantValue := do
  let left ← constantText rt left
  let right ← constantText rt right
  (ByteString.fromBytes (left++right)).map .string

def constantFromLiteral : Literal → ConstantValue
  | .null => .null
  | .bool value => .bool value
  | .int value => .int value
  | .uint value => .uint value
  | .float value => .float value
  | .string value => .string value

def integerConstant (immediate : ImmediateInteger) : IntegerKind → ConstantValue
  | .i64 => .int (Operations.asInt immediate)
  | .u64 => .uint (Operations.asUint immediate)

def constantStep (source : ConstantValue) (step : Int64) : Option ConstantValue :=
  match source with
  | .uint value => (checkedAddSigned value step).map .uint
  | source => constantAdd rt source (.int step)

section

/-- The key and value registers of a dictionary literal. -/
def literalPairs : List (Option ConstantValue) → List (Option ConstantValue × Option ConstantValue)
  | key::value::parts => (key,value)::literalPairs parts
  | _ => []

/-- The keys of a dictionary literal, where all of them are constant. -/
def constantKeys : List (Option ConstantValue × Option ConstantValue) → Option (List ConstantDictionaryKey)
  | [] => some []
  | (key,_)::pairs => do return (← ConstantDictionaryKey.fromValue (← key))::(← constantKeys pairs)

/-- The set of keys counts a repeated key once. -/
def constantLengthFact (fact : Fact) : Option UInt64 :=
  match fact.textLength, fact.literal with
  | some length, _ => some length
  | none, some (.dict,parts) =>
    let pairs := literalPairs parts
    if pairs.length ≤ 1 then some (ofNat pairs.length)
    else (constantKeys pairs).map fun keys => ofNat keys.dedup.length
  | none, some (_,parts) => some (ofNat parts.length)
  | none, none => none

/-- The scan of `constant_index` over the pairs of a dictionary literal, last pair first: it gives up at a
key that is not constant. -/
def constantEntry (key : ConstantValue) : List (Option ConstantValue × Option ConstantValue) → Option ConstantValue
  | [] => none
  | (none,_)::_ => none
  | (some candidate,value)::pairs => if constantEquals candidate key then value else constantEntry key pairs

def constantIndex (container : Fact) (key : ConstantValue) : Option ConstantValue :=
  if container.isString then
    match container.value, key.position with
    | some (.string value), some position => (value.bytes[position]?).map fun byte => .string (ByteString.ofByte byte)
    | _, _ => none
  else
    match container.literal with
    | some (.dict,parts) => constantEntry key (literalPairs parts).reverse
    | some (_,parts) => key.position.bind fun position => (parts[position]?).join
    | none => none

end

def constantLiteral (chunk : Chunk) (constant : ConstantIndex) : Option ConstantValue :=
  (chunk.constants[constant.toNat]?).map constantFromLiteral

/-- The pooled string of a concatenation; other literals are not folded. -/
def constantString (chunk : Chunk) (constant : ConstantIndex) : Option ConstantValue :=
  match chunk.constants[constant.toNat]? with
  | some (.string value) => some (.string value)
  | _ => none

/-- `constant_result_uncached`: the destination and the constant an instruction leaves there. -/
def constantResult (chunk : Chunk) (facts : Register → Fact) : Instruction → Option (Register × ConstantValue)
  | .move destination source => do return (destination,← (facts source).value)
  | .moveOwned destination source => do return (destination,← (facts source).value)
  | .loadConstant destination constant => do return (destination,← constantLiteral chunk constant)
  | .loadNull destination => some (destination,.null)
  | .loadTrue destination => some (destination,.bool true)
  | .loadFalse destination => some (destination,.bool false)
  | .loadInteger destination immediate kind => some (destination,integerConstant immediate kind)
  | .add destination left right _ => do
    return (destination,← constantAdd rt (← (facts left).value) (← (facts right).value))
  | .floatAdd destination left right => do
    return (destination,← constantAdd rt (← (facts left).value) (← (facts right).value))
  | .subtract destination left right _ => do
    return (destination,← constantSubtract rt (← (facts left).value) (← (facts right).value))
  | .floatSubtract destination left right => do
    return (destination,← constantSubtract rt (← (facts left).value) (← (facts right).value))
  | .multiply destination left right _ => do
    return (destination,← constantMultiply rt (← (facts left).value) (← (facts right).value))
  | .floatMultiply destination left right => do
    return (destination,← constantMultiply rt (← (facts left).value) (← (facts right).value))
  | .floatMultiplyConstant destination source constant => do
    return (destination,← constantMultiply rt (← (facts source).value) (← constantLiteral chunk constant))
  | .divide destination left right => do
    return (destination,← constantDivide rt (← (facts left).value) (← (facts right).value))
  | .modulo destination left right _ => do
    return (destination,← constantModulo (← (facts left).value) (← (facts right).value))
  | .power destination left right => do
    return (destination,← constantPower rt (← (facts left).value) (← (facts right).value))
  | .negate destination source => do return (destination,← constantNegate rt (← (facts source).value))
  | .unaryPlus destination source => do return (destination,← constantUnaryPlus (← (facts source).value))
  | .step destination source immediate _ => do
    return (destination,← constantStep rt (← (facts source).value) immediate.toInt64)
  | .addImmediate destination source immediate kind => do
    return (destination,← constantAdd rt (← (facts source).value) (integerConstant immediate (kind.getD .i64)))
  | .subtractImmediate destination source immediate kind => do
    return (destination,← constantSubtract rt (← (facts source).value) (integerConstant immediate (kind.getD .i64)))
  | .integerMultiplyImmediate destination source immediate kind => do
    return (destination,← constantMultiply rt (← (facts source).value) (integerConstant immediate kind))
  | .integerModuloImmediate destination source immediate kind => do
    return (destination,← constantModulo (← (facts source).value) (integerConstant immediate kind))
  | .concatenate destination left right => do
    return (destination,← constantConcatenate rt (← (facts left).value) (← (facts right).value))
  | .concatenateRightConstant destination source constant => do
    return (destination,← constantConcatenate rt (← (facts source).value) (← constantString chunk constant))
  | .concatenateLeftConstant destination source constant => do
    return (destination,← constantConcatenate rt (← constantString chunk constant) (← (facts source).value))
  | .bitwiseAnd destination left right _ => do
    return (destination,← constantIntBinary (· &&& ·) (← (facts left).value) (← (facts right).value))
  | .bitwiseOr destination left right _ => do
    return (destination,← constantIntBinary (· ||| ·) (← (facts left).value) (← (facts right).value))
  | .bitwiseXor destination left right _ => do
    return (destination,← constantIntBinary (· ^^^ ·) (← (facts left).value) (← (facts right).value))
  | .bitwiseNot destination source _ => do return (destination,← constantBitwiseNot (← (facts source).value))
  | .shiftLeft destination left right _ => do
    return (destination,← constantShift (← (facts left).value) (← (facts right).value) true)
  | .shiftRight destination left right _ => do
    return (destination,← constantShift (← (facts left).value) (← (facts right).value) false)
  | .equal destination left right => do
    return (destination,.bool (constantEquals (← (facts left).value) (← (facts right).value)))
  | .notEqual destination left right => do
    return (destination,.bool (!constantEquals (← (facts left).value) (← (facts right).value)))
  | .lessThan destination left right => do
    return (destination,← constantOrdered rt (· == .lt) (← (facts left).value) (← (facts right).value))
  | .lessThanOrEqual destination left right => do
    return (destination,← constantOrdered rt (· != .gt) (← (facts left).value) (← (facts right).value))
  | .greaterThan destination left right => do
    return (destination,← constantOrdered rt (· == .gt) (← (facts left).value) (← (facts right).value))
  | .greaterThanOrEqual destination left right => do
    return (destination,← constantOrdered rt (· != .lt) (← (facts left).value) (← (facts right).value))
  | .compare destination left right => do
    return (destination,← constantSpaceship rt (← (facts left).value) (← (facts right).value))
  | .not destination source => do return (destination,← constantNot (← (facts source).value))
  | .length destination source => do return (destination,.uint (← constantLengthFact (facts source)))
  | .stringLength destination source => do return (destination,.uint (← constantLengthFact (facts source)))
  | .indexGet destination container index => do
    return (destination,← constantIndex (facts container) (← (facts index).value))
  | .vecIndexGet destination container index _ => do
    return (destination,← constantIndex (facts container) (← (facts index).value))
  | .stringIndexGet destination container index => do
    return (destination,← constantIndex (facts container) (← (facts index).value))
  | .elementGet destination subject index => do
    return (destination,← constantIndex (facts subject) (.int index.toInt64))
  | _ => none

end ConstantFolding
end Whim
