import Whim.Arithmetic
import Whim.Equality
import Whim.Verify

/-!
# Instructions over values

The instructions that compute one register from others. The typed forms read registers unchecked, so a register of
another kind makes the step undefined.
-/

namespace Whim

open UInt64

/-- What the instructions take from outside the program: hashing and the growth of hash tables, floats,
the rendering of numbers, and whether the buffer of a string register may grow in place. Deep equality
runs for `fuel` steps. -/
structure Runtime where
  hashState : HashState
  growth : HashTable.Growth IndexEntry
  floats : FloatOps
  partialCmp : F64 → F64 → Option Ordering
  compareIntFloat : Int64 → F64 → Option Ordering
  compareUintFloat : UInt64 → F64 → Option Ordering
  renderInt : Int64 → ByteString
  renderUint : UInt64 → ByteString
  renderFloat : F64 → ByteString
  debugRender : Value → String
  appendsInPlace : Register → Bool
  fuel : ℕ

instance : Inhabited Runtime where
  default := {
    hashState := HashState.new fun _ => 0
    growth := .exact IndexEntry
    floats := default
    partialCmp := fun _ _ => none
    compareIntFloat := fun _ _ => none
    compareUintFloat := fun _ _ => none
    renderInt := fun _ => ⟨[],Nat.two_pow_pos 64⟩
    renderUint := fun _ => ⟨[],Nat.two_pow_pos 64⟩
    renderFloat := fun _ => ⟨[],Nat.two_pow_pos 64⟩
    debugRender := fun _ => ""
    appendsInPlace := fun _ => false
    fuel := 0 }

inductive FaultKind
  | typeError | outOfBounds
  deriving DecidableEq

structure ArrayFault where
  kind : FaultKind
  message : String

/-- Why an instruction wrote no register. -/
inductive Stop
  | binary (fault : Fault) (operator left right : String)
  | unary (fault : Fault) (operator operand : String)
  | array (fault : ArrayFault)
  | typeError (message : String)
  /-- A dictionary ran out of slot numbers. -/
  | violation (violation : Violation)
  /-- No string of that many bytes can be allocated. -/
  | memory
  /-- An operand is not what the unchecked form relies on. -/
  | undefined
  /-- Deep equality is still running. -/
  | running

abbrev Outcome := Except Stop

namespace Value

def string (value : ByteString) : Value := .mk (.string value) none
def shortString (value : ShortString) : Value := .mk (.shortString value) none
def vec (value : VecObject Value) : Value := .mk (.vec value) none
def dict (value : DictObject Value) : Value := .mk (.dict value) none
def tuple (elements : List Value) : Value := .mk (.tuple elements) none

def kindName (v : Value) : String :=
  if v.newtypeId.isSome then "newtype"
  else match v.transparent with
    | .uninitialized => "uninitialized"
    | .null => "null"
    | .bool _ => "bool"
    | .int _ => "int"
    | .uint _ => "uint"
    | .fresh _ => "fresh"
    | .float _ => "float"
    | .string _ | .shortString _ => "string"
    | .vec _ => "vec"
    | .dict _ => "dict"
    | .tuple _ => "tuple"
    | .function _ => "function"
    | .object _ => "object"
    | .iter _ => "iterator"

/-- `with_newtype`. -/
def withNewtype (v : Value) (tag : Option NewtypeValueId) : Value := .mk v.transparent tag

end Value

/-- A heap string of these bytes, where their number is a `usize`. -/
def ByteString.fromBytes (bytes : List UInt8) : Option ByteString :=
  if h : bytes.length < 2 ^ 64 then some ⟨bytes,h⟩ else none

def ByteString.ofByte (byte : UInt8) : ByteString := ⟨[byte],by simp⟩

def literalValue : Literal → Value
  | .null => .null
  | .bool value => .bool value
  | .int value => .int value
  | .uint value => .uint value
  | .float value => .float value
  | .string value => .string value

def Key.fromValue (v : Value) : Option Key :=
  match v.newtypeId, v.transparent with
  | none, .int value => some (.int value)
  | none, .uint value => some (.uint value)
  | none, .fresh value => some (.fresh value)
  | none, .bool value => some (.bool value)
  | none, .string value => some (.string value)
  | none, .shortString value => some (.shortString value)
  | some tag, .int value => some (.newtypeInt value tag)
  | some tag, .uint value => some (.newtypeUint value tag)
  | some tag, .fresh value => some (.newtypeFresh value tag)
  | some tag, .bool value => some (.newtypeBool value tag)
  | some tag, .string value => some (.newtypeString value tag)
  | some tag, .shortString value => some (.newtypeShortString value tag)
  | _, _ => none

namespace Operations

variable (rt : Runtime)

section

def intRegister (v : Value) : Outcome Int64 :=
  match v.transparent with
  | .int value => .ok value
  | _ => .error .undefined

def uintRegister (v : Value) : Outcome UInt64 :=
  match v.transparent with
  | .uint value => .ok value
  | _ => .error .undefined

def floatRegister (v : Value) : Outcome F64 :=
  match v.transparent with
  | .float value => .ok value
  | _ => .error .undefined

def stringRegister (v : Value) : Outcome (List UInt8) :=
  match v.transparent.asStringBytes with
  | some bytes => .ok bytes
  | none => .error .undefined

/-- `as_integer_bits_unchecked`. -/
def integerBits (v : Value) : Outcome UInt64 :=
  match v.transparent with
  | .int value => .ok value.toUInt64
  | .uint value => .ok value
  | _ => .error .undefined

end

section

/-- The fault of a binary operator, with the kinds of its operands. -/
def orBinary (operator left right : String) : Except Fault Value → Outcome Value
  | .ok value => .ok value
  | .error fault => .error (.binary fault operator left right)

def orUnary (operator operand : String) : Except Fault Value → Outcome Value
  | .ok value => .ok value
  | .error fault => .error (.unary fault operator operand)

def binaryArithmetic (operation : Value → Value → Except Fault Value) (operator : String) (left right : Value) :
    Outcome Value := orBinary operator left.kindName right.kindName (operation left right)

def integerArithmetic (signed : Int64 → Int64 → Except Fault Int64)
    (unsigned : UInt64 → UInt64 → Except Fault UInt64) (generic : Value → Value → Except Fault Value)
    (operator : String) (kind : Option IntegerKind) (left right : Value) : Outcome Value :=
  match kind with
  | none => binaryArithmetic generic operator left right
  | some .i64 => do
    orBinary operator "int" "int" ((signed (← intRegister left) (← intRegister right)).map .int)
  | some .u64 => do
    orBinary operator "uint" "uint" ((unsigned (← uintRegister left) (← uintRegister right)).map .uint)

/-- The immediate as the kind of the instruction reads it. -/
def asInt (immediate : ImmediateInteger) : Int64 := immediate.toInt16.toInt64
def asUint (immediate : ImmediateInteger) : UInt64 := immediate.toUInt64

def integerImmediate (signed : Int64 → Int64 → Except Fault Int64)
    (unsigned : UInt64 → UInt64 → Except Fault UInt64) (operator : String) (kind : IntegerKind)
    (source : Value) (immediate : ImmediateInteger) : Outcome Value :=
  match kind with
  | .i64 => do
    orBinary operator source.kindName source.kindName
      ((signed (← intRegister source) (asInt immediate)).map .int)
  | .u64 => do
    orBinary operator source.kindName source.kindName
      ((unsigned (← uintRegister source) (asUint immediate)).map .uint)

/-- `AddImmediate` and `SubtractImmediate`: an integer step is added, already negated for subtraction. -/
def immediateStep (step : Int64) (unsigned : UInt64 → UInt64 → Except Fault UInt64) (operator : String)
    (kind : Option IntegerKind) (source : Value) (immediate : ImmediateInteger) : Outcome Value :=
  match kind with
  | none => orBinary operator source.kindName "int" (Arithmetic.arithmeticImmediate rt.floats source step)
  | some .i64 => do
    orBinary operator source.kindName "int" ((Arithmetic.integerAdd (← intRegister source) step).map .int)
  | some .u64 => do
    orBinary operator source.kindName "uint" ((unsigned (← uintRegister source) (asUint immediate)).map .uint)

def bitwiseTyped (signed : Int64 → Int64 → Int64) (unsigned : UInt64 → UInt64 → UInt64) (operator : String)
    (kind : Option IntegerKind) (left right : Value) : Outcome Value :=
  match kind with
  | none => binaryArithmetic (Arithmetic.bitwise signed unsigned) operator left right
  | some .i64 => do return .int (signed (← intRegister left) (← intRegister right))
  | some .u64 => do return .uint (unsigned (← uintRegister left) (← uintRegister right))

def bitwiseNotTyped (kind : Option IntegerKind) (source : Value) : Outcome Value :=
  match kind with
  | none => orUnary "~" source.kindName (Arithmetic.bitwiseNot source)
  | some .i64 => do return .int (~~~(← intRegister source))
  | some .u64 => do return .uint (~~~(← uintRegister source))

/-- `ShiftLeft` and `ShiftRight`. -/
def shiftTyped (generic : Value → Value → Except Fault Value) (signed : Int64 → Int64 → Except Fault Int64)
    (unsigned : UInt64 → UInt64 → UInt64) (operator : String) (kind : Option IntegerKind)
    (left right : Value) : Outcome Value :=
  match kind with
  | none => binaryArithmetic generic operator left right
  | some .i64 => do
    orBinary operator left.kindName right.kindName
      ((signed (← intRegister left) (← intRegister right)).map .int)
  | some .u64 => do
    let value ← uintRegister left
    let count ← integerBits right
    orBinary operator left.kindName right.kindName
      (if 64 ≤ count then .error .shiftRange else .ok (.uint (unsigned value count)))

def stepTyped (kind : Option IntegerKind) (source : Value) (step : Int64) : Outcome Value :=
  match kind with
  | none => orBinary "+" source.kindName source.kindName (Arithmetic.stepBy rt.floats source step)
  | some .i64 => do
    orBinary "+" source.kindName "int" ((Arithmetic.integerAdd (← intRegister source) step).map .int)
  | some .u64 => do
    orBinary "+" source.kindName "int"
      ((Word.okOr (Arithmetic.checkedAddSigned (← uintRegister source) step)
        (if step < 0 then .underflow else .overflow)).map .uint)

/-- `FloatAdd`, `FloatSubtract` and `FloatMultiply`. -/
def floatArithmetic (operation : F64 → F64 → F64) (left right : Value) : Outcome Value := do
  return .float (operation (← floatRegister left) (← floatRegister right))

def numericOperand (v : Value) : Except Fault F64 :=
  match v.transparent with
  | .int value => .ok (rt.floats.ofInt value)
  | .uint value => .ok (rt.floats.ofUint value)
  | .float value => .ok value
  | _ => .error .incompatible

def arithmeticDivide (left right : Value) : Except Fault Value := do
  let dividend ← numericOperand rt left
  let divisor ← numericOperand rt right
  if divisor.eq ⟨0⟩ then .error .divisionByZero else .ok (.float (rt.floats.divide dividend divisor))

def unaryPlus (v : Value) : Except Fault Value :=
  match v.transparent with
  | .int _ | .uint _ | .float _ => .ok (v.withNewtype none)
  | _ => .error .incompatible

end

section

def reverse : Ordering → Ordering := Ordering.swap

/-- `ops::compare`: nothing for incomparable kinds, no ordering beside `NaN`. -/
def compare (left right : Value) : Option (Option Ordering) :=
  match left.transparent, right.transparent with
  | .int a, .int b => some (some (Ord.compare a b))
  | .uint a, .uint b => some (some (Ord.compare a b))
  | .int a, .uint b => some (some (Ord.compare a.toInt (b.toNat : ℤ)))
  | .uint a, .int b => some (some (Ord.compare (a.toNat : ℤ) b.toInt))
  | .float a, .float b => some (rt.partialCmp a b)
  | .int a, .float b => some (rt.compareIntFloat a b)
  | .float a, .int b => some ((rt.compareIntFloat b a).map reverse)
  | .uint a, .float b => some (rt.compareUintFloat a b)
  | .float a, .uint b => some ((rt.compareUintFloat b a).map reverse)
  | a, b =>
    match a.asStringBytes, b.asStringBytes with
    | some x, some y => some (some (Ord.compare x y))
    | _, _ => none

/-- `<`, `<=`, `>` and `>=`: false where there is no ordering. -/
def compareWith (accepts : Ordering → Bool) (left right : Value) : Except Fault Value :=
  match compare rt left right with
  | some ordering => .ok (.bool (ordering.any accepts))
  | none => .error .incompatible

def compareLess : Value → Value → Except Fault Value := compareWith rt (· == .lt)
def compareLessOrEqual : Value → Value → Except Fault Value := compareWith rt (· != .gt)
def compareGreater : Value → Value → Except Fault Value := compareWith rt (· == .gt)
def compareGreaterOrEqual : Value → Value → Except Fault Value := compareWith rt (· != .lt)

def spaceship : Ordering → Int64
  | .lt => -1
  | .eq => 0
  | .gt => 1

def compareSpaceship (left right : Value) : Except Fault Value :=
  match compare rt left right with
  | some (some ordering) => .ok (.int (spaceship ordering))
  | some none => .error .unordered
  | none => .error .incompatible

/-- `Equal` and `NotEqual`. -/
def equality (negated : Bool) (left right : Value) : Outcome Value :=
  match Equality.equals rt.hashState rt.fuel left right with
  | some (.ok equal) => .ok (.bool (equal != negated))
  | some (.error violation) => .error (.violation violation)
  | none => .error .running

def notOperand (v : Value) : Outcome Value :=
  match v.transparent with
  | .bool operand => .ok (.bool (!operand))
  | _ => .error (.typeError ("the ! operand must be bool, " ++ v.kindName ++ " given"))

end

section

def stringifyForConcat (v : Value) : Option (List UInt8) :=
  match v.transparent with
  | .string value => some value.bytes
  | .shortString value => some value.asBytes
  | .int value => some (rt.renderInt value).bytes
  | .uint value => some (rt.renderUint value).bytes
  | .float value => some (rt.renderFloat value).bytes
  | _ => none

def heapString (bytes : List UInt8) : Outcome Value :=
  match ByteString.fromBytes bytes with
  | some value => .ok (.string value)
  | none => .error .memory

def fromStringBytes (bytes : List UInt8) : Outcome Value :=
  match ShortString.fromBytes bytes with
  | some value => .ok (.shortString value)
  | none => heapString bytes

/-- `concatenate`: two strings of at most 32 bytes together are copied, anything else is rendered and
joined. An empty side leaves the other one, so the joined bytes are the same. -/
def concatenate (leftKind rightKind : String) (left right : Value) : Outcome Value :=
  match left.transparent.asStringBytes, right.transparent.asStringBytes with
  | some a, some b =>
    if a.length+b.length ≤ 32 then fromStringBytes (a++b) else heapString (a++b)
  | _, _ =>
    match stringifyForConcat rt left, stringifyForConcat rt right with
    | some a, some b => heapString (a++b)
    | _, _ => .error (.binary .incompatible "." leftKind rightKind)

/-- Growing the heap string of a register keeps the tag of its value. -/
def appendInPlace (target : Value) (extra : List UInt8) : Outcome Value :=
  match target.transparent with
  | .string value => do return (← heapString (value.bytes++extra)).withNewtype target.newtypeId
  | _ => .error .undefined

/-- Whether `Concatenate` grows its left operand: a heap string with a heap string behind it, or an untagged
one with a short string. -/
def appendable (left right : Value) : Bool :=
  match left.transparent, right.transparent with
  | .string _, .string _ => true
  | .string _, .shortString _ => left.newtypeId.isNone
  | _, _ => false

def concatenateRegisters (destination leftRegister rightRegister : Register) (left right : Value) :
    Outcome Value :=
  if destination = leftRegister ∧ leftRegister ≠ rightRegister ∧ appendable left right ∧
      rt.appendsInPlace leftRegister then
    do appendInPlace left (← stringRegister right)
  else concatenate rt left.kindName right.kindName left right

def isHeapString (v : Value) : Bool :=
  match v.transparent with
  | .string _ => true
  | _ => false

def concatenateRightConstant (destination register : Register) (source : Value) (extra : Atom) : Outcome Value :=
  if destination = register ∧ isHeapString source ∧ rt.appendsInPlace register then
    appendInPlace source extra.bytes
  else concatenate rt source.kindName "string" source (.string extra)

def concatenateLeftConstant (extra : Atom) (source : Value) : Outcome Value :=
  match stringifyForConcat rt source with
  | some bytes => heapString (extra.bytes++bytes)
  | none => .error (.binary .incompatible "." "string" source.kindName)

end

section

def typeFault (message : String) : Stop := .array ⟨.typeError,message⟩

def outOfBoundsPosition (position : ℤ) (length : ℕ) : Stop :=
  .array ⟨.outOfBounds,"the index " ++ toString position ++ " is outside the range 0 to " ++
    toString ((length : ℤ)-1)⟩

def dictKey (v : Value) : Outcome Key :=
  match Key.fromValue v with
  | some key => .ok key
  | none =>
    .error (typeFault ("a dict key must be int, uint, bool, string, or fresh, " ++ v.kindName ++ " given"))

/-- `int_position` and `uint_position`: the bits of the index below the length. -/
def position (bits : UInt64) (shown : ℤ) (length : ℕ) : Outcome ℕ :=
  if bits.toNat < length then .ok bits.toNat else .error (outOfBoundsPosition shown length)

def vecPosition (index : Value) (length : ℕ) : Outcome ℕ :=
  match index.transparent with
  | .int value => position value.toUInt64 value.toInt length
  | .uint value => position value (value.toNat : ℤ) length
  | _ => .error (typeFault ("an index must be int or uint, " ++ index.kindName ++ " given"))

/-- `integer_position`, whose index is proven to be an integer. -/
def integerPosition (index : Value) (length : ℕ) : Outcome ℕ :=
  match index.transparent with
  | .int value => position value.toUInt64 value.toInt length
  | .uint value => position value (value.toNat : ℤ) length
  | _ => .error .undefined

/-- The element at a position that was checked against the length. -/
def elementAt (elements : List Value) (position : ℕ) : Outcome Value :=
  match elements[position]? with
  | some value => .ok value
  | none => .error .undefined

def byteAt (bytes : List UInt8) (position : ℕ) : Outcome Value :=
  match bytes[position]? with
  | some byte => .ok (.string (ByteString.ofByte byte))
  | none => .error .undefined

def indexGet (container index : Value) : Outcome Value :=
  match container.transparent with
  | .vec vec => do elementAt vec.elements (← vecPosition index vec.len)
  | .dict dict => do
    match dict.getRef rt.hashState (← dictKey index) with
    | .ok (some value) => .ok value
    | .ok none => .error (.array ⟨.outOfBounds,"the dict key " ++ rt.debugRender index ++ " is not present"⟩)
    | .error violation => .error (.violation violation)
  | .tuple elements => do elementAt elements (← vecPosition index elements.length)
  | .string value => do byteAt value.bytes (← vecPosition index value.bytes.length)
  | .shortString value => do byteAt value.asBytes (← vecPosition index value.asBytes.length)
  | _ => .error (typeFault ("cannot index into " ++ container.kindName))

def stringIndexGet (container index : Value) : Outcome Value := do
  let bytes ← stringRegister container
  byteAt bytes (← integerPosition index bytes.length)

def arrayValue (v : Value) : ArrayValueMode → Outcome Value
  | .int => do return (Value.int (← intRegister v)).withNewtype v.newtypeId
  | .uint => do return (Value.uint (← uintRegister v)).withNewtype v.newtypeId
  | .generic | .float => .ok v

def vecIndexGet (container index : Value) (mode : ArrayValueMode) : Outcome Value :=
  match container.transparent with
  | .vec vec => do arrayValue (← elementAt vec.elements (← integerPosition index vec.len)) mode
  | _ => .error .undefined

def elementGet (subject : Value) (index : ImmediateInt) : Outcome Value :=
  match subject.transparent with
  | .tuple elements => elementAt elements index.toInt64.toUInt64.toNat
  | .vec vec => elementAt vec.elements index.toInt64.toUInt64.toNat
  | _ => .error .undefined

def arrayLength (v : Value) : Outcome Value :=
  match v.transparent with
  | .string value => .ok (.uint (ofNat value.bytes.length))
  | .shortString value => .ok (.uint (ofNat value.asBytes.length))
  | .vec vec => .ok (.uint (ofNat vec.len))
  | .dict dict => .ok (.uint (ofNat dict.len))
  | .tuple elements => .ok (.uint (ofNat elements.length))
  | _ => .error (typeFault ("length!() accepts a string, vec, dict, or tuple, " ++ v.kindName ++ " given"))

def stringLength (v : Value) : Outcome Value := do
  return .uint (ofNat (← stringRegister v).length)

/-- The loop of `NewArray` over the keys and values of a dictionary literal. -/
def insertPairs : List Value → DictObject Value → Outcome (DictObject Value)
  | key::value::operands, dict => do
    match dict.insert rt.hashState rt.growth (← dictKey key) value with
    | .ok (_,dict) => insertPairs operands dict
    | .error violation => .error (.violation violation)
  | _, dict => .ok dict

def newArray (kind : ArrayKind) (operands : List Value) : Outcome Value :=
  match kind with
  | .vec => .ok (.vec (VecObject.withElements operands))
  | .tuple => .ok (.tuple operands)
  | .dict => do return .dict (← insertPairs rt operands DictObject.new)

end

/-- The registers of an array literal, in order. -/
def literalRegisters (first : Register) (kind : ArrayKind) (count : Count) : List Register :=
  (List.range (kind.registerCount count)).map fun offset => first+UInt16.ofNat offset

def constantOf (chunk : Chunk) (constant : ConstantIndex) : Outcome Literal :=
  match chunk.constants[constant.toNat]? with
  | some literal => .ok literal
  | none => .error .undefined

def stringConstant (chunk : Chunk) (constant : ConstantIndex) : Outcome Atom := do
  match ← constantOf chunk constant with
  | .string value => .ok value
  | _ => .error .undefined

def floatConstant (chunk : Chunk) (constant : ConstantIndex) : Outcome F64 := do
  match ← constantOf chunk constant with
  | .float value => .ok value
  | _ => .error .undefined

open Arithmetic in
/-- One step of the loop at an instruction that computes a value: its destination and the value, or why there
is none. The other instructions are not modelled here. -/
def execute (chunk : Chunk) (registers : Register → Value) : Instruction → Option (Register × Outcome Value)
  | .move destination source => some (destination,.ok (registers source))
  | .moveOwned destination source => some (destination,.ok (registers source))
  | .loadConstant destination constant => some (destination,(constantOf chunk constant).map literalValue)
  | .loadNull destination => some (destination,.ok .null)
  | .loadTrue destination => some (destination,.ok (.bool true))
  | .loadFalse destination => some (destination,.ok (.bool false))
  | .loadInteger destination immediate .i64 => some (destination,.ok (.int (asInt immediate)))
  | .loadInteger destination immediate .u64 => some (destination,.ok (.uint (asUint immediate)))
  | .add destination left right kind =>
    some (destination,integerArithmetic integerAdd unsignedAdd (arithmeticAdd rt.floats) "+" kind
      (registers left) (registers right))
  | .subtract destination left right kind =>
    some (destination,integerArithmetic integerSubtract unsignedSubtract (arithmeticSubtract rt.floats) "-" kind
      (registers left) (registers right))
  | .multiply destination left right kind =>
    some (destination,integerArithmetic integerMultiply unsignedMultiply (arithmeticMultiply rt.floats) "*" kind
      (registers left) (registers right))
  | .modulo destination left right kind =>
    some (destination,integerArithmetic integerModulo unsignedModulo arithmeticModulo "%" kind
      (registers left) (registers right))
  | .addImmediate destination source immediate kind =>
    some (destination,immediateStep rt (asInt immediate) unsignedAdd "+" kind (registers source) immediate)
  | .subtractImmediate destination source immediate kind =>
    some (destination,immediateStep rt (-asInt immediate) unsignedSubtract "-" kind (registers source) immediate)
  | .integerMultiplyImmediate destination source immediate kind =>
    some (destination,integerImmediate integerMultiply unsignedMultiply "*" kind (registers source) immediate)
  | .integerModuloImmediate destination source immediate kind =>
    some (destination,integerImmediate integerModulo unsignedModulo "%" kind (registers source) immediate)
  | .divide destination left right =>
    some (destination,binaryArithmetic (arithmeticDivide rt) "/" (registers left) (registers right))
  | .power destination left right =>
    some (destination,binaryArithmetic (arithmeticPower rt.floats) "**" (registers left) (registers right))
  | .negate destination source =>
    some (destination,orUnary "-" (registers source).kindName (negate rt.floats (registers source)))
  | .unaryPlus destination source =>
    some (destination,orUnary "+" (registers source).kindName (unaryPlus (registers source)))
  | .step destination source immediate kind =>
    some (destination,stepTyped rt kind (registers source) immediate.toInt64)
  | .bitwiseAnd destination left right kind =>
    some (destination,bitwiseTyped (· &&& ·) (· &&& ·) "&" kind (registers left) (registers right))
  | .bitwiseOr destination left right kind =>
    some (destination,bitwiseTyped (· ||| ·) (· ||| ·) "|" kind (registers left) (registers right))
  | .bitwiseXor destination left right kind =>
    some (destination,bitwiseTyped (· ^^^ ·) (· ^^^ ·) "^" kind (registers left) (registers right))
  | .bitwiseNot destination source kind => some (destination,bitwiseNotTyped kind (registers source))
  | .shiftLeft destination left right kind =>
    some (destination,shiftTyped shiftLeft integerShiftLeft (· <<< ·) "<<" kind (registers left) (registers right))
  | .shiftRight destination left right kind =>
    some (destination,shiftTyped shiftRight integerShiftRight (· >>> ·) ">>" kind (registers left) (registers right))
  | .floatAdd destination left right =>
    some (destination,floatArithmetic rt.floats.add (registers left) (registers right))
  | .floatSubtract destination left right =>
    some (destination,floatArithmetic rt.floats.subtract (registers left) (registers right))
  | .floatMultiply destination left right =>
    some (destination,floatArithmetic rt.floats.multiply (registers left) (registers right))
  | .floatMultiplyConstant destination source constant =>
    some (destination,do
      let value ← floatRegister (registers source)
      return .float (rt.floats.multiply value (← floatConstant chunk constant)))
  | .equal destination left right => some (destination,equality rt false (registers left) (registers right))
  | .notEqual destination left right => some (destination,equality rt true (registers left) (registers right))
  | .lessThan destination left right =>
    some (destination,binaryArithmetic (compareLess rt) "<" (registers left) (registers right))
  | .lessThanOrEqual destination left right =>
    some (destination,binaryArithmetic (compareLessOrEqual rt) "<=" (registers left) (registers right))
  | .greaterThan destination left right =>
    some (destination,binaryArithmetic (compareGreater rt) ">" (registers left) (registers right))
  | .greaterThanOrEqual destination left right =>
    some (destination,binaryArithmetic (compareGreaterOrEqual rt) ">=" (registers left) (registers right))
  | .compare destination left right =>
    some (destination,binaryArithmetic (compareSpaceship rt) "<=>" (registers left) (registers right))
  | .not destination source => some (destination,notOperand (registers source))
  | .concatenate destination left right =>
    some (destination,concatenateRegisters rt destination left right (registers left) (registers right))
  | .concatenateRightConstant destination source constant =>
    some (destination,do
      concatenateRightConstant rt destination source (registers source) (← stringConstant chunk constant))
  | .concatenateLeftConstant destination source constant =>
    some (destination,do concatenateLeftConstant rt (← stringConstant chunk constant) (registers source))
  | .newArray count destination first kind =>
    some (destination,newArray rt kind ((literalRegisters first kind count).map registers))
  | .length destination source => some (destination,arrayLength (registers source))
  | .stringLength destination source => some (destination,stringLength (registers source))
  | .indexGet destination container index =>
    some (destination,indexGet rt (registers container) (registers index))
  | .stringIndexGet destination container index =>
    some (destination,stringIndexGet (registers container) (registers index))
  | .vecIndexGet destination container index mode =>
    some (destination,vecIndexGet (registers container) (registers index) mode)
  | .elementGet destination subject index => some (destination,elementGet (registers subject) index)
  | _ => none

@[simp] theorem ok_bind {α β : Type} (x : α) (next : α → Outcome β) : (Except.ok x >>= next) = next x := rfl

@[simp] theorem error_bind {α β : Type} (stop : Stop) (next : α → Outcome β) :
    (Except.error stop >>= next) = .error stop := rfl

theorem fromBytes_eq_some {bs : List UInt8} {s : ByteString} (h : ByteString.fromBytes bs = some s) :
    s.bytes = bs := by
  unfold ByteString.fromBytes at h
  split at h <;> cases h
  rfl

end Operations
end Whim
