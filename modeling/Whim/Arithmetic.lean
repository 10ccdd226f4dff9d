import Whim.Value
import Whim.Word

/-!
# Arithmetic of the loop

The arithmetic, bitwise and shift operations the loop performs on values; those of floats are parameters.
-/

namespace Whim

open Word

inductive Fault
  | incompatible | unordered | divisionByZero | overflow | underflow | shiftRange
  deriving DecidableEq

instance : Inhabited F64 := ⟨⟨0⟩⟩

/-- The float operations and conversions of the machine. -/
structure FloatOps where
  add : F64 → F64 → F64
  subtract : F64 → F64 → F64
  multiply : F64 → F64 → F64
  divide : F64 → F64 → F64
  power : F64 → F64 → F64
  negate : F64 → F64
  ofInt : Int64 → F64
  ofUint : UInt64 → F64
  deriving Inhabited

namespace Arithmetic

section

def checkedAdd {α : Type} [Word α] (a b : α) : Option α := checked (toInt a+toInt b)
def checkedSub {α : Type} [Word α] (a b : α) : Option α := checked (toInt a-toInt b)
def checkedMul {α : Type} [Word α] (a b : α) : Option α := checked (toInt a*toInt b)
def checkedNeg (a : Int64) : Option Int64 := checked (-a.toInt)
def checkedPow {α : Type} [Word α] (a : α) (exponent : ℕ) : Option α := checked (toInt a ^ exponent)
def checkedAddSigned (a : UInt64) (step : Int64) : Option UInt64 := checked (a.toNat+step.toInt)

/-- The remainder takes the sign of the left operand; there is none for a zero divisor, nor where the
quotient is not representable. -/
def checkedRem {α : Type} [Word α] (a b : α) : Option α :=
  if toInt b = 0 then none
  else (checked ((toInt a).tdiv (toInt b)) : Option α).bind fun _ => checked ((toInt a).tmod (toInt b))

def integerAdd (left right : Int64) : Except Fault Int64 :=
  okOr (checkedAdd left right) (if 0 ≤ left then .overflow else .underflow)

def integerSubtract (left right : Int64) : Except Fault Int64 :=
  okOr (checkedSub left right) (if 0 ≤ left then .overflow else .underflow)

def integerMultiply (left right : Int64) : Except Fault Int64 :=
  okOr (checkedMul left right) (if decide (0 < left) = decide (0 < right) then .overflow else .underflow)

def integerModulo (left right : Int64) : Except Fault Int64 :=
  if right = 0 then .error .divisionByZero else .ok ((checkedRem left right).getD 0)

def unsignedAdd (left right : UInt64) : Except Fault UInt64 := okOr (checkedAdd left right) .overflow
def unsignedSubtract (left right : UInt64) : Except Fault UInt64 := okOr (checkedSub left right) .underflow
def unsignedMultiply (left right : UInt64) : Except Fault UInt64 := okOr (checkedMul left right) .overflow
def unsignedModulo (left right : UInt64) : Except Fault UInt64 := okOr (checkedRem left right) .divisionByZero

end

section

def powerDirection (base : Int64) (exponent : UInt64) : Fault :=
  if base < 0 ∧ exponent.toNat % 2 ≠ 0 then .underflow else .overflow

def inI128 (n : ℤ) : Bool := -2 ^ 127 ≤ n ∧ n < 2 ^ 127

/-- The loop of `integer_power`: nothing once a product leaves `i128`. -/
def powerLoop (base : ℤ) : ℕ → ℤ → Option ℤ
  | 0, result => some result
  | n+1, result => if inI128 (result*base) then powerLoop base n (result*base) else none

/-- `narrow`. -/
def narrow (value : ℤ) : Except Fault Int64 :=
  if 2 ^ 63-1 < value then .error .overflow
  else if value < -2 ^ 63 then .error .underflow
  else .ok (Int64.ofInt value)

def integerPower (base : Int64) (exponent : UInt64) : Except Fault Int64 :=
  if base = 0 then .ok (if exponent = 0 then 1 else 0)
  else if base = 1 then .ok 1
  else if base = -1 then .ok (if exponent.toNat % 2 = 0 then 1 else -1)
  else if 63 < exponent then .error (powerDirection base exponent)
  else (powerLoop base.toInt exponent.toNat 1).elim (.error (powerDirection base exponent)) narrow

/-- The branch of `arithmetic_power` for two unsigned operands. -/
def unsignedPower (base exponent : UInt64) : Except Fault UInt64 :=
  if exponent = 0 ∨ base = 1 then .ok 1
  else if base = 0 then .ok 0
  else if 64 ≤ exponent then .error .overflow
  else okOr (checkedPow base exponent.toNat) .overflow

end

section

variable (floats : FloatOps)

/-- The arithmetic table of `+`, `-` and `*`: integers stay integers, a float operand promotes. -/
def arithmeticTable (signed : Int64 → Int64 → Except Fault Int64) (unsigned : UInt64 → UInt64 → Except Fault UInt64)
    (float : F64 → F64 → F64) (left right : Value) : Except Fault Value :=
  match left.transparent, right.transparent with
  | .int a, .int b => (signed a b).map .int
  | .uint a, .uint b => (unsigned a b).map .uint
  | .float a, .float b => .ok (.float (float a b))
  | .int a, .float b => .ok (.float (float (floats.ofInt a) b))
  | .float a, .int b => .ok (.float (float a (floats.ofInt b)))
  | .uint a, .float b => .ok (.float (float (floats.ofUint a) b))
  | .float a, .uint b => .ok (.float (float a (floats.ofUint b)))
  | _, _ => .error .incompatible

def arithmeticAdd : Value → Value → Except Fault Value := arithmeticTable floats integerAdd unsignedAdd floats.add

def arithmeticSubtract : Value → Value → Except Fault Value :=
  arithmeticTable floats integerSubtract unsignedSubtract floats.subtract

def arithmeticMultiply : Value → Value → Except Fault Value :=
  arithmeticTable floats integerMultiply unsignedMultiply floats.multiply

def arithmeticModulo (left right : Value) : Except Fault Value :=
  match left.transparent, right.transparent with
  | .int a, .int b => (integerModulo a b).map .int
  | .uint a, .uint b => (unsignedModulo a b).map .uint
  | _, _ => .error .incompatible

def arithmeticPower (left right : Value) : Except Fault Value :=
  match left.transparent, right.transparent with
  | .uint base, .uint exponent => (unsignedPower base exponent).map .uint
  | .int base, .int exponent =>
    if 0 ≤ exponent then (integerPower base exponent.toUInt64).map .int
    else if base = 0 then .error .divisionByZero
    else .ok (.float (floats.power (floats.ofInt base) (floats.ofInt exponent)))
  | .float base, .float exponent => .ok (.float (floats.power base exponent))
  | .int base, .float exponent => .ok (.float (floats.power (floats.ofInt base) exponent))
  | .float base, .int exponent => .ok (.float (floats.power base (floats.ofInt exponent)))
  | .uint base, .float exponent => .ok (.float (floats.power (floats.ofUint base) exponent))
  | .float base, .uint exponent => .ok (.float (floats.power base (floats.ofUint exponent)))
  | _, _ => .error .incompatible

def stepBy (value : Value) (step : Int64) : Except Fault Value :=
  match value.transparent with
  | .int current => (okOr (checkedAdd current step) (if 0 ≤ step then .overflow else .underflow)).map .int
  | .float current => .ok (.float (floats.add current (floats.ofInt step)))
  | .uint current => (okOr (checkedAddSigned current step) (if step < 0 then .underflow else .overflow)).map .uint
  | _ => .error .incompatible

def arithmeticImmediate (value : Value) (step : Int64) : Except Fault Value :=
  match value.transparent with
  | .uint _ => .error .incompatible
  | _ => stepBy floats value step

def negate (value : Value) : Except Fault Value :=
  match value.transparent with
  | .int operand => (okOr (checkedNeg operand) .overflow).map .int
  | .float operand => .ok (.float (floats.negate operand))
  | .uint operand => if operand = 0 then .ok (.uint 0) else .error .underflow
  | _ => .error .incompatible

end

section

/-- `&`, `|` and `^` over two operands of one integer kind. -/
def bitwise (signed : Int64 → Int64 → Int64) (unsigned : UInt64 → UInt64 → UInt64) (left right : Value) :
    Except Fault Value :=
  match left.transparent, right.transparent with
  | .int a, .int b => .ok (.int (signed a b))
  | .uint a, .uint b => .ok (.uint (unsigned a b))
  | _, _ => .error .incompatible

def bitwiseAnd : Value → Value → Except Fault Value := bitwise (· &&& ·) (· &&& ·)
def bitwiseOr : Value → Value → Except Fault Value := bitwise (· ||| ·) (· ||| ·)
def bitwiseXor : Value → Value → Except Fault Value := bitwise (· ^^^ ·) (· ^^^ ·)

def bitwiseNot (value : Value) : Except Fault Value :=
  match value.transparent with
  | .int operand => .ok (.int (~~~operand))
  | .uint operand => .ok (.uint (~~~operand))
  | _ => .error .incompatible

def integerShiftLeft (left right : Int64) : Except Fault Int64 :=
  if 0 ≤ right ∧ right ≤ 63 then .ok (left.toUInt64 <<< right.toUInt64).toInt64 else .error .shiftRange

def integerShiftRight (left right : Int64) : Except Fault Int64 :=
  if 0 ≤ right ∧ right ≤ 63 then .ok (left >>> right) else .error .shiftRange

def shiftLeft (left right : Value) : Except Fault Value :=
  match left.transparent, right.transparent with
  | .int a, .int b => (integerShiftLeft a b).map .int
  | .int a, .uint b => if 64 ≤ b then .error .shiftRange else .ok (.int (a <<< b.toInt64))
  | .uint a, .int b =>
    if 0 ≤ b ∧ b ≤ 63 then .ok (.uint (a <<< b.toUInt64)) else .error .shiftRange
  | .uint a, .uint b => if 64 ≤ b then .error .shiftRange else .ok (.uint (a <<< b))
  | _, _ => .error .incompatible

def shiftRight (left right : Value) : Except Fault Value :=
  match left.transparent, right.transparent with
  | .int a, .int b => (integerShiftRight a b).map .int
  | .int a, .uint b => if 64 ≤ b then .error .shiftRange else .ok (.int (a >>> b.toInt64))
  | .uint a, .int b =>
    if 0 ≤ b ∧ b ≤ 63 then .ok (.uint (a >>> b.toUInt64)) else .error .shiftRange
  | .uint a, .uint b => if 64 ≤ b then .error .shiftRange else .ok (.uint (a >>> b))
  | _, _ => .error .incompatible

end

end Arithmetic
end Whim
