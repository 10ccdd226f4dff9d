import Whim.ArithmeticExact
import Whim.ConstantFolding

/-!
# Folded operations on constants

Each operation of the optimizer on constants against the operation of the loop on their values.
-/

namespace Whim

/-- The value is this constant: of the same kind, untagged, strings by their bytes. -/
def ConstantValue.Is : ConstantValue → Value → Prop
  | .null, v => v = .null
  | .bool value, v => v = .bool value
  | .int value, v => v = .int value
  | .uint value, v => v = .uint value
  | .float value, v => v = .float value
  | .string value, v => v.newtypeId = none ∧ v.transparent.asStringBytes = some value.bytes

namespace ConstantFolding

open Arithmetic Operations Word Option Int64

attribute [local simp] Value.null Value.bool Value.int Value.uint Value.float Except.map

variable {rt : Runtime} {a b c : ConstantValue} {v w : Value}

/-- The outcome is the constant, unless an unchecked read was not of the kind it relies on. -/
def Agrees (outcome : Outcome Value) (c : ConstantValue) : Prop :=
  outcome = .error .undefined ∨ ∃ v, outcome = .ok v ∧ c.Is v

theorem Agrees.ok (h : c.Is v) : Agrees (.ok v) c := .inr ⟨v,rfl,h⟩

theorem Agrees.undefined : Agrees (.error .undefined) c := .inl rfl

theorem okOr_of_eq_some {α β : Type} {answer : Option α} {x : α} {f : β} (h : answer = some x) :
    okOr answer f = .ok x := by
  rw [h]
  rfl

variable {s : Atom}

section

theorem intRegister_cases (v : Value) :
    intRegister v = .error .undefined ∨ ∃ x, v.transparent = .int x ∧ intRegister v = .ok x := by
  cases h : v.transparent <;> simp [intRegister,h]

theorem uintRegister_cases (v : Value) :
    uintRegister v = .error .undefined ∨ ∃ x, v.transparent = .uint x ∧ uintRegister v = .ok x := by
  cases h : v.transparent <;> simp [uintRegister,h]

theorem floatRegister_cases (v : Value) :
    floatRegister v = .error .undefined ∨ ∃ x, v.transparent = .float x ∧ floatRegister v = .ok x := by
  cases h : v.transparent <;> simp [floatRegister,h]

theorem integerBits_cases (v : Value) :
    integerBits v = .error .undefined ∨ ∃ x, integerBits v = .ok x := by
  cases h : v.transparent <;> simp [integerBits,h]

/-- A typed read gives a number of its kind, or is not defined. -/
theorem agrees_read {α : Type} {read : Outcome α} {P : α → Prop} {next : α → Outcome Value}
    (hread : read = .error .undefined ∨ ∃ x, P x ∧ read = .ok x) (h : ∀ x, P x → Agrees (next x) c) :
    Agrees (read >>= next) c := by
  rcases hread with hread | ⟨x,hx,hread⟩ <;> rw [hread]
  · exact .undefined
  · exact h x hx

/-- A constant whose value is an integer is that integer. -/
theorem Is.eq_int {x : Int64} (h : a.Is v) (hv : v.transparent = .int x) : a = .int x ∧ v = .int x := by
  cases a <;> simp_all [ConstantValue.Is,ValueView.asStringBytes]

theorem Is.eq_uint {x : UInt64} (h : a.Is v) (hv : v.transparent = .uint x) : a = .uint x ∧ v = .uint x := by
  cases a <;> simp_all [ConstantValue.Is,ValueView.asStringBytes]

theorem Is.eq_float {x : F64} (h : a.Is v) (hv : v.transparent = .float x) : a = .float x ∧ v = .float x := by
  cases a <;> simp_all [ConstantValue.Is,ValueView.asStringBytes]

/-- The value of a string constant is a heap string or a short one. -/
theorem Is.string_cases (h : (ConstantValue.string s).Is v) :
    (∃ t : ByteString, v = .mk (.string t) none ∧ t.bytes = s.bytes) ∨
      ∃ t : ShortString, v = .mk (.shortString t) none ∧ t.asBytes = s.bytes := by
  obtain ⟨view,tag⟩ := v
  obtain ⟨htag,hbytes⟩ := h
  cases htag
  cases view <;> simp_all [ValueView.asStringBytes]

end

variable {u : Value}

/-- An operation without a fault. -/
theorem agrees_orBinary {op left right : String} {r : Except Fault Value} (h : r = .ok u)
    (hc : c.Is u) : Agrees (orBinary op left right r) c := by
  rw [h]
  exact .ok hc

section

variable {signed : Int64 → Int64 → Except Fault Int64} {unsigned : UInt64 → UInt64 → Except Fault UInt64}
  {generic : Value → Value → Except Fault Value} {foldSigned : Int64 → Int64 → Option Int64}
  {foldUnsigned : UInt64 → UInt64 → Option UInt64} {float : F64 → F64 → F64}
  {kind : Option IntegerKind} {op : String}

/-- A typed form that finds its kind computes what the generic form computes. -/
theorem integerArithmetic_agrees (hc : c.Is u) (hgeneric : generic v w = .ok u)
    (hint : ∀ x y, v.transparent = .int x → w.transparent = .int y → (signed x y).map Value.int = .ok u)
    (huint : ∀ x y, v.transparent = .uint x → w.transparent = .uint y → (unsigned x y).map Value.uint = .ok u) :
    Agrees (integerArithmetic signed unsigned generic op kind v w) c := by
  rcases kind with - | - | -
  · exact agrees_orBinary hgeneric hc
  · exact agrees_read (intRegister_cases v) fun x hx => agrees_read (intRegister_cases w) fun y hy =>
      agrees_orBinary (hint x y hx hy) hc
  · exact agrees_read (uintRegister_cases v) fun x hx => agrees_read (uintRegister_cases w) fun y hy =>
      agrees_orBinary (huint x y hx hy) hc

/-- The tables of `+`, `-` and `*` on both sides. -/
theorem constantTable_agrees (hsigned : ∀ x y z, foldSigned x y = some z → signed x y = .ok z)
    (hunsigned : ∀ x y z, foldUnsigned x y = some z → unsigned x y = .ok z)
    (ha : a.Is v) (hb : b.Is w) (h : constantTable rt foldSigned foldUnsigned float a b = some c) :
    Agrees (integerArithmetic signed unsigned (arithmeticTable rt.floats signed unsigned float) op kind v w) c := by
  cases a <;> cases b <;> simp only [constantTable,constantNumeric,map_none,map_some,
    map_eq_some_iff,reduceCtorEq,some.injEq] at h
  case int.int =>
    obtain ⟨z,hz,rfl⟩ := h
    cases ha
    cases hb
    refine integerArithmetic_agrees (u := .int z) rfl ?_ ?_ ?_ <;>
      simp [arithmeticTable,hsigned _ _ _ hz]
  case uint.uint =>
    obtain ⟨z,hz,rfl⟩ := h
    cases ha
    cases hb
    refine integerArithmetic_agrees (u := .uint z) rfl ?_ ?_ ?_ <;>
      simp [arithmeticTable,hunsigned _ _ _ hz]
  all_goals
    cases ha
    cases hb
    cases h
    refine integerArithmetic_agrees (u := .float _) rfl ?_ ?_ ?_ <;>
      simp [arithmeticTable]

theorem constantModulo_agrees (ha : a.Is v) (hb : b.Is w) (h : constantModulo a b = some c) :
    Agrees (integerArithmetic integerModulo unsignedModulo arithmeticModulo op kind v w) c := by
  cases a <;> cases b <;> simp only [constantModulo,reduceCtorEq] at h
  case int.int x y =>
    obtain ⟨hy,hz⟩ := ite_none_right_eq_some.mp h
    cases ha
    cases hb
    cases hz
    refine integerArithmetic_agrees (u := .int _) rfl ?_ ?_ ?_ <;>
      simp [arithmeticModulo,integerModulo,hy]
  case uint.uint =>
    obtain ⟨z,hz,rfl⟩ := map_eq_some_iff.mp h
    cases ha
    cases hb
    refine integerArithmetic_agrees (u := .uint z) rfl ?_ ?_ ?_ <;>
      simp [arithmeticModulo,unsignedModulo,okOr_of_eq_some hz]

/-- The float forms read floats only, where the table has one line. -/
theorem floatArithmetic_agrees (ha : a.Is v) (hb : b.Is w)
    (h : constantTable rt foldSigned foldUnsigned float a b = some c) : Agrees (floatArithmetic float v w) c := by
  refine agrees_read (floatRegister_cases v) fun x hx => agrees_read (floatRegister_cases w) fun y hy => ?_
  obtain ⟨rfl,-⟩ := Is.eq_float ha hx
  obtain ⟨rfl,-⟩ := Is.eq_float hb hy
  cases h
  exact .ok rfl

variable {immediate : ImmediateInteger}

/-- An immediate operand has the kind of the instruction. -/
theorem integerImmediate_agrees {fold : ConstantValue → ConstantValue → Option ConstantValue} {kind : IntegerKind}
    (hint : ∀ x y c, fold (.int x) (.int y) = some c → ∃ u, (signed x y).map Value.int = .ok u ∧ c.Is u)
    (huint : ∀ x y c, fold (.uint x) (.uint y) = some c → ∃ u, (unsigned x y).map Value.uint = .ok u ∧ c.Is u)
    (ha : a.Is v) (h : fold a (integerConstant immediate kind) = some c) :
    Agrees (integerImmediate signed unsigned op kind v immediate) c := by
  cases kind with
  | i64 =>
    refine agrees_read (intRegister_cases v) fun x hx => ?_
    obtain ⟨rfl,-⟩ := Is.eq_int ha hx
    obtain ⟨u,hu,hc⟩ := hint x _ c h
    exact agrees_orBinary hu hc
  | u64 =>
    refine agrees_read (uintRegister_cases v) fun x hx => ?_
    obtain ⟨rfl,-⟩ := Is.eq_uint ha hx
    obtain ⟨u,hu,hc⟩ := huint x _ c h
    exact agrees_orBinary hu hc

theorem constantMultiply_immediate_agrees {kind : IntegerKind} (ha : a.Is v)
    (h : constantMultiply rt a (integerConstant immediate kind) = some c) :
    Agrees (integerImmediate integerMultiply unsignedMultiply op kind v immediate) c := by
  refine integerImmediate_agrees ?_ ?_ ha h <;>
  · intro x y c h
    obtain ⟨z,hz,rfl⟩ := map_eq_some_iff.mp h
    exact ⟨_,by simp [integerMultiply,unsignedMultiply,okOr_of_eq_some hz],rfl⟩

theorem constantModulo_immediate_agrees {kind : IntegerKind} (ha : a.Is v)
    (h : constantModulo a (integerConstant immediate kind) = some c) :
    Agrees (integerImmediate integerModulo unsignedModulo op kind v immediate) c := by
  refine integerImmediate_agrees ?_ ?_ ha h
  · intro x y c h
    obtain ⟨hy,hz⟩ := ite_none_right_eq_some.mp h
    cases hz
    exact ⟨_,by simp [integerModulo,hy],rfl⟩
  · intro x y c h
    obtain ⟨z,hz,rfl⟩ := map_eq_some_iff.mp h
    exact ⟨_,by simp [unsignedModulo,okOr_of_eq_some hz],rfl⟩

/-- `AddImmediate` and `SubtractImmediate` add a step, where folding adds or subtracts the immediate. -/
theorem immediateStep_agrees {step : Int64}
    (hint : ∀ x z, foldSigned x (asInt immediate) = some z → checkedAdd x step = some z)
    (huint : ∀ x y z, foldUnsigned x y = some z → unsigned x y = .ok z)
    (hfloat : ∀ x, a = .float x → float x (rt.floats.ofInt (asInt immediate)) = rt.floats.add x (rt.floats.ofInt step))
    (ha : a.Is v)
    (h : constantTable rt foldSigned foldUnsigned float a (integerConstant immediate (kind.getD .i64)) = some c) :
    Agrees (immediateStep rt step unsigned op kind v immediate) c := by
  cases kind with
  | none =>
    cases a <;> simp only [getD_none,integerConstant,constantTable,constantNumeric,map_some,
      map_eq_some_iff,reduceCtorEq,some.injEq] at h
    case int x =>
      obtain ⟨z,hz,rfl⟩ := h
      cases ha
      simpa [immediateStep,arithmeticImmediate,stepBy,okOr_of_eq_some (hint x z hz),orBinary] using .ok
        (c := .int z) rfl
    case float x =>
      cases ha
      cases h
      rw [hfloat x rfl]
      exact .ok rfl
  | some kind =>
    cases kind with
    | i64 =>
      refine agrees_read (intRegister_cases v) fun x hx => ?_
      obtain ⟨rfl,-⟩ := Is.eq_int ha hx
      obtain ⟨z,hz,rfl⟩ := map_eq_some_iff.mp h
      simpa [integerAdd,okOr_of_eq_some (hint x z hz),orBinary] using .ok (c := .int z) rfl
    | u64 =>
      refine agrees_read (uintRegister_cases v) fun x hx => ?_
      obtain ⟨rfl,-⟩ := Is.eq_uint ha hx
      obtain ⟨z,hz,rfl⟩ := map_eq_some_iff.mp h
      simpa [huint _ _ _ hz,orBinary] using .ok (c := .uint z) rfl

theorem toInt_neg_asInt (immediate : ImmediateInteger) : (-asInt immediate).toInt = -(asInt immediate).toInt := by
  have hlow := Int16.le_toInt immediate.toInt16
  have hhigh := Int16.toInt_lt immediate.toInt16
  have hv : (asInt immediate).toInt = immediate.toInt16.toInt := Int16.toInt_toInt64 _
  rw [toInt_neg,hv]
  exact Int.bmod_eq_of_le (by omega) (by omega)

/-- Subtracting a 16-bit immediate is adding its negation. -/
theorem checkedAdd_neg_asInt (x : Int64) (immediate : ImmediateInteger) :
    checkedAdd x (-asInt immediate) = checkedSub x (asInt immediate) := by
  show checked (x.toInt+(-asInt immediate).toInt) = checked (x.toInt-(asInt immediate).toInt)
  rw [toInt_neg_asInt,Int.sub_eq_add_neg]

theorem constantStep_agrees {step : Int64} (ha : a.Is v) (h : constantStep rt a step = some c) :
    Agrees (stepTyped rt kind v step) c := by
  cases a <;> simp only [constantStep,constantAdd,constantTable,constantNumeric,map_some,
    map_eq_some_iff,reduceCtorEq,some.injEq] at h
  case int =>
    obtain ⟨z,hz,rfl⟩ := h
    cases ha
    rcases kind with - | - | -
    · simpa [stepTyped,stepBy,okOr_of_eq_some hz,orBinary] using .ok (c := .int z) rfl
    · simpa [stepTyped,intRegister,integerAdd,okOr_of_eq_some hz,orBinary] using
        .ok (c := .int z) rfl
    · exact .undefined
  case uint =>
    obtain ⟨z,hz,rfl⟩ := h
    cases ha
    rcases kind with - | - | -
    · simpa [stepTyped,stepBy,okOr_of_eq_some hz,orBinary] using .ok (c := .uint z) rfl
    · exact .undefined
    · simpa [stepTyped,uintRegister,okOr_of_eq_some hz,orBinary] using
        .ok (c := .uint z) rfl
  case float =>
    cases ha
    cases h
    rcases kind with - | - | -
    · exact .ok rfl
    · exact .undefined
    · exact .undefined

theorem numericOperand_eq {x : F64} (ha : a.Is v) (h : constantNumeric rt a = some x) :
    numericOperand rt v = .ok x := by
  cases a <;> cases h <;> cases ha <;> rfl

theorem constantDivide_agrees (ha : a.Is v) (hb : b.Is w) (h : constantDivide rt a b = some c) :
    Agrees (binaryArithmetic (arithmeticDivide rt) op v w) c := by
  obtain ⟨x,hx,h⟩ := bind_eq_some_iff.mp h
  obtain ⟨y,hy,h⟩ := bind_eq_some_iff.mp h
  obtain ⟨hne,hz⟩ := ite_none_left_eq_some.mp h
  cases hz
  refine agrees_orBinary (u := .float (rt.floats.divide x y)) ?_ rfl
  simp only [arithmeticDivide,numericOperand_eq ha hx,numericOperand_eq hb hy]
  exact if_neg hne

theorem constantNegate_agrees (ha : a.Is v) (h : constantNegate rt a = some c) :
    Agrees (orUnary op v.kindName (negate rt.floats v)) c := by
  cases a <;> simp only [constantNegate,map_eq_some_iff,reduceCtorEq,some.injEq] at h
  case int =>
    obtain ⟨z,hz,rfl⟩ := h
    cases ha
    simpa [negate,okOr_of_eq_some hz,orUnary] using .ok (c := .int z) rfl
  case uint =>
    obtain ⟨hx,hz⟩ := ite_none_right_eq_some.mp h
    cases ha
    cases hz
    simpa [negate,hx,orUnary] using .ok (c := .uint 0) rfl
  case float =>
    cases ha
    cases h
    exact .ok rfl

theorem constantUnaryPlus_agrees (ha : a.Is v) (h : constantUnaryPlus a = some c) :
    Agrees (orUnary op v.kindName (unaryPlus v)) c := by
  cases a <;> cases h <;> cases ha <;> exact .ok rfl

theorem exponentOf_eq_some {e : UInt64} {n : ℕ} (h : exponentOf e = some n) : n = e.toNat := by
  obtain ⟨-,h⟩ := ite_none_right_eq_some.mp h
  exact (some.inj h).symm

/-- The folded power of two unsigned integers. -/
theorem unsignedPower_eq {base e : UInt64} (h : constantPower rt (.uint base) (.uint e) = some c) :
    ∃ z, c = .uint z ∧ unsignedPower base e = .ok z := by
  simp only [constantPower] at h
  split at h
  · next hb =>
    refine ⟨_,(some.inj h).symm,?_⟩
    by_cases he : e = 0 <;> simp [unsignedPower,hb,he]
  split at h
  · next hb => exact ⟨1,(some.inj h).symm,by simp [unsignedPower,hb]⟩
  obtain ⟨z,hz,rfl⟩ := map_eq_some_iff.mp h
  obtain ⟨n,hn,hz⟩ := bind_eq_some_iff.mp hz
  rw [exponentOf_eq_some hn] at hz
  exact ⟨z,rfl,((unsignedPower_exact base e).ok z).mpr (checked_eq_some.mp hz)⟩

/-- The folded power of two integers, the exponent not negative. -/
theorem integerPower_eq {base e : Int64} (hexponent : 0 ≤ e) (h : constantPower rt (.int base) (.int e) = some c) :
    ∃ z, c = .int z ∧ integerPower base e.toUInt64 = .ok z := by
  simp only [constantPower,if_pos hexponent] at h
  split at h
  · next hb =>
    refine ⟨_,(some.inj h).symm,?_⟩
    have he : e.toUInt64 = 0 ↔ e = 0 := ⟨fun h => by simpa using congrArg UInt64.toInt64 h,by rintro rfl; rfl⟩
    simp [integerPower,hb,he]
  split at h
  · next hb => exact ⟨1,(some.inj h).symm,by simp [integerPower,hb]⟩
  split at h
  · next hb => exact ⟨_,(some.inj h).symm,by simp [integerPower,hb]⟩
  obtain ⟨z,hz,rfl⟩ := map_eq_some_iff.mp h
  obtain ⟨n,hn,hz⟩ := bind_eq_some_iff.mp hz
  rw [exponentOf_eq_some hn] at hz
  exact ⟨z,rfl,((integerPower_exact base e.toUInt64).ok z).mpr (checked_eq_some.mp hz)⟩

theorem constantPower_agrees (ha : a.Is v) (hb : b.Is w) (h : constantPower rt a b = some c) :
    Agrees (binaryArithmetic (arithmeticPower rt.floats) op v w) c := by
  cases a <;> cases b
  case int.int x y =>
    cases ha
    cases hb
    by_cases hy : 0 ≤ y
    · obtain ⟨z,rfl,hz⟩ := integerPower_eq hy h
      exact agrees_orBinary (u := .int z) (by simp [arithmeticPower,hy,hz]) rfl
    · simp only [constantPower,if_neg hy] at h
      obtain ⟨hx,hz⟩ := ite_none_left_eq_some.mp h
      cases hz
      exact agrees_orBinary (u := .float _) (by simp [arithmeticPower,hy,hx]) rfl
  case uint.uint x y =>
    cases ha
    cases hb
    obtain ⟨z,rfl,hz⟩ := unsignedPower_eq h
    exact agrees_orBinary (u := .uint z) (by simp [arithmeticPower,hz]) rfl
  all_goals
    cases h <;> cases ha <;> cases hb <;> exact .ok rfl

end

section

variable {kind : Option IntegerKind} {op : String} {unsigned : UInt64 → UInt64 → UInt64}

theorem constantIntBinary_agrees {signed : Int64 → Int64 → Int64}
    (hcast : ∀ x y : UInt64, (signed x.toInt64 y.toInt64).toUInt64 = unsigned x y) (ha : a.Is v) (hb : b.Is w)
    (h : constantIntBinary signed a b = some c) : Agrees (bitwiseTyped signed unsigned op kind v w) c := by
  cases a <;> cases b <;> cases h <;> cases ha <;> cases hb <;> rcases kind with - | - | - <;>
    first
    | exact .undefined
    | exact .ok rfl
    | exact .ok (by rw [hcast]; rfl)

theorem constantBitwiseNot_agrees (ha : a.Is v) (h : constantBitwiseNot a = some c) :
    Agrees (bitwiseNotTyped kind v) c := by
  cases a <;> cases h <;> cases ha <;> rcases kind with - | - | - <;>
    first
    | exact .undefined
    | exact .ok rfl

variable {count : Int64}

/-- Shift counts are the numbers below 64, on which the count of a machine shift is not reduced. -/
theorem exists_count (h : 0 ≤ count ∧ count ≤ 63) : ∃ n < 64, count = ofNat n := by
  have hlow : (0 : ℤ) ≤ count.toInt := le_iff_toInt_le.mp h.1
  have hhigh : count.toInt ≤ 63 := le_iff_toInt_le.mp h.2
  refine ⟨count.toInt.toNat,by omega,?_⟩
  rw [← ofInt_eq_ofNat,Int.toNat_of_nonneg hlow,ofInt_toInt]

theorem smod_count : ∀ n < 64, (ofNat n).toBitVec.smod 64 = BitVec.ofNat 64 n := by decide +kernel

theorem umod_count : ∀ n < 64, ((ofNat n).toUInt64 % 64).toBitVec = BitVec.ofNat 64 n := by decide +kernel

theorem toUInt64_count : ∀ n < 64, ¬ 64 ≤ (ofNat n).toUInt64 := by decide +kernel

theorem integerShiftLeft_eq (value : Int64) (h : 0 ≤ count ∧ count ≤ 63) :
    integerShiftLeft value count = .ok (value <<< count) := by
  rw [integerShiftLeft,if_pos h]
  obtain ⟨n,hn,rfl⟩ := exists_count h
  refine congrArg _ (toBitVec_inj.mp ?_)
  rw [Int64.toBitVec_shiftLeft,smod_count n hn,← umod_count n hn]
  rfl

theorem integerShiftRight_eq (value : Int64) (h : 0 ≤ count ∧ count ≤ 63) :
    integerShiftRight value count = .ok (value >>> count) := if_pos h

theorem shiftTyped_agrees {generic : Value → Value → Except Fault Value} {signed : Int64 → Int64 → Except Fault Int64}
    (hc : c.Is u) (hgeneric : generic v w = .ok u)
    (hint : ∀ x y, v.transparent = .int x → w.transparent = .int y → (signed x y).map Value.int = .ok u)
    (huint : ∀ x y, v.transparent = .uint x → integerBits w = .ok y → ¬ 64 ≤ y ∧ .uint (unsigned x y) = u) :
    Agrees (shiftTyped generic signed unsigned op kind v w) c := by
  rcases kind with - | - | -
  · exact agrees_orBinary hgeneric hc
  · exact agrees_read (intRegister_cases v) fun x hx => agrees_read (intRegister_cases w) fun y hy =>
      agrees_orBinary (hint x y hx hy) hc
  · refine agrees_read (uintRegister_cases v) fun x hx => ?_
    refine agrees_read ((integerBits_cases w).imp_right fun ⟨y,hy⟩ => ⟨y,hy,hy⟩) fun y hw => ?_
    obtain ⟨hy,rfl⟩ := huint x y hx hw
    exact agrees_orBinary (if_neg hy) hc

/-- A folded shift count is the count of either kind, and in range. -/
theorem shiftCount_eq {count : UInt64} (hb : b.Is w) (h : shiftCount b = some count) :
    ¬ 64 ≤ count ∧ integerBits w = .ok count ∧
      ((w = .int count.toInt64 ∧ 0 ≤ count.toInt64 ∧ count.toInt64 ≤ 63) ∨ w = .uint count) := by
  cases b <;> simp only [shiftCount,reduceCtorEq] at h
  case int =>
    obtain ⟨hy,h⟩ := ite_none_right_eq_some.mp h
    cases hb
    cases h
    obtain ⟨n,hn,hcount⟩ := exists_count hy
    exact ⟨hcount ▸ toUInt64_count n hn,rfl,.inl ⟨by simp,by simpa using hy⟩⟩
  case uint =>
    obtain ⟨hy,h⟩ := ite_none_right_eq_some.mp h
    cases hb
    cases h
    refine ⟨?_,rfl,.inr rfl⟩
    rw [UInt64.le_iff_toNat_le] at hy ⊢
    have h63 : (63 : UInt64).toNat = 63 := rfl
    have h64 : (64 : UInt64).toNat = 64 := rfl
    omega

theorem constantShift_agrees (ha : a.Is v) (hb : b.Is w) : (constantShift a b true = some c →
    Agrees (shiftTyped shiftLeft integerShiftLeft (· <<< ·) op kind v w) c) ∧ (constantShift a b false = some c →
    Agrees (shiftTyped shiftRight integerShiftRight (· >>> ·) op kind v w) c) := by
  constructor <;> intro h <;>
  · obtain ⟨count,hcount,h⟩ := bind_eq_some_iff.mp h
    obtain ⟨hlt,hbits,hw⟩ := shiftCount_eq hb hcount
    cases a <;> cases h <;> cases ha
    · refine shiftTyped_agrees (u := .int _) rfl ?_ ?_ (by simp) <;> rcases hw with ⟨rfl,hrange⟩ | rfl <;>
        simp [shiftLeft,shiftRight,integerShiftLeft_eq,integerShiftRight_eq, *]
    · refine shiftTyped_agrees (u := .uint _) rfl ?_ (by simp) ?_ <;> rcases hw with ⟨rfl,hrange⟩ | rfl <;>
        simp_all [shiftLeft,shiftRight,integerBits]

end

section

variable {op : String}

theorem equals_eq (hs : HashState) (fuel : ℕ) (ha : a.Is v) (hb : b.Is w) :
    Equality.equals hs fuel v w = some (.ok (constantEquals a b)) := by
  cases a <;> cases b
  case string.string s t =>
    rcases Is.string_cases ha with ⟨x,rfl,hx⟩ | ⟨x,rfl,hx⟩ <;>
      rcases Is.string_cases hb with ⟨y,rfl,hy⟩ | ⟨y,rfl,hy⟩ <;>
      simp [Equality.equals,constantEquals,ValueView.isString,ValueView.asStringBytes,hx,hy]
  all_goals
    first
    | cases ha; cases hb; rfl
    | cases ha; rcases Is.string_cases hb with ⟨y,rfl,-⟩ | ⟨y,rfl,-⟩ <;> rfl
    | cases hb; rcases Is.string_cases ha with ⟨x,rfl,-⟩ | ⟨x,rfl,-⟩ <;> rfl

theorem equality_agrees (negated : Bool) (ha : a.Is v) (hb : b.Is w) :
    Agrees (equality rt negated v w) (.bool (constantEquals a b != negated)) := by
  rw [equality,equals_eq _ _ ha hb]
  exact .ok rfl

theorem compare_eq {ordering : Option Ordering} (ha : a.Is v) (hb : b.Is w)
    (h : constantCompare rt a b = some ordering) : Operations.compare rt v w = some ordering := by
  cases a <;> cases b <;> cases h
  case string.string s t =>
    rcases Is.string_cases ha with ⟨x,rfl,hx⟩ | ⟨x,rfl,hx⟩ <;>
      rcases Is.string_cases hb with ⟨y,rfl,hy⟩ | ⟨y,rfl,hy⟩ <;>
      simp [Operations.compare,ValueView.asStringBytes,hx,hy]
  all_goals
    cases ha
    cases hb
    rfl

theorem constantOrdered_agrees {accepts : Ordering → Bool} (ha : a.Is v) (hb : b.Is w)
    (h : constantOrdered rt accepts a b = some c) : Agrees (binaryArithmetic (compareWith rt accepts) op v w) c := by
  obtain ⟨ordering,hordering,rfl⟩ := map_eq_some_iff.mp h
  exact agrees_orBinary (by rw [compareWith,compare_eq ha hb hordering]) rfl

theorem constantSpaceship_agrees (ha : a.Is v) (hb : b.Is w) (h : constantSpaceship rt a b = some c) :
    Agrees (binaryArithmetic (compareSpaceship rt) op v w) c := by
  cases hcompare : constantCompare rt a b with
  | none => simp [constantSpaceship,hcompare] at h
  | some ordering =>
    cases ordering with
    | none => simp [constantSpaceship,hcompare] at h
    | some =>
      simp only [constantSpaceship,hcompare,some.injEq] at h
      cases h
      exact agrees_orBinary (by rw [compareSpaceship,compare_eq ha hb hcompare]) rfl

theorem constantNot_agrees (ha : a.Is v) (h : constantNot a = some c) : Agrees (notOperand v) c := by
  cases a <;> cases h
  cases ha
  exact .ok rfl

end

section

theorem stringifyForConcat_eq {text : List UInt8} (ha : a.Is v) (h : constantText rt a = some text) :
    stringifyForConcat rt v = some text := by
  cases a <;> cases h
  case string =>
    rcases Is.string_cases ha with ⟨x,rfl,hx⟩ | ⟨x,rfl,hx⟩ <;> simp [stringifyForConcat,hx]
  all_goals
    cases ha
    rfl

variable {bytes : List UInt8}

/-- Both ways to allocate the joined bytes give the string. -/
theorem heapString_agrees (h : ByteString.fromBytes bytes = some s) : Agrees (heapString bytes) (.string s) := by
  rw [heapString,h]
  exact .ok ⟨rfl,rfl⟩

theorem fromStringBytes_agrees (h : ByteString.fromBytes bytes = some s) :
    Agrees (fromStringBytes bytes) (.string s) := by
  cases hshort : ShortString.fromBytes bytes with
  | none =>
    rw [fromStringBytes,hshort]
    exact heapString_agrees h
  | some =>
    rw [fromStringBytes,hshort]
    refine .ok ⟨rfl,?_⟩
    rw [fromBytes_eq_some h,← ShortString.fromBytes_asBytes hshort]
    rfl

theorem stringifyForConcat_string (h : v.transparent.asStringBytes = some bytes) :
    stringifyForConcat rt v = some bytes := by
  cases hv : v.transparent <;> simp_all [ValueView.asStringBytes,stringifyForConcat]

theorem concatenate_agrees {left r : List UInt8} (leftKind rightKind : String)
    (hl : stringifyForConcat rt v = some left) (hr : stringifyForConcat rt w = some r)
    (h : ByteString.fromBytes (left++r) = some s) :
    Agrees (Operations.concatenate rt leftKind rightKind v w) (.string s) := by
  unfold Operations.concatenate
  split
  · next hx hy =>
    rw [stringifyForConcat_string hx,some.injEq] at hl
    rw [stringifyForConcat_string hy,some.injEq] at hr
    subst hl
    subst hr
    split
    · exact fromStringBytes_agrees h
    · exact heapString_agrees h
  · rw [hl,hr]
    exact heapString_agrees h

theorem constantConcatenate_eq (h : constantConcatenate rt a b = some c) :
    ∃ left r s, constantText rt a = some left ∧ constantText rt b = some r ∧ c = .string s ∧
      ByteString.fromBytes (left++r) = some s := by
  obtain ⟨left,hl,h⟩ := bind_eq_some_iff.mp h
  obtain ⟨r,hr,h⟩ := bind_eq_some_iff.mp h
  obtain ⟨s,hs,rfl⟩ := map_eq_some_iff.mp h
  exact ⟨left,r,s,hl,hr,rfl,hs⟩

/-- Growing the untagged heap string of a register in place. -/
theorem appendInPlace_agrees {x : ByteString} {extra : List UInt8}
    (h : ByteString.fromBytes (x.bytes++extra) = some s) :
    Agrees (appendInPlace (.mk (.string x) none) extra) (.string s) := by
  simp only [appendInPlace,Value.transparent_mk,heapString,h,ok_bind]
  exact .ok ⟨rfl,rfl⟩

/-- The text of a constant held as a heap string. -/
theorem constantText_heap (rt : Runtime) (ha : a.Is v) (hheap : isHeapString v) :
    ∃ x : ByteString, v = .mk (.string x) none ∧ constantText rt a = some x.bytes := by
  cases a with
  | string =>
    rcases Is.string_cases ha with ⟨x,rfl,hx⟩ | ⟨x,rfl,-⟩
    · exact ⟨x,rfl,congrArg some hx.symm⟩
    · cases hheap
  | _ =>
    cases ha
    cases hheap

theorem isHeapString_of_appendable (h : appendable v w) :
    isHeapString v ∧ ∃ bytes, w.transparent.asStringBytes = some bytes := by
  cases hv : v.transparent <;> cases hw : w.transparent <;>
    simp_all [appendable,isHeapString,ValueView.asStringBytes]

theorem constantConcatenate_agrees (dst left r : Register) (ha : a.Is v) (hb : b.Is w)
    (h : constantConcatenate rt a b = some c) : Agrees (concatenateRegisters rt dst left r v w) c := by
  obtain ⟨x,y,s,hx,hy,rfl,hs⟩ := constantConcatenate_eq h
  unfold concatenateRegisters
  split
  · next hin =>
    obtain ⟨hheap,bytes,hbytes⟩ := isHeapString_of_appendable hin.2.2.1
    obtain ⟨x',rfl,hx'⟩ := constantText_heap rt ha hheap
    have hr := stringifyForConcat_eq hb hy
    rw [stringifyForConcat_string hbytes,some.injEq] at hr
    rw [hx',some.injEq] at hx
    subst hx hr
    simpa [stringRegister,hbytes] using appendInPlace_agrees hs
  · exact concatenate_agrees _ _ (stringifyForConcat_eq ha hx) (stringifyForConcat_eq hb hy) hs

theorem concatenateRightConstant_agrees (dst r : Register) {extra : Atom} (ha : a.Is v)
    (h : constantConcatenate rt a (.string extra) = some c) : Agrees (concatenateRightConstant rt dst r v extra) c := by
  obtain ⟨x,y,s,hx,hy,rfl,hs⟩ := constantConcatenate_eq h
  cases hy
  unfold concatenateRightConstant
  split
  · next hin =>
    obtain ⟨x',rfl,hx'⟩ := constantText_heap rt ha hin.2.1
    rw [hx',some.injEq] at hx
    subst hx
    exact appendInPlace_agrees hs
  · exact concatenate_agrees _ _ (stringifyForConcat_eq ha hx) rfl hs

theorem concatenateLeftConstant_agrees {extra : Atom} (ha : a.Is v)
    (h : constantConcatenate rt (.string extra) a = some c) : Agrees (concatenateLeftConstant rt extra v) c := by
  obtain ⟨x,y,s,hx,hy,rfl,hs⟩ := constantConcatenate_eq h
  cases hx
  rw [concatenateLeftConstant,stringifyForConcat_eq ha hy]
  exact heapString_agrees hs

end

end ConstantFolding
end Whim
