import Mathlib.Algebra.Order.Ring.Abs
import Whim.Arithmetic

/-!
# Integer arithmetic is exact

Every integer operation returns the mathematical result or, if the operand kind cannot represent it, the fault of the
side on which it lies.
-/

namespace Whim.Arithmetic

open Word

/-- An answer of some integer kind is exact for `n`. -/
abbrev ExactFor {α : Type} [Word α] (answer : Except Fault α) (n : ℤ) : Prop :=
  Exact Fault.overflow Fault.underflow answer n

section

theorem int_bounds (a : Int64) : -2 ^ 63 ≤ a.toInt ∧ a.toInt ≤ 2 ^ 63-1 := toInt_mem a

theorem zero_le_int (a : Int64) : 0 ≤ a ↔ 0 ≤ a.toInt := Int64.le_iff_toInt_le
theorem int_lt_zero (a : Int64) : a < 0 ↔ a.toInt < 0 := Int64.lt_iff_toInt_lt
theorem zero_lt_int (a : Int64) : 0 < a ↔ 0 < a.toInt := Int64.lt_iff_toInt_lt

variable {n : ℤ}

theorem checked_int_eq_none : (checked n : Option Int64) = none ↔ n < -2 ^ 63 ∨ 2 ^ 63-1 < n := checked_eq_none

theorem checked_uint_eq_none : (checked n : Option UInt64) = none ↔ n < 0 ∨ 2 ^ 64-1 < n := checked_eq_none

theorem exact_int {f : Fault} (hover : 2 ^ 63-1 < n → f = .overflow)
    (hunder : n < -2 ^ 63 → f = .underflow) : ExactFor (okOr (checked n : Option Int64) f) n :=
  exact_okOr (by decide) hover hunder

theorem exact_uint {f : Fault} (hover : 2 ^ 64-1 < n → f = .overflow)
    (hunder : n < 0 → f = .underflow) : ExactFor (okOr (checked n : Option UInt64) f) n :=
  exact_okOr (by decide) hover hunder

end

section

theorem integerAdd_exact (a b : Int64) : ExactFor (integerAdd a b) (a.toInt+b.toInt) := by
  have ha := int_bounds a
  have hb := int_bounds b
  refine exact_int (n := a.toInt+b.toInt) (fun h => if_pos ?_) (fun h => if_neg ?_) <;>
    rw [zero_le_int] <;> omega

theorem integerSubtract_exact (a b : Int64) : ExactFor (integerSubtract a b) (a.toInt-b.toInt) := by
  have ha := int_bounds a
  have hb := int_bounds b
  refine exact_int (n := a.toInt-b.toInt) (fun h => if_pos ?_) (fun h => if_neg ?_) <;>
    rw [zero_le_int] <;> omega

theorem unsignedAdd_exact (a b : UInt64) : ExactFor (unsignedAdd a b) (a.toNat+b.toNat) :=
  exact_uint (n := a.toNat+b.toNat) (fun _ => rfl) (by omega)

theorem unsignedSubtract_exact (a b : UInt64) : ExactFor (unsignedSubtract a b) (a.toNat-b.toNat) :=
  exact_uint (n := a.toNat-b.toNat) (by have := a.toNat_lt; omega) (fun _ => rfl)

theorem unsignedMultiply_exact (a b : UInt64) : ExactFor (unsignedMultiply a b) (a.toNat*b.toNat) :=
  exact_uint (n := a.toNat*b.toNat) (fun _ => rfl) fun h => by
    have hle : (0 : ℤ) ≤ a.toNat*b.toNat := Int.mul_nonneg (by omega) (by omega)
    omega

/-- The signs of the factors tell the side on which a product leaves the range. -/
theorem integerMultiply_exact (a b : Int64) : ExactFor (integerMultiply a b) (a.toInt*b.toInt) := by
  refine exact_int (n := a.toInt*b.toInt) (fun h => if_pos ?_) (fun h => if_neg ?_)
  · rw [decide_eq_decide,zero_lt_int,zero_lt_int]
    rcases mul_pos_iff.mp (show 0 < a.toInt * b.toInt by omega) with h' | h' <;> omega
  · rw [decide_eq_decide,zero_lt_int,zero_lt_int]
    rcases mul_neg_iff.mp (show a.toInt * b.toInt < 0 by omega) with h' | h' <;> omega

end

section

/-- A truncated remainder lies between zero and the dividend. -/
theorem tmod_between (m n : ℤ) : (0 ≤ m → 0 ≤ m.tmod n ∧ m.tmod n ≤ m) ∧ (m ≤ 0 → m ≤ m.tmod n ∧ m.tmod n ≤ 0) := by
  have hnn : ∀ k : ℤ, 0 ≤ k → 0 ≤ k.tmod n ∧ k.tmod n ≤ k := by
    intro k hk
    have habs : (k.tmod n).natAbs ≤ k.natAbs := by
      rw [Int.natAbs_tmod]
      exact Nat.mod_le _ _
    have := Int.tmod_nonneg n hk
    omega
  refine ⟨hnn m,fun hm => ?_⟩
  have := hnn (-m) (by omega)
  rw [Int.neg_tmod] at this
  omega

/-- A quotient leaves the range of its dividend only for the divisor `-1`. -/
theorem tdiv_between (m n : ℤ) (hm : -2 ^ 63 ≤ m ∧ m ≤ 2 ^ 63-1) (hn : n ≠ -1) :
    -2 ^ 63 ≤ m.tdiv n ∧ m.tdiv n ≤ 2 ^ 63-1 := by
  rcases eq_or_ne n 1 with rfl | hone
  · simpa using hm
  have habs : (m.tdiv n).natAbs = m.natAbs / n.natAbs := Int.natAbs_tdiv m n
  rcases eq_or_ne n 0 with rfl | hz
  · simp
  · have hle : m.natAbs / n.natAbs ≤ m.natAbs / 2 := Nat.div_le_div_left (by omega) (by omega)
    omega

theorem integerModulo_exact (a b : Int64) (hb : b ≠ 0) : ExactFor (integerModulo a b) (a.toInt.tmod b.toInt) := by
  have ha := int_bounds a
  have hb' : b.toInt ≠ 0 := fun h => hb (Int64.toInt_inj.mp h)
  have hrange := tmod_between a.toInt b.toInt
  rw [integerModulo,if_neg hb]
  refine exact_ok ?_
  show Int64.toInt (Option.getD (if b.toInt = 0 then none else _) 0) = _
  rw [if_neg hb']
  cases hquotient : (checked (a.toInt.tdiv b.toInt) : Option Int64) with
  | none =>
    -- only `i64::MIN % -1`, whose remainder is zero
    have hminus : b.toInt = -1 := by
      by_contra hne
      have := tdiv_between a.toInt b.toInt ha hne
      rcases checked_int_eq_none.mp hquotient with h | h <;> omega
    rw [hminus]
    simp
  | some q =>
    cases hremainder : (checked (a.toInt.tmod b.toInt) : Option Int64) with
    | none => rcases checked_int_eq_none.mp hremainder with h | h <;> omega
    | some r => exact checked_eq_some.mp hremainder

theorem unsignedModulo_exact (a b : UInt64) (hb : b ≠ 0) :
    ExactFor (unsignedModulo a b) ((a.toNat : ℤ).tmod b.toNat) := by
  have ha := a.toNat_lt
  have hb' : (b.toNat : ℤ) ≠ 0 := fun h => hb (UInt64.toNat_inj.mp (by exact_mod_cast h))
  have hremainder := (tmod_between a.toNat b.toNat).1 (by omega)
  have hquotient : 0 ≤ (a.toNat : ℤ).tdiv b.toNat ∧ (a.toNat : ℤ).tdiv b.toNat ≤ a.toNat :=
    ⟨Int.tdiv_nonneg (Int.natCast_nonneg _) (Int.natCast_nonneg _),by
      rw [← Int.ofNat_tdiv]
      exact_mod_cast Nat.div_le_self _ _⟩
  show ExactFor (okOr (if (b.toNat : ℤ) = 0 then none else _) _) _
  rw [if_neg hb']
  cases hq : (checked ((a.toNat : ℤ).tdiv b.toNat) : Option UInt64) with
  | none => rcases checked_uint_eq_none.mp hq with h | h <;> omega
  | some q => exact exact_uint (n := (a.toNat : ℤ).tmod b.toNat) (by omega) (by omega)

end

section

theorem two_pow_le_abs_pow {base : ℤ} {k n : ℕ} (hb : 2 ≤ |base|) (hk : k ≤ n) : 2 ^ k ≤ |base ^ n| := by
  rw [abs_pow]
  calc (2 : ℤ) ^ k ≤ 2 ^ n := pow_le_pow_right₀ (by omega) hk
    _ ≤ |base| ^ n := pow_le_pow_left₀ (by omega) hb n

/-- The loop returns the power, or the power leaves `i128`. -/
theorem powerLoop_eq {base : ℤ} (hb : 1 ≤ |base|) (n : ℕ) (result : ℤ) :
    powerLoop base n result = some (result*base ^ n) ∨
      powerLoop base n result = none ∧ 2 ^ 127 ≤ |result*base ^ n| := by
  induction n generalizing result with
  | zero => simp [powerLoop]
  | succ n ih =>
    rw [powerLoop,pow_succ']
    split
    · rw [← mul_assoc]
      exact ih (result*base)
    next hout =>
    refine .inr ⟨rfl,?_⟩
    have habs : 2 ^ 127 ≤ |result*base| := by
      simp only [inI128,decide_eq_true_eq] at hout
      rcases abs_cases (result * base) with h | h <;> omega
    rw [← mul_assoc,abs_mul]
    calc (2 : ℤ) ^ 127 ≤ |result*base| * 1 := by omega
      _ ≤ |result*base| * |base ^ n| := by
        refine mul_le_mul_of_nonneg_left ?_ (abs_nonneg _)
        rw [abs_pow]
        exact one_le_pow₀ hb

/-- `power_direction` is the side of a power of large magnitude. -/
theorem powerDirection_exact {base : Int64} {e : UInt64} (h : 2 ^ 63 < |base.toInt ^ e.toNat|) :
    ExactFor (.error (powerDirection base e) : Except Fault Int64) (base.toInt ^ e.toNat) := by
  unfold powerDirection
  split
  · next hneg =>
    have hodd : Odd e.toNat := Nat.odd_iff.mpr (by omega)
    have hpow := hodd.pow_neg ((int_lt_zero base).mp hneg.1)
    refine exact_underflow (by decide) ?_
    change _ < -2 ^ 63
    rw [abs_of_neg hpow] at h
    omega
  · next hpos =>
    have hpow : 0 ≤ base.toInt ^ e.toNat := by
      by_cases hb : base < 0
      · exact Even.pow_nonneg (Nat.even_iff.mpr (by by_contra hodd; exact hpos ⟨hb,hodd⟩)) _
      · exact pow_nonneg (by rw [int_lt_zero] at hb; omega) _
    refine exact_overflow (by decide) ?_
    change 2 ^ 63-1 < _
    rw [abs_of_nonneg hpow] at h
    omega

theorem narrow_exact (n : ℤ) : ExactFor (narrow n) n := by
  unfold narrow
  split
  · next h => exact exact_overflow (by decide) h
  split
  · next h => exact exact_underflow (by decide) h
  · exact exact_ok (Int64.toInt_ofInt_of_le (by omega) (by omega))

theorem two_le_abs {base : Int64} (h0 : base ≠ 0) (h1 : base ≠ 1) (hm : base ≠ -1) : 2 ≤ |base.toInt| := by
  have key : ∀ {c : Int64}, base ≠ c → base.toInt ≠ c.toInt := fun hne heq => hne (Int64.toInt_inj.mp heq)
  have h0 : base.toInt ≠ 0 := key h0
  have h1 : base.toInt ≠ 1 := key h1
  have hm : base.toInt ≠ -1 := key hm
  rcases abs_cases base.toInt with h | h <;> omega

theorem integerPower_exact (base : Int64) (e : UInt64) : ExactFor (integerPower base e) (base.toInt ^ e.toNat) := by
  unfold integerPower
  split
  · next h =>
    refine exact_ok ?_
    rw [h]
    split
    · next he => rw [he]; rfl
    · next he => exact (zero_pow fun hz => he (UInt64.toNat_inj.mp hz)).symm
  split
  · next h =>
    rw [h]
    exact exact_ok (one_pow _).symm
  split
  · next h =>
    refine exact_ok ?_
    rw [h]
    split
    · next he => exact (Even.neg_one_pow (Nat.even_iff.mpr he)).symm
    · next he => exact (Odd.neg_one_pow (Nat.odd_iff.mpr (by omega))).symm
  next h0 h1 hm =>
  have hb := two_le_abs h0 h1 hm
  split
  · next h =>
    have hlarge := two_pow_le_abs_pow hb (show 64 ≤ e.toNat from h)
    exact powerDirection_exact (by omega)
  · rcases powerLoop_eq (show 1 ≤ |base.toInt| by omega) e.toNat 1 with h | ⟨h,hlarge⟩
    · rw [h,one_mul]
      exact narrow_exact _
    · rw [h]
      rw [one_mul] at hlarge
      exact powerDirection_exact (by omega)

theorem unsignedPower_exact (base e : UInt64) : ExactFor (unsignedPower base e) ((base.toNat : ℤ) ^ e.toNat) := by
  have hnn : (0 : ℤ) ≤ (base.toNat : ℤ) ^ e.toNat := pow_nonneg (Int.natCast_nonneg _) _
  unfold unsignedPower
  split
  · next h =>
    refine exact_ok ?_
    rcases h with h | h <;> rw [h]
    · rfl
    · exact (one_pow _).symm
  next hone =>
  split
  · next h =>
    rw [h]
    exact exact_ok (zero_pow fun hz => hone (.inl (UInt64.toNat_inj.mp hz))).symm
  next hz =>
  split
  · next h =>
    have hb : 2 ≤ |(base.toNat : ℤ)| := by
      have h0 : base.toNat ≠ 0 := fun h => hz (UInt64.toNat_inj.mp h)
      have h1 : base.toNat ≠ 1 := fun h => hone (.inr (UInt64.toNat_inj.mp h))
      rw [abs_of_nonneg (Int.natCast_nonneg _)]
      omega
    have hlarge := two_pow_le_abs_pow hb (show 64 ≤ e.toNat from h)
    rw [abs_of_nonneg hnn] at hlarge
    exact exact_overflow (by decide) (show 2 ^ 64-1 < _ by omega)
  · exact exact_uint (n := (base.toNat : ℤ) ^ e.toNat) (fun _ => rfl) (by omega)

end

section

theorem checkedNeg_exact (a : Int64) : ExactFor (okOr (checkedNeg a) .overflow) (-a.toInt) :=
  exact_int (n := -a.toInt) (fun _ => rfl) (by have := int_bounds a; omega)

theorem stepInt_exact (a step : Int64) :
    ExactFor (okOr (checkedAdd a step) (if 0 ≤ step then .overflow else .underflow)) (a.toInt+step.toInt) := by
  have ha := int_bounds a
  refine exact_int (n := a.toInt+step.toInt) (fun h => if_pos ?_) (fun h => if_neg ?_) <;>
    rw [zero_le_int] <;> omega

theorem stepUint_exact (a : UInt64) (step : Int64) :
    ExactFor (okOr (checkedAddSigned a step) (if step < 0 then .underflow else .overflow)) (a.toNat+step.toInt) := by
  have ha := a.toNat_lt
  refine exact_uint (n := a.toNat+step.toInt) (fun h => if_neg ?_) (fun h => if_pos ?_) <;>
    rw [int_lt_zero] <;> omega

end

section

theorem toNat_toUInt64 {a : Int64} (h : 0 ≤ a.toInt) : (a.toUInt64.toNat : ℤ) = a.toInt := by
  have hlt := a.toBitVec.isLt
  change 0 ≤ a.toBitVec.toInt at h
  change (a.toBitVec.toNat : ℤ) = a.toBitVec.toInt
  rw [BitVec.toInt_eq_toNat_cond] at h ⊢
  split at h
  · next hsmall => rw [if_pos hsmall]
  · omega

inductive Operation
  | add | subtract | multiply | modulo | power

namespace Operation

def apply (floats : FloatOps) : Operation → Value → Value → Except Fault Value
  | add => arithmeticAdd floats
  | subtract => arithmeticSubtract floats
  | multiply => arithmeticMultiply floats
  | modulo => arithmeticModulo
  | power => arithmeticPower floats

/-- The mathematical result; the remainder has the sign of the left operand. -/
def result : Operation → ℤ → ℤ → ℤ
  | add, a, b => a+b
  | subtract, a, b => a-b
  | multiply, a, b => a*b
  | modulo, a, b => a.tmod b
  | power, a, b => a ^ b.toNat

/-- The right operands for which there is an integer result. -/
def Applicable : Operation → ℤ → Prop
  | modulo, b => b ≠ 0
  | power, b => 0 ≤ b
  | _, _ => True

end Operation

/-- An answer that is a value of one integer kind is exact for `n`. -/
structure ExactValue {α : Type} [Word α] (make : α → Value) (answer : Except Fault Value) (n : ℤ) : Prop where
  ok : ∀ v, answer = .ok v ↔ ∃ a, toInt a = n ∧ v = make a
  overflow : answer = .error .overflow ↔ hi α < n
  underflow : answer = .error .underflow ↔ n < lo α

theorem exactValue_map {α : Type} [Word α] {make : α → Value} {answer : Except Fault α} {n : ℤ}
    (h : ExactFor answer n) : ExactValue make (answer.map make) n := by
  cases answer with
  | error f =>
    refine ⟨fun v => ?_,?_,?_⟩
    · have hn : ∀ a : α, toInt a ≠ n := fun a ha => nomatch (h.ok a).mpr ha
      simp [Except.map,hn]
    · simpa [Except.map] using h.overflow
    · simpa [Except.map] using h.underflow
  | ok a =>
    refine ⟨fun v => ?_,?_,?_⟩
    · have hiff : ∀ b : α, toInt b = n ↔ a = b := fun b => by rw [← h.ok b,Except.ok.injEq]
      simp [Except.map,hiff,eq_comm]
    · simpa [Except.map] using h.overflow
    · simpa [Except.map] using h.underflow

theorem apply_int_exact (floats : FloatOps) (op : Operation) (a b : Int64) (s t : Option NewtypeValueId)
    (h : op.Applicable b.toInt) : ExactValue Value.int (op.apply floats (.mk (.int a) s) (.mk (.int b) t))
      (op.result a.toInt b.toInt) := by
  cases op with
  | add => exact exactValue_map (integerAdd_exact a b)
  | subtract => exact exactValue_map (integerSubtract_exact a b)
  | multiply => exact exactValue_map (integerMultiply_exact a b)
  | modulo => exact exactValue_map (integerModulo_exact a b fun hb => h (by rw [hb]; rfl))
  | power =>
    have hexponent : b.toUInt64.toNat = b.toInt.toNat := by
      have := toNat_toUInt64 h
      omega
    have hexact := integerPower_exact a b.toUInt64
    rw [hexponent] at hexact
    simp only [Operation.apply,arithmeticPower,Value.transparent,if_pos ((zero_le_int b).mpr h)]
    exact exactValue_map hexact

theorem apply_uint_exact (floats : FloatOps) (op : Operation) (a b : UInt64) (s t : Option NewtypeValueId)
    (h : op.Applicable b.toNat) : ExactValue Value.uint (op.apply floats (.mk (.uint a) s) (.mk (.uint b) t))
      (op.result a.toNat b.toNat) := by
  cases op with
  | add => exact exactValue_map (unsignedAdd_exact a b)
  | subtract => exact exactValue_map (unsignedSubtract_exact a b)
  | multiply => exact exactValue_map (unsignedMultiply_exact a b)
  | modulo => exact exactValue_map (unsignedModulo_exact a b fun hb => h (by rw [hb]; rfl))
  | power => exact exactValue_map (unsignedPower_exact a b)

theorem negate_uint_exact (floats : FloatOps) (a : UInt64) (s : Option NewtypeValueId) :
    ExactValue Value.uint (negate floats (.mk (.uint a) s)) (-a.toNat) := by
  have hnegate : negate floats (.mk (.uint a) s) =
      (if a = 0 then .ok 0 else .error .underflow : Except Fault UInt64).map .uint := by
    simp only [negate,Value.transparent]
    split <;> rfl
  rw [hnegate]
  refine exactValue_map ?_
  split
  · next h =>
    rw [h]
    exact exact_ok rfl
  · next h =>
    have hne : a.toNat ≠ 0 := fun hz => h (UInt64.toNat_inj.mp hz)
    exact exact_underflow (by decide) (show -(a.toNat : ℤ) < 0 by omega)

/-- On two ints or two uints, with any newtype tags, every operation is exact. -/
theorem integer_operations_exact (floats : FloatOps) :
    (∀ (op : Operation) (a b : Int64) (s t : Option NewtypeValueId), op.Applicable b.toInt →
      ExactValue Value.int (op.apply floats (.mk (.int a) s) (.mk (.int b) t)) (op.result a.toInt b.toInt)) ∧
    (∀ (op : Operation) (a b : UInt64) (s t : Option NewtypeValueId), op.Applicable b.toNat →
      ExactValue Value.uint (op.apply floats (.mk (.uint a) s) (.mk (.uint b) t)) (op.result a.toNat b.toNat)) ∧
    (∀ (a : Int64) (s : Option NewtypeValueId), ExactValue Value.int (negate floats (.mk (.int a) s)) (-a.toInt)) ∧
    (∀ (a : UInt64) (s : Option NewtypeValueId), ExactValue Value.uint (negate floats (.mk (.uint a) s)) (-a.toNat)) ∧
    (∀ (a step : Int64) (s : Option NewtypeValueId),
      ExactValue Value.int (stepBy floats (.mk (.int a) s) step) (a.toInt+step.toInt)) ∧
    (∀ (a : UInt64) (step : Int64) (s : Option NewtypeValueId),
      ExactValue Value.uint (stepBy floats (.mk (.uint a) s) step) (a.toNat+step.toInt)) :=
  ⟨apply_int_exact floats,apply_uint_exact floats,fun a _ => exactValue_map (checkedNeg_exact a),
    negate_uint_exact floats,fun a step _ => exactValue_map (stepInt_exact a step),
    fun a step _ => exactValue_map (stepUint_exact a step)⟩

/-- `(-2) ** 63` is `i64::MIN`. -/
theorem integer_operations_exact_min :
    ExactValue Value.int (Operation.power.apply default (.int (-2)) (.int 63)) (-2 ^ 63) :=
  (integer_operations_exact default).1 .power (-2) 63 none none (by show (0 : ℤ) ≤ _; decide)

end

end Whim.Arithmetic
