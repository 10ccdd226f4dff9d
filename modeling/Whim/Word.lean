import Mathlib.Algebra.Order.Ring.Int
import Mathlib.Algebra.Order.Ring.Nat

/-!
# Machine words as integers

A word type represents the integers between two bounds. An exact operation returns the represented result or the side
on which it lies.
-/

namespace Whim

/-- A type of words, each standing for one integer between the bounds. -/
class Word (α : Type) where
  lo : ℤ
  hi : ℤ
  toInt : α → ℤ
  ofInt : ℤ → α
  toInt_mem : ∀ a, lo ≤ toInt a ∧ toInt a ≤ hi
  toInt_ofInt : ∀ n, lo ≤ n → n ≤ hi → toInt (ofInt n) = n
  ofInt_toInt : ∀ a, ofInt (toInt a) = a

namespace Word

variable {α ε : Type} [Word α]

instance : Word Int64 where
  lo := -2 ^ 63
  hi := 2 ^ 63-1
  toInt := Int64.toInt
  ofInt := Int64.ofInt
  toInt_mem a := ⟨a.le_toInt,by have := a.toInt_lt; omega⟩
  toInt_ofInt n hlo hhi := Int64.toInt_ofInt_of_le hlo (by omega)
  ofInt_toInt := Int64.ofInt_toInt

instance : Word UInt64 where
  lo := 0
  hi := 2 ^ 64-1
  toInt a := a.toNat
  ofInt n := UInt64.ofNat n.toNat
  toInt_mem a := ⟨by omega,by have := a.toNat_lt; omega⟩
  toInt_ofInt n hlo hhi := by
    rw [UInt64.toNat_ofNat_of_lt' (by simp only [UInt64.size]; omega)]
    omega
  ofInt_toInt a := by simp

/-- The word of an integer, if it has one. -/
def checked (n : ℤ) : Option α := if lo α ≤ n ∧ n ≤ hi α then some (ofInt n) else none

variable {n : ℤ}

theorem checked_eq_some {a : α} : checked n = some a ↔ toInt a = n := by
  unfold checked
  constructor
  · intro h
    split at h
    · next hn => rw [← Option.some.inj h,toInt_ofInt n hn.1 hn.2]
    · cases h
  · rintro rfl
    rw [if_pos (toInt_mem a),ofInt_toInt]

theorem checked_eq_none : (checked n : Option α) = none ↔ n < lo α ∨ hi α < n := by
  unfold checked
  split <;> simp <;> omega

/-- The result of a checked operation, with the fault to report otherwise. -/
def okOr (result : Option α) (fault : ε) : Except ε α := result.elim (.error fault) .ok

/-- An answer is exact for `n`: it is the word of `n`, or the fault of the side on which `n` lies. -/
structure Exact (overflow underflow : ε) (answer : Except ε α) (n : ℤ) : Prop where
  ok : ∀ a, answer = .ok a ↔ toInt a = n
  overflow : answer = .error overflow ↔ hi α < n
  underflow : answer = .error underflow ↔ n < lo α

variable {overflow underflow : ε}

theorem exact_ok {a : α} (h : toInt a = n) : Exact overflow underflow (.ok a : Except ε α) n := by
  have hmem := toInt_mem a
  refine ⟨fun b => ?_,?_,?_⟩
  · rw [← h]
    constructor
    · intro hab
      rw [Except.ok.inj hab]
    · intro hab
      rw [← ofInt_toInt a,← hab,ofInt_toInt]
  · simp only [reduceCtorEq,false_iff]
    omega
  · simp only [reduceCtorEq,false_iff]
    omega

theorem ne_toInt_of_lt (h : n < lo α ∨ hi α < n) (a : α) : toInt a ≠ n := by
  have := toInt_mem a
  omega

section
variable {n : ℤ} (hne : overflow ≠ underflow)
include hne

theorem exact_overflow (h : hi α < n) : Exact overflow underflow (.error overflow : Except ε α) n where
  ok a := by simp [ne_toInt_of_lt (.inr h) a]
  overflow := by simp [h]
  underflow := by
    have hbounds := toInt_mem (ofInt n : α)
    simp only [Except.error.injEq,hne,false_iff]
    omega

theorem exact_underflow (h : n < lo α) : Exact overflow underflow (.error underflow : Except ε α) n where
  ok a := by simp [ne_toInt_of_lt (.inl h) a]
  overflow := by
    have hbounds := toInt_mem (ofInt n : α)
    simp only [Except.error.injEq,Ne.symm hne,false_iff]
    omega
  underflow := by simp [h]

/-- A checked operation is exact when the fault it reports is that of the side left. -/
theorem exact_okOr {f : ε} (hover : hi α < n → f = overflow)
    (hunder : n < lo α → f = underflow) : Exact overflow underflow (okOr (checked n : Option α) f) n := by
  cases hchecked : (checked n : Option α) with
  | some => exact exact_ok (checked_eq_some.mp hchecked)
  | none =>
    rcases checked_eq_none.mp hchecked with h | h
    · rw [hunder h]
      exact exact_underflow hne h
    · rw [hover h]
      exact exact_overflow hne h

end

end Word
end Whim
