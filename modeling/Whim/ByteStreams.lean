import Mathlib.Algebra.Order.Ring.Nat
import Mathlib.Data.List.Basic

/-!
# Byte strings in streams

The order of byte strings, numbers of a fixed width, and strings behind their length.
-/

namespace Whim.ByteStreams

open List

variable {a b c r r' : List UInt8}

/-- Byte strings are ordered byte by byte. -/
def byteLe : List UInt8 → List UInt8 → Bool
  | [], _ => true
  | _::_, [] => false
  | x::a, y::b => decide (x < y) || decide (x = y) && byteLe a b

theorem byteLe_iff : byteLe a b ↔ a ≤ b := by
  induction a generalizing b with
  | nil => simp [byteLe]
  | cons x a ih =>
    cases b with
    | nil => simp [byteLe]
    | cons => simp [byteLe,cons_le_cons_iff,ih]

theorem byteLe_total (a b : List UInt8) : (byteLe a b || byteLe b a) := by
  rw [Bool.or_eq_true,byteLe_iff,byteLe_iff]
  exact List.le_total a b

theorem byteLe_trans (hab : byteLe a b) (hbc : byteLe b c) : byteLe a c :=
  byteLe_iff.mpr (List.le_trans (byteLe_iff.mp hab) (byteLe_iff.mp hbc))

theorem byteLe_antisymm (hab : byteLe a b) (hba : byteLe b a) : a = b :=
  List.le_antisymm (byteLe_iff.mp hab) (byteLe_iff.mp hba)

/-- A number in so many bytes, the lowest first. -/
def littleEndian : ℕ → ℕ → List UInt8
  | 0, _ => []
  | w+1, n => UInt8.ofNat n::littleEndian w (n / 256)

@[simp] theorem length_littleEndian (w n : ℕ) : (littleEndian w n).length = w := by
  induction w generalizing n with
  | zero => rfl
  | succ w ih => exact congrArg Nat.succ (ih _)

theorem littleEndian_inj {w m n : ℕ} (hm : m < 256 ^ w) (hn : n < 256 ^ w) (h : littleEndian w m = littleEndian w n) :
    m = n := by
  induction w generalizing m n with
  | zero => omega
  | succ w ih =>
    obtain ⟨hlow,hhigh⟩ := cons.inj h
    have hlow' : m % 256 = n % 256 := congrArg UInt8.toNat hlow
    rw [pow_succ] at hm hn
    have hhigh' := ih (Nat.div_lt_of_lt_mul (by omega)) (Nat.div_lt_of_lt_mul (by omega)) hhigh
    omega

/-- A string behind its length. -/
def framed (a : List UInt8) : List UInt8 := littleEndian 8 a.length++a

theorem framed_inj (ha : a.length < 2 ^ 64) (hb : b.length < 2 ^ 64) (h : framed a++r = framed b++r') :
    a = b ∧ r = r' := by
  simp only [framed,append_assoc] at h
  obtain ⟨hlen,h⟩ := append_inj h (by simp)
  exact append_inj h (littleEndian_inj ha hb hlen)

end Whim.ByteStreams
