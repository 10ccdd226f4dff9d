import Mathlib.Algebra.Order.Ring.Nat
import Mathlib.Data.Nat.Find

/-!
# Positions after removal

A mask marks the elements of a list that are removed. The others move to the number of kept elements before them.
-/

namespace Whim.Mask

variable {mask : List Bool} {i j t : ℕ}

def Kept (mask : List Bool) (i : ℕ) : Prop := mask[i]? = some false

instance : Decidable (Kept mask i) := inferInstanceAs (Decidable (mask[i]? = some false))

/-- The number of kept elements before a position. -/
def position (mask : List Bool) (i : ℕ) : ℕ := (mask.take i).count false

/-- The first kept element at or after `t`. -/
def FirstKept (mask : List Bool) (t j : ℕ) : Prop := t ≤ j ∧ Kept mask j ∧ ∀ k, t ≤ k → k < j → ¬Kept mask k

theorem Kept.lt_length (h : Kept mask i) : i < mask.length := by
  obtain ⟨hi,-⟩ := List.getElem?_eq_some_iff.mp h
  exact hi

@[simp] theorem position_zero : position mask 0 = 0 := by simp [position]

theorem position_succ : position mask (i+1) = position mask i+if Kept mask i then 1 else 0 := by
  rw [position,List.take_add_one,List.count_append]
  split
  next h => rw [show mask[i]? = some false from h]; rfl
  next h =>
    rcases hi : mask[i]? with - | removed
    · rfl
    cases removed
    · exact absurd hi h
    · rfl

theorem position_succ_of_kept (h : Kept mask i) : position mask (i+1) = position mask i+1 := by
  rw [position_succ,if_pos h]

theorem position_succ_of_not_kept (h : ¬Kept mask i) : position mask (i+1) = position mask i := by
  rw [position_succ,if_neg h,Nat.add_zero]

theorem position_add_le (i d : ℕ) :
    position mask i ≤ position mask (i+d) ∧ position mask (i+d) ≤ position mask i+d := by
  induction d with
  | zero => exact ⟨le_rfl,le_rfl⟩
  | succ d =>
    have h : position mask (i+d+1) = _ := position_succ
    rw [← Nat.add_assoc]
    split at h <;> omega

theorem position_mono (h : i ≤ j) : position mask i ≤ position mask j := by
  obtain ⟨d,rfl⟩ := Nat.exists_eq_add_of_le h
  exact (position_add_le i d).1

/-- Removal does not move positions apart. -/
theorem position_le_add (h : i ≤ j) : position mask j ≤ position mask i+(j-i) := by
  obtain ⟨d,rfl⟩ := Nat.exists_eq_add_of_le h
  rw [Nat.add_sub_cancel_left]
  exact (position_add_le i d).2

theorem position_of_length_le (h : mask.length ≤ i) : position mask i = mask.count false := by
  rw [position,List.take_of_length_le h]

theorem position_le_count : position mask i ≤ mask.count false := (List.take_sublist i mask).count_le false

/-- Kept elements keep their order relative to every position. -/
theorem position_le_iff (h : Kept mask i) : position mask t ≤ position mask i ↔ t ≤ i := by
  constructor
  · intro hle
    by_contra hlt
    have hmono : position mask (i+1) ≤ position mask t := position_mono (by omega)
    rw [position_succ_of_kept h] at hmono
    omega
  · exact position_mono

/-- Every position below the number of kept elements is taken. -/
theorem exists_kept {p : ℕ} (h : p < position mask t) : ∃ i < t, Kept mask i ∧ position mask i = p := by
  induction t with
  | zero => simp at h
  | succ t ih =>
    by_cases hp : p < position mask t
    · obtain ⟨i,hi,hk⟩ := ih hp
      exact ⟨i,by omega,hk⟩
    by_cases hk : Kept mask t
    · rw [position_succ_of_kept hk] at h
      exact ⟨t,by omega,hk,by omega⟩
    · rw [position_succ_of_not_kept hk] at h
      exact absurd h hp

theorem FirstKept.position_eq (h : FirstKept mask t j) : position mask t = position mask j := by
  obtain ⟨d,rfl⟩ := Nat.exists_eq_add_of_le h.1
  have key : ∀ e ≤ d, position mask (t+e) = position mask t := by
    intro e he
    induction e with
    | zero => rfl
    | succ e ih =>
      rw [← Nat.add_assoc,position_succ_of_not_kept (h.2.2 (t+e) (by omega) (by omega)),ih (by omega)]
  exact (key d le_rfl).symm

/-- When the last element stays, every position of the list has a kept element at or after it. -/
theorem exists_firstKept (hl : mask.getLast? ≠ some true) (ht : t < mask.length) : ∃ j, FirstKept mask t j := by
  have hex : ∃ d, Kept mask (t+d) := by
    refine ⟨mask.length-1-t,?_⟩
    rw [List.getLast?_eq_getElem?] at hl
    unfold Kept
    rw [show t+(mask.length-1-t) = mask.length-1 by omega]
    rw [List.getElem?_eq_getElem (show mask.length-1 < mask.length by omega)] at hl ⊢
    simpa using hl
  refine ⟨t+Nat.find hex,by omega,Nat.find_spec hex,fun k hk hlt hkept => ?_⟩
  obtain ⟨d,rfl⟩ := Nat.exists_eq_add_of_le hk
  exact Nat.find_min hex (show d < Nat.find hex by omega) hkept

end Whim.Mask
