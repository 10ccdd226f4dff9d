import Mathlib.Data.Multiset.Count
import Mathlib.Algebra.Order.Ring.Nat

/-!
# Comparing lists by a test

Two lists of one length that hold every class of the first list equally often are permutations of each other up to the
classes.
-/

namespace Whim.Counting

open List

variable {α β : Type} {R : α → α → Bool} {f : α → β} {l r : List α}

section

variable {p : α → α → Bool}

theorem isEqv_iff : l.isEqv r p ↔ List.Forall₂ (fun x y => p x y) l r := by
  induction l generalizing r with
  | nil => cases r <;> simp
  | cons x l ih => cases r <;> simp [isEqv_cons_cons,ih]

theorem isEqv_refl (h : ∀ x ∈ l, p x x) : l.isEqv l p := isEqv_iff.mpr (forall₂_same.mpr h)

/-- Lists that pass the test are indistinguishable by it when this is so for their members. -/
theorem isEqv_class (hp : ∀ x ∈ l, ∀ y, p x y → p x = p y) (h : l.isEqv r p) (s : List α) :
    l.isEqv s p = r.isEqv s p := by
  induction l generalizing r s with
  | nil =>
    cases r with
    | nil => rfl
    | cons => simp at h
  | cons x l ih =>
    obtain ⟨hx,hl⟩ := forall_mem_cons.mp hp
    cases r with
    | nil => simp at h
    | cons y =>
      rw [isEqv_cons_cons,Bool.and_eq_true] at h
      cases s with
      | nil => rfl
      | cons => rw [isEqv_cons_cons,isEqv_cons_cons,hx y h.1,ih hl h.2]

end

/-- Every member of the first list is counted equally often in both. -/
def SameCounts (R : α → α → Bool) (l r : List α) : Prop :=
  l.length = r.length ∧ ∀ x ∈ l, l.countP (R x) = r.countP (R x)

theorem countP_eq_count [DecidableEq β] {x : α} (h : ∀ y ∈ l, R x y ↔ f x = f y) :
    l.countP (R x) = (l.map f).count (f x) := by
  rw [count_eq_countP,countP_map]
  refine countP_congr fun y hy => ?_
  rw [h y hy,Function.comp_apply,beq_iff_eq]
  exact eq_comm

theorem sameCounts_iff_perm (hl : ∀ x ∈ l, ∀ y ∈ l, R x y ↔ f x = f y)
    (hr : ∀ x ∈ l, ∀ y ∈ r, R x y ↔ f x = f y) : SameCounts R l r ↔ (l.map f).Perm (r.map f) := by
  classical
  constructor
  · rintro ⟨hlen,hcounts⟩
    have hle : (l.map f : Multiset β) ≤ (r.map f : Multiset β) := by
      refine Multiset.le_iff_count.mpr fun b => ?_
      by_cases hb : b ∈ l.map f
      · obtain ⟨x,hx,rfl⟩ := mem_map.mp hb
        rw [Multiset.coe_count,Multiset.coe_count,← countP_eq_count (hl x hx),← countP_eq_count (hr x hx),
          hcounts x hx]
      · rw [Multiset.coe_count,count_eq_zero_of_not_mem hb]
        exact Nat.zero_le _
    exact Multiset.coe_eq_coe.mp (Multiset.eq_of_le_of_card_le hle (by simp [hlen]))
  · intro hp
    refine ⟨by simpa using hp.length_eq,fun x hx => ?_⟩
    rw [countP_eq_count (hl x hx),countP_eq_count (hr x hx),hp.count_eq]

/-- What the classes of the members determine is permuted with them. -/
theorem perm_map_of_perm {γ : Type} {g : α → γ} (h : (l.map f).Perm (r.map f))
    (hfg : ∀ x ∈ l, ∀ y, f x = f y → g x = g y) : (l.map g).Perm (r.map g) := by
  have hr : Forall₂ (fun b y => b = f y) (r.map f) r :=
    forall₂_map_left_iff.mpr (forall₂_same.mpr fun _ _ => rfl)
  obtain ⟨m,hm,hp⟩ := perm_comp_forall₂ h hr
  have hg : Forall₂ (fun x y => g x = g y) l m :=
    ((forall₂_and_left l m).mpr ⟨hfg,forall₂_map_left_iff.mp hm⟩).imp fun x y hxy => hxy.1 y hxy.2
  have hmap : l.map g = m.map g := by
    rw [← forall₂_eq_eq_eq,forall₂_map_left_iff,forall₂_map_right_iff]
    exact hg
  exact hmap ▸ hp.map g

end Whim.Counting
