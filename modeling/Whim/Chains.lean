import Mathlib.Algebra.Order.Ring.Nat

/-!
# Chains of links

Positions are linked or ends. A chain follows the links to the first end, if it neither leaves the positions nor runs
in circles.
-/

namespace Whim.Chains

variable {size : ℕ} {link : ℕ → Option ℕ} {i j t u : ℕ} {path : List ℕ}

/-- The chain from a position ends at another. -/
inductive Reaches (size : ℕ) (link : ℕ → Option ℕ) : ℕ → ℕ → Prop
  | stop {i : ℕ} (hi : i < size) (hlink : link i = none) : Reaches size link i i
  | follow {i j t : ℕ} (hi : i < size) (hlink : link i = some j) (h : Reaches size link j t) : Reaches size link i t

theorem Reaches.ends (h : Reaches size link i t) : t < size ∧ link t = none := by
  induction h with
  | stop hi hl => exact ⟨hi,hl⟩
  | follow _ _ _ ih => exact ih

theorem Reaches.start (h : Reaches size link i t) : i < size := by
  cases h with
  | stop hi => exact hi
  | follow hi => exact hi

theorem reaches_of_link (hi : i < size) (hl : link i = some j) : Reaches size link i t ↔ Reaches size link j t := by
  refine ⟨fun h => ?_,.follow hi hl⟩
  cases h with
  | stop _ hn => cases hl.symm.trans hn
  | follow _ hl' h =>
    cases hl.symm.trans hl'
    exact h

theorem reaches_of_end (hi : i < size) (hl : link i = none) : Reaches size link i t ↔ i = t := by
  refine ⟨fun h => ?_,fun h => h ▸ .stop hi hl⟩
  cases h with
  | stop => rfl
  | follow _ hl' => cases hl.symm.trans hl'

theorem Reaches.unique (h : Reaches size link i t) (h' : Reaches size link i u) : t = u := by
  induction h with
  | stop hi hl => exact (reaches_of_end hi hl).mp h'
  | follow hi hl _ ih => exact ih ((reaches_of_link hi hl).mp h')

/-- The positions passed on the way to the current one, the last one first. -/
inductive Trail (size : ℕ) (link : ℕ → Option ℕ) : ℕ → List ℕ → Prop
  | start (i : ℕ) : Trail size link i []
  | pass {i j : ℕ} {path : List ℕ} (hi : i < size) (hlink : link i = some j) (h : Trail size link i path) :
      Trail size link j (i::path)

section
variable (h : Trail size link j path)
include h

/-- Every position passed has the end of the current one. -/
theorem Trail.reaches_iff (hi : i ∈ path) : Reaches size link i t ↔ Reaches size link j t := by
  induction h with
  | start => cases hi
  | pass hp hl _ ih =>
    rw [← reaches_of_link hp hl]
    cases hi with
    | head => exact Iff.rfl
    | tail _ hi => exact ih hi

theorem Trail.linked (hi : i ∈ path) : ∃ k, link i = some k ∧ (k ∈ path ∨ k = j) := by
  induction h with
  | start => cases hi
  | @pass _ j _ _ hl _ ih =>
    cases hi with
    | head => exact ⟨j,hl,.inr rfl⟩
    | tail _ hi =>
      obtain ⟨k,hk,hmem | rfl⟩ := ih hi
      · exact ⟨k,hk,.inl (.tail _ hmem)⟩
      · exact ⟨k,hk,.inl (.head _)⟩

/-- A trail that has come back to one of its positions reaches no end. -/
theorem Trail.no_end (hj : j ∈ path) : ¬Reaches size link i t ∨ i ∉ path := by
  by_contra hcontra
  push Not at hcontra
  obtain ⟨hreach,hi⟩ := hcontra
  induction hreach with
  | stop _ hl =>
    obtain ⟨k,hk,-⟩ := h.linked hi
    cases hl.symm.trans hk
  | follow _ hl _ ih =>
    obtain ⟨k,hk,hmem | rfl⟩ := h.linked hi <;> cases hl.symm.trans hk
    · exact ih hmem
    · exact ih hj

end

/-- Linking positions directly to the end of their chains keeps every end. -/
theorem reaches_of_shortcuts {link' : ℕ → Option ℕ}
    (h : ∀ i, link' i = link i ∨ link i ≠ none ∧ ∃ t, Reaches size link i t ∧ link' i = some t) :
    Reaches size link' i t ↔ Reaches size link i t := by
  have hend : ∀ j, link' j = none ↔ link j = none := by
    intro j
    rcases h j with heq | ⟨hl,t,-,heq⟩
    · rw [heq]
    · simp [heq,hl]
  constructor <;> intro hreach
  · induction hreach with
    | stop hi hl => exact .stop hi ((hend _).mp hl)
    | @follow i j t hi hl _ ih =>
      rcases h i with heq | ⟨-,u,hu,heq⟩
      · exact .follow hi (heq ▸ hl) ih
      · cases heq.symm.trans hl
        exact (reaches_of_end hu.ends.1 hu.ends.2).mp ih ▸ hu
  · induction hreach with
    | stop hi hl => exact .stop hi ((hend _).mpr hl)
    | @follow i j t hi hl hreach ih =>
      rcases h i with heq | ⟨-,u,hu,heq⟩
      · exact .follow hi (heq.trans hl) ih
      · obtain rfl : u = t := hu.unique (.follow hi hl hreach)
        exact .follow hi heq (.stop hu.ends.1 ((hend u).mpr hu.ends.2))

end Whim.Chains
