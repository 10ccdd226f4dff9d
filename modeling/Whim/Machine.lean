import Mathlib.Algebra.Order.Ring.Nat
import Mathlib.Data.List.Basic

/-!
# Loops as machines

A loop is a step function that moves to another state or returns. It is executed with fuel.
-/

namespace Whim.Machine

variable {σ ρ : Type}

def run (step : σ → σ ⊕ ρ) : ℕ → σ → Option ρ
  | 0, _ => none
  | n+1, s =>
    match step s with
    | .inl s' => run step n s'
    | .inr r => some r

inductive Reaches (step : σ → σ ⊕ ρ) : σ → σ → Prop
  | refl (s : σ) : Reaches step s s
  | head {s t u : σ} (hs : step s = .inl t) (h : Reaches step t u) : Reaches step s u

/-- Some fuel makes the loop return `r` from `s`. -/
def Returns (step : σ → σ ⊕ ρ) (s : σ) (r : ρ) : Prop := ∃ n, run step n s = some r

variable {step : σ → σ ⊕ ρ} {s t u : σ} {r r' : ρ}

theorem Reaches.one (hs : step s = .inl t) : Reaches step s t := .head hs (.refl t)

theorem Reaches.trans (h : Reaches step s t) (g : Reaches step t u) : Reaches step s u := by
  induction h with
  | refl => exact g
  | head hs _ ih => exact .head hs (ih g)

theorem Returns.of_step (hs : step s = .inr r) : Returns step s r := ⟨1,by simp [run,hs]⟩

theorem Returns.head (hs : step s = .inl t) (h : Returns step t r) : Returns step s r := by
  obtain ⟨n,hn⟩ := h
  exact ⟨n+1,by simp [run,hs,hn]⟩

theorem Reaches.returns (h : Reaches step s t) (hr : Returns step t r) : Returns step s r := by
  induction h with
  | refl => exact hr
  | head hs _ ih => exact Returns.head hs (ih hr)

/-- More fuel does not change the result. -/
theorem run_mono {n m : ℕ} (h : run step n s = some r) (hnm : n ≤ m) : run step m s = some r := by
  induction n generalizing s m with
  | zero => simp [run] at h
  | succ n ih =>
    obtain ⟨m,rfl⟩ : ∃ k, m = k+1 := ⟨m-1,by omega⟩
    simp only [run] at h ⊢
    cases hs : step s with
    | inl =>
      rw [hs] at h
      exact ih h (by omega)
    | inr => simpa [hs] using h

theorem Returns.unique (h : Returns step s r) (h' : Returns step s r') : r = r' := by
  obtain ⟨n,hn⟩ := h
  obtain ⟨m,hm⟩ := h'
  have hn' := run_mono hn (Nat.le_max_left n m)
  rw [run_mono hm (Nat.le_max_right n m)] at hn'
  exact (Option.some_inj.mp hn').symm

end Whim.Machine
