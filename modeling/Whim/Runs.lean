import Mathlib.Data.List.Basic

/-!
# Runs

A move that is not possible gives no state, and a run may have to meet a condition at every move. A trace is a chain of
moves with the events they show.
-/

namespace Whim

variable {σ μ : Type} {step : σ → μ → Option σ} {allowed : σ → μ → Prop} {start s s' : σ}

/-- The states of the runs whose moves are all allowed. -/
inductive Visits (step : σ → μ → Option σ) (allowed : σ → μ → Prop) (start : σ) : σ → Prop
  | start : Visits step allowed start start
  | move {s s' : σ} {m : μ} (h : Visits step allowed start s) (hallowed : allowed s m) (hstep : step s m = some s') :
      Visits step allowed start s'

namespace Visits

/-- The invariant rule. -/
theorem invariant {P : σ → Prop} (h : Visits step allowed start s) (hstart : P start)
    (hm : ∀ s m s', P s → allowed s m → step s m = some s' → P s') : P s := by
  induction h with
  | start => exact hstart
  | move _ hall hstep ih => exact hm _ _ _ ih hall hstep

/-- A list of moves that are always allowed. -/
theorem foldlM (h : Visits step allowed start s) (ms : List μ) (hallowed : ∀ m ∈ ms, ∀ s, allowed s m)
    (hmoves : ms.foldlM step s = some s') : Visits step allowed start s' := by
  induction ms generalizing s with
  | nil =>
    cases hmoves
    exact h
  | cons _ _ ih =>
    rw [List.forall_mem_cons] at hallowed
    rw [List.foldlM_cons] at hmoves
    obtain ⟨next,hstep,hr⟩ := Option.bind_eq_some_iff.mp hmoves
    exact ih (h.move (hallowed.1 s) hstep) hallowed.2 hr

end Visits

/-- A chain of moves, with all its events in their order. -/
inductive Trace {S E : Type} (move : S → List E → S → Prop) : S → List E → S → Prop
  | refl (s : S) : Trace move s [] s
  | snoc {s t u : S} {events more : List E} (h : Trace move s events t) (hmove : move t more u) :
      Trace move s (events++more) u

namespace Trace

variable {S E : Type} {move : S → List E → S → Prop} {s t u : S} {events more : List E}

theorem single (h : move s events t) : Trace move s events t := (refl s).snoc h

theorem trans (h : Trace move s events t) (h' : Trace move t more u) : Trace move s (events++more) u := by
  induction h' with
  | refl => simpa using h
  | snoc _ hm ih =>
    have := ih.snoc hm
    rwa [List.append_assoc] at this

/-- Moves without events change only the state. -/
theorem quiet (h : Trace move s [] t) (h' : Trace move t more u) : Trace move s more u := h.trans h'

theorem then_quiet (h : Trace move s events t) (h' : Trace move t [] u) : Trace move s events u := by
  simpa using h.trans h'

/-- The invariant rule: a property of the past and the state that every move keeps. -/
theorem invariant {P : List E → S → Prop}
    (hm : ∀ past t more u, P past t → move t more u → P (past++more) u) (h : Trace move s events t)
    (past : List E) (hs : P past s) : P (past++events) t := by
  induction h with
  | refl => simpa using hs
  | snoc _ hl ih =>
    have := hm _ _ _ _ ih hl
    rwa [List.append_assoc] at this

end Trace
end Whim
