import Mathlib.Algebra.Order.Ring.Nat

/-!
# Programs that throw

Triples for programs that change a state and may throw, with the state at the throw kept.
-/

namespace Whim.Throwing

variable {ε σ α β : Type}

def Holds (returns : α → σ → Prop) (throws : ε → σ → Prop) : EStateM.Result ε σ α → Prop
  | .ok a s => returns a s
  | .error e s => throws e s

def Triple (pre : σ → Prop) (x : EStateM ε σ α) (returns : α → σ → Prop) (throws : ε → σ → Prop) : Prop :=
  ∀ s, pre s → Holds returns throws (x s)

/-- What a program returned or threw. -/
def outcome : EStateM.Result ε σ α → Except ε α
  | .ok a _ => .ok a
  | .error e _ => .error e

def final : EStateM.Result ε σ α → σ
  | .ok _ s => s
  | .error _ s => s

variable {pre pre' : σ → Prop} {x : EStateM ε σ α} {f : α → EStateM ε σ β} {returns returns' : α → σ → Prop}
  {throws throws' : ε → σ → Prop} {after : β → σ → Prop}

theorem Triple.weaken (h : Triple pre x returns throws) (hpre : ∀ s, pre' s → pre s)
    (hreturns : ∀ a s, returns a s → returns' a s) (hthrows : ∀ e s, throws e s → throws' e s) :
    Triple pre' x returns' throws' := by
  intro s hs
  have hx := h s (hpre s hs)
  generalize x s = result at hx
  cases result with
  | ok a t => exact hreturns a t hx
  | error e t => exact hthrows e t hx

theorem Triple.ensure (h : Triple pre x returns throws) (hreturns : ∀ a s, returns a s → returns' a s) :
    Triple pre x returns' throws := h.weaken (fun _ => id) hreturns fun _ _ => id

theorem Triple.pure {a : α} (h : ∀ s, pre s → returns a s) :
    Triple pre (Pure.pure a : EStateM ε σ α) returns throws := h

theorem Triple.bind (h : Triple pre x returns throws) (hf : ∀ a, Triple (returns a) (f a) after throws) :
    Triple pre (x >>= f) after throws := by
  intro s hs
  have hx := h s hs
  change Holds after throws (EStateM.bind x f s)
  unfold EStateM.bind
  generalize x s = result at hx
  cases result with
  | ok a t => exact hf a t hx
  | error => exact hx

theorem Triple.through (middle : α → σ → Prop) (h : Triple pre x middle throws)
    (hf : ∀ a, Triple (middle a) (f a) after throws) : Triple pre (x >>= f) after throws := h.bind hf

theorem Triple.ite {c : Prop} [Decidable c] {y : EStateM ε σ α}
    (hthen : c → Triple pre x returns throws) (helse : ¬c → Triple pre y returns throws) :
    Triple pre (if c then x else y) returns throws := by
  split
  next hc => exact hthen hc
  next hc => exact helse hc

/-- A fact that does not depend on the state. -/
theorem Triple.given {p : Prop} (h : p → Triple pre x returns throws) :
    Triple (fun s => pre s ∧ p) x returns throws := fun s hs => h hs.2 s hs.1

theorem Triple.get {after : σ → σ → Prop} (h : ∀ s, pre s → after s s) :
    Triple pre (MonadState.get : EStateM ε σ σ) after throws := h

theorem Triple.modify {g : σ → σ} {after : PUnit → σ → Prop} (h : ∀ s, pre s → after ⟨⟩ (g s)) :
    Triple pre (modify g : EStateM ε σ PUnit) after throws := h

end Whim.Throwing
