import Mathlib.Algebra.Order.Ring.Nat
import Mathlib.Data.List.Basic

/-!
# The structural type-check cache of arrays

Arrays remember at most two structural checks that their entries have passed, or one together with the only slot
written since.
-/

namespace Whim

/-- The interned id of one structural check (`ArrayTypeCheckId`). -/
abbrev ArrayTypeCheckId := UInt32

inductive ArrayTypeCheck
  | unknown
  | clean (id : ArrayTypeCheckId)
  | dirty (id : ArrayTypeCheckId) (slot : UInt32)
  deriving DecidableEq, Repr

inductive ArrayTypeCheckStateKind
  | unknown | cleanOne | cleanTwo | dirty
  deriving DecidableEq, Repr

structure ArrayTypeCheckCache where
  primary : UInt32
  secondary : UInt32
  slot : UInt32
  kind : ArrayTypeCheckStateKind
  deriving DecidableEq, Repr

/-- `u32::try_from` on a `usize`. -/
def u32TryFrom (n : ℕ) : Option UInt32 :=
  if n < 2 ^ 32 then some (UInt32.ofNat n) else none

variable {n : ℕ}

theorem u32TryFrom_some {s : UInt32} (h : u32TryFrom n = some s) : s.toNat = n := by
  unfold u32TryFrom at h
  split at h
  · next hn =>
    cases h
    exact UInt32.toNat_ofNat_of_lt hn
  · cases h

theorem u32TryFrom_of_lt (h : n < 2 ^ 32) : u32TryFrom n = some (UInt32.ofNat n) :=
  if_pos h

theorem u32TryFrom_of_ge (h : 2 ^ 32 ≤ n) : u32TryFrom n = none :=
  if_neg (Nat.not_lt.mpr h)

namespace ArrayTypeCheckCache

def new : ArrayTypeCheckCache := ⟨0,0,0,.unknown⟩

def get (c : ArrayTypeCheckCache) (id : ArrayTypeCheckId) : ArrayTypeCheck :=
  match c.kind with
  | .cleanOne => if c.primary = id then .clean id else .unknown
  | .cleanTwo => if c.primary = id ∨ c.secondary = id then .clean id else .unknown
  | .dirty => if c.primary = id then .dirty id c.slot else .unknown
  | .unknown => .unknown

def markChecked (c : ArrayTypeCheckCache) (id : ArrayTypeCheckId) : ArrayTypeCheckCache :=
  match c.kind with
  | .unknown | .dirty => ⟨id,0,0,.cleanOne⟩
  | .cleanOne => if c.primary ≠ id then { c with secondary := id, kind := .cleanTwo } else c
  | .cleanTwo => if c.primary ≠ id ∧ c.secondary ≠ id then { c with primary := id } else c

def invalidate (_ : ArrayTypeCheckCache) : ArrayTypeCheckCache := new

def noteMutation (c : ArrayTypeCheckCache) (slot : ℕ) : ArrayTypeCheckCache :=
  match u32TryFrom slot with
  | none => c.invalidate
  | some slot =>
    match c.kind with
    | .unknown => c
    | .dirty => c.invalidate
    | .cleanOne | .cleanTwo => { c with secondary := 0, slot := slot, kind := .dirty }

def noteRemoval (c : ArrayTypeCheckCache) : ArrayTypeCheckCache :=
  if c.kind = .dirty then c.invalidate else c

/-- What the cache promises about an array whose slot `i` satisfies the check `id` exactly when
`sat id i` holds. -/
def Sound (sat : ArrayTypeCheckId → ℕ → Prop) (c : ArrayTypeCheckCache) : Prop :=
  match c.kind with
  | .unknown => True
  | .cleanOne => ∀ i, sat c.primary i
  | .cleanTwo => (∀ i, sat c.primary i) ∧ ∀ i, sat c.secondary i
  | .dirty => ∀ i, i ≠ c.slot.toNat → sat c.primary i

section

variable {sat sat' : ArrayTypeCheckId → ℕ → Prop} {c : ArrayTypeCheckCache} {id : ArrayTypeCheckId}

@[simp] theorem sound_new : new.Sound sat := trivial

@[simp] theorem sound_invalidate : c.invalidate.Sound sat := trivial

section
variable (h : c.Sound sat)
include h

theorem Sound.get_clean (hg : c.get id = .clean id) (i : ℕ) : sat id i := by
  rcases hk : c.kind <;> simp only [Sound,get,hk] at h hg
  · cases hg
  · split at hg
    · next hid => exact hid ▸ h i
    · cases hg
  · split at hg
    · next hid =>
      rcases hid with hid | hid
      · exact hid ▸ h.1 i
      · exact hid ▸ h.2 i
    · cases hg
  · split at hg <;> cases hg

theorem Sound.get_dirty {slot : UInt32} (hg : c.get id = .dirty id slot) {i : ℕ}
    (hi : i ≠ slot.toNat) : sat id i := by
  rcases hk : c.kind <;> simp only [Sound,get,hk] at h hg
  · cases hg
  · split at hg <;> cases hg
  · split at hg <;> cases hg
  split at hg
  · next hid =>
    cases hg
    exact hid ▸ h i hi
  · cases hg

theorem Sound.markChecked (hid : ∀ i, sat id i) : (c.markChecked id).Sound sat := by
  rcases hk : c.kind <;> simp only [ArrayTypeCheckCache.markChecked,hk]
  · exact hid
  · split
    · simp only [Sound,hk] at h
      exact ⟨h,hid⟩
    · exact h
  · split
    · simp only [Sound,hk] at h ⊢
      exact ⟨hid,h.2⟩
    · exact h
  · exact hid

/-- Writing one slot: every other slot keeps what it satisfied. -/
theorem Sound.noteMutation {slot : ℕ}
    (hframe : ∀ id i, i ≠ slot → sat id i → sat' id i) : (c.noteMutation slot).Sound sat' := by
  unfold ArrayTypeCheckCache.noteMutation
  split
  · exact sound_invalidate
  next hs =>
  have hslot := u32TryFrom_some hs
  rcases hk : c.kind <;> simp only [Sound,hk] at h ⊢
  · intro i hi
    exact hframe _ _ (hslot ▸ hi) (h i)
  · intro i hi
    exact hframe _ _ (hslot ▸ hi) (h.1 i)
  · trivial

/-- Removing entries: a check that every slot passed before is still passed by every slot. -/
theorem Sound.noteRemoval (hkeep : ∀ id, (∀ i, sat id i) → ∀ i, sat' id i) : c.noteRemoval.Sound sat' := by
  unfold ArrayTypeCheckCache.noteRemoval
  split
  · exact sound_invalidate
  next hd =>
  rcases hk : c.kind <;> simp only [Sound,hk] at h ⊢
  · exact hkeep _ h
  · exact ⟨hkeep _ h.1,hkeep _ h.2⟩
  · exact absurd hk hd

end

end

end ArrayTypeCheckCache
end Whim
