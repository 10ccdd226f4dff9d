import Mathlib.Algebra.Order.Ring.Nat
import Mathlib.Data.List.Basic

/-!
# Heap order in a list

The children of position `i` are `2 * i + 1` and `2 * i + 2`. A value is put into a position by moving others along a
path; what the path has to be for the list to be in heap order again.
-/

namespace Whim.HeapOrder

open List

variable {α : Type} {r : α → α → Prop} {xs : List α} {v x y : α} {c i j k limit : ℕ} {path : List ℕ}

def parent (i : ℕ) : ℕ := (i-1) / 2

theorem parent_lt (h : 0 < i) : parent i < i := by
  unfold parent
  omega

theorem children (h : 0 < j) (hparent : parent j = i) : j = i*2+1 ∨ j = i*2+2 := by
  unfold parent at hparent
  omega

theorem parent_left (i : ℕ) : parent (i*2+1) = i := by
  unfold parent
  omega

theorem parent_right (i : ℕ) : parent (i*2+1+1) = i := by
  unfold parent
  omega

/-- Positions whose parent is at least `k` hold values that come after those of their parents. -/
def OrderedFrom (r : α → α → Prop) (k : ℕ) (xs : List α) : Prop :=
  ∀ i x y, 0 < i → k ≤ parent i → xs[parent i]? = some x → xs[i]? = some y → r x y

/-! ## The first value -/

theorem root_first (htrans : ∀ x y z, r x y → r y z → r x z) (hrefl : ∀ x, r x x) (h : OrderedFrom r 0 xs)
    (hx : xs[0]? = some x) (hy : y ∈ xs) : r x y := by
  obtain ⟨i,hi⟩ := mem_iff_getElem?.mp hy
  induction i using Nat.strong_induction_on generalizing y with
  | _ i ih =>
  rcases Nat.eq_zero_or_pos i with rfl | hpos
  · rw [hx] at hi
    cases hi
    exact hrefl x
  · have hlt : parent i < xs.length := by
      have hlen := (List.getElem?_eq_some_iff.mp hi).1
      exact Nat.lt_trans (parent_lt hpos) hlen
    have hparent : xs[parent i]? = some xs[parent i] := getElem?_eq_getElem hlt
    exact htrans x _ y (ih (parent i) (parent_lt hpos) (getElem_mem hlt) hparent)
      (h i _ y hpos (Nat.zero_le _) hparent hi)

/-! ## Moving values along a path -/

/-- The value of each position of the path goes to the position before it, and `v` to the last. -/
def shift (v : α) : List α → ℕ → List ℕ → List α
  | xs, c, [] => xs.set c v
  | xs, c, next::path =>
    match xs[next]? with
    | some y => shift v (xs.set c y) next path
    | none => xs.set c v

theorem shift_step (h : xs[j]? = some y) : shift v xs c (j::path) = shift v (xs.set c y) j path := by
  rw [shift,h]

theorem shift_perm (hc : c < xs.length) (hp : ∀ j ∈ path, j < xs.length) : (shift v xs c path).Perm (xs.set c v) := by
  induction path generalizing xs c with
  | nil => exact List.Perm.refl _
  | cons j _ ih =>
    obtain ⟨hj,hp⟩ := forall_mem_cons.mp hp
    rw [shift_step (getElem?_eq_getElem hj)]
    refine (ih (by simpa using hj) (by simpa using hp)).trans ?_
    by_cases hne : c = j
    · rw [hne,set_set]
    · have hperm := set_set_perm (length_set.symm ▸ hc : c < (xs.set c v).length) (length_set.symm ▸ hj)
      rwa [getElem_set_ne hne,getElem_set_self,set_set] at hperm

theorem eq_of_set (h : (xs.set c x)[c]? = some y) : y = x := by
  obtain ⟨hlt,hy⟩ := List.getElem?_eq_some_iff.mp h
  rw [getElem_set_self] at hy
  exact hy.symm

theorem of_set_ne (hne : i ≠ c) (h : (xs.set c x)[i]? = some y) : xs[i]? = some y := by
  rwa [getElem?_set_ne hne.symm] at h

/-! ## Upwards -/

/-- The path of a value that rises from position `i` past the parents that come after it. -/
inductive Climbs (r : α → α → Prop) (xs : List α) (v : α) : ℕ → List ℕ → Prop
  | root : Climbs r xs v 0 []
  | stop {i : ℕ} {x : α} (hpos : 0 < i) (hx : xs[parent i]? = some x) (h : r x v) : Climbs r xs v i []
  | step {i : ℕ} {x : α} {path : List ℕ} (hpos : 0 < i) (hx : xs[parent i]? = some x) (h : r v x)
      (hpath : Climbs r xs v (parent i) path) : Climbs r xs v i (parent i::path)

theorem Climbs.congr {ys : List α} (h : Climbs r xs v i path) (hsame : ∀ j, j < i → ys[j]? = xs[j]?) :
    Climbs r ys v i path := by
  induction h with
  | root => exact .root
  | stop hpos hx h => exact .stop hpos ((hsame _ (parent_lt hpos)).trans hx) h
  | step hpos hx h _ ih =>
    exact .step hpos ((hsame _ (parent_lt hpos)).trans hx) h
      (ih fun j hj => hsame j (Nat.lt_trans hj (parent_lt hpos)))

theorem Climbs.mem_lt (h : Climbs r xs v c path) : ∀ j ∈ path, j < c := by
  induction h with
  | root => exact forall_mem_nil _
  | stop => exact forall_mem_nil _
  | step hpos _ _ _ ih =>
    have hlt := parent_lt hpos
    exact forall_mem_cons.mpr ⟨hlt,fun j hj => Nat.lt_trans (ih j hj) hlt⟩

/-- A value that fits its parent and its children settles. -/
theorem ordered_set (helsewhere : ∀ i x y, 0 < i → k ≤ parent i → i ≠ c → parent i ≠ c → xs[parent i]? = some x →
      xs[i]? = some y → r x y) (habove : ∀ x, 0 < c → k ≤ parent c → xs[parent c]? = some x → r x v)
    (hbelow : ∀ i y, 0 < i → parent i = c → xs[i]? = some y → r v y) : OrderedFrom r k (xs.set c v) := by
  intro i x y hpos hk hx hy
  have hup := parent_lt hpos
  by_cases hic : i = c
  · subst hic
    cases eq_of_set hy
    exact habove x hpos hk (of_set_ne (by omega) hx)
  · have hy := of_set_ne hic hy
    by_cases hchild : parent i = c
    · rw [hchild] at hx
      cases eq_of_set hx
      exact hbelow i y hpos hchild hy
    · exact helsewhere i x y hpos hk hic hchild (of_set_ne hchild hx) hy

/-- The list is in heap order but for position `c`, where `v` may only be too small. -/
structure Rising (r : α → α → Prop) (xs : List α) (c : ℕ) (v : α) : Prop where
  off : ∀ i x y, 0 < i → i ≠ c → parent i ≠ c → xs[parent i]? = some x → xs[i]? = some y → r x y
  around : ∀ i x y, 0 < c → 0 < i → parent i = c → xs[parent c]? = some x → xs[i]? = some y → r x y
  below : ∀ i y, 0 < i → parent i = c → xs[i]? = some y → r v y

theorem Rising.append (h : OrderedFrom r 0 xs) : Rising r (xs++[v]) xs.length v := by
  have hchild : ∀ i y, 0 < i → parent i = xs.length → (xs++[v])[i]? = some y → False := by
    intro i y hpos hparent hy
    have hlen := (List.getElem?_eq_some_iff.mp hy).1
    have hlt := parent_lt hpos
    simp only [length_append,length_singleton] at hlen
    omega
  refine ⟨fun i x y hpos hi hparent hx hy => ?_,fun i x y _ hpos hparent _ hy => ?_,fun i y hpos hparent hy => ?_⟩
  · have hlen := (List.getElem?_eq_some_iff.mp hy).1
    have hlt := parent_lt hpos
    simp only [length_append,length_singleton] at hlen
    rw [getElem?_append_left (by omega)] at hx hy
    exact h i x y hpos (Nat.zero_le _) hx hy
  · exact (hchild i y hpos hparent hy).elim
  · exact (hchild i y hpos hparent hy).elim

theorem Rising.step (htrans : ∀ x y z, r x y → r y z → r x z) (h : Rising r xs c v) (hpos : 0 < c)
    (hx : xs[parent c]? = some x) (hv : r v x) : Rising r (xs.set c x) (parent c) v := by
  have hup := parent_lt hpos
  -- The parent's other child comes after it, and so does the position the parent's value moves to.
  have hsibling : ∀ i z, 0 < i → i ≠ c → parent i = parent c → xs[i]? = some z → r x z := by
    intro i z hi hne hparent hz
    refine h.off i x z hi hne ?_ (hparent ▸ hx) hz
    omega
  refine ⟨fun i y z hi hne hparent hy hz => ?_,fun i y z hc hi hparent hy hz => ?_,fun i z hi hparent hz => ?_⟩
  · have hic : i ≠ c := fun heq => hparent (heq ▸ rfl)
    have hz := of_set_ne hic hz
    by_cases hchild : parent i = c
    · rw [hchild] at hy
      cases eq_of_set hy
      exact h.around i x z hpos hi hchild hx hz
    · exact h.off i y z hi hic hchild (of_set_ne hchild hy) hz
  · have hgrand := parent_lt hc
    have hy := of_set_ne (by omega) hy
    have hyx : r y x := h.off (parent c) y x hc (by omega) (by omega) hy hx
    by_cases hic : i = c
    · rw [hic] at hz
      cases eq_of_set hz
      exact hyx
    · exact htrans y x z hyx (hsibling i z hi hic hparent (of_set_ne hic hz))
  · by_cases hic : i = c
    · rw [hic] at hz
      cases eq_of_set hz
      exact hv
    · exact htrans v x z hv (hsibling i z hi hic hparent (of_set_ne hic hz))

theorem Rising.finish (h : Rising r xs c v) (hstop : ∀ x, 0 < c → xs[parent c]? = some x → r x v) :
    OrderedFrom r 0 (xs.set c v) :=
  ordered_set (fun i x y hpos _ => h.off i x y hpos) (fun x hpos _ => hstop x hpos) h.below

/-- Following the path of a rising value restores heap order. -/
theorem Climbs.ordered (htrans : ∀ x y z, r x y → r y z → r x z) (h : Climbs r xs v c path)
    (hrising : Rising r xs c v) : OrderedFrom r 0 (shift v xs c path) := by
  induction path generalizing xs c with
  | nil =>
    refine hrising.finish fun x hpos hx => ?_
    cases h with
    | root => exact absurd hpos (Nat.lt_irrefl 0)
    | stop _ hx' h =>
      rw [hx] at hx'
      cases hx'
      exact h
  | cons _ _ ih =>
    cases h with
    | @step _ x _ hpos hx hv hp =>
      rw [shift_step hx]
      refine ih (hp.congr fun j hj => ?_) (hrising.step htrans hpos hx hv)
      exact getElem?_set_ne (by have := parent_lt hpos; omega)

theorem Climbs.perm (h : Climbs r xs v c path) (hc : c < xs.length) : (shift v xs c path).Perm (xs.set c v) :=
  shift_perm hc fun j hj => (h.mem_lt j hj).trans hc

/-! ## Downwards -/

/-- The path of a value that sinks from position `i`, each time to the first of the children, past those that come
before it. Only positions below `limit` count. -/
inductive Sinks (r : α → α → Prop) (xs : List α) (limit : ℕ) (v : α) : ℕ → List ℕ → Prop
  | stop {i : ℕ} (h : ∀ j y, 0 < j → j < limit → parent j = i → xs[j]? = some y → r v y) : Sinks r xs limit v i []
  | step {i j : ℕ} {x : α} {path : List ℕ} (hpos : 0 < j) (hlimit : j < limit) (hparent : parent j = i)
      (hx : xs[j]? = some x) (h : r x v) (hfirst : ∀ j y, 0 < j → j < limit → parent j = i → xs[j]? = some y → r x y)
      (hpath : Sinks r xs limit v j path) : Sinks r xs limit v i (j::path)

theorem Sinks.congr {ys : List α} (h : Sinks r xs limit v i path)
    (hsame : ∀ j, i < j → j < limit → ys[j]? = xs[j]?) : Sinks r ys limit v i path := by
  induction h with
  | stop h =>
    refine .stop fun j y hpos hj hparent hy => h j y hpos hj hparent ?_
    rwa [hsame j (hparent ▸ parent_lt hpos) hj] at hy
  | step hpos hlimit hparent hx h hfirst _ ih =>
    have hbelow := parent_lt hpos
    refine .step hpos hlimit hparent ((hsame _ (hparent ▸ hbelow) hlimit).trans hx) h ?_ (ih fun k hk hlt => ?_)
    · intro k y hpos hk hchild hy
      rw [hsame k (hchild ▸ parent_lt hpos) hk] at hy
      exact hfirst k y hpos hk hchild hy
    · exact hsame k (by omega) hlt

theorem Sinks.mem_lt (h : Sinks r xs limit v c path) : ∀ j ∈ path, j < limit := by
  induction h with
  | stop => exact forall_mem_nil _
  | step _ hlimit _ _ _ _ _ ih => exact forall_mem_cons.mpr ⟨hlimit,ih⟩

/-- The list is in heap order from `k` on but for position `c`, where `v` may only be too large. -/
structure Sinking (r : α → α → Prop) (k : ℕ) (xs : List α) (c : ℕ) (v : α) : Prop where
  le : k ≤ c
  off : ∀ i x y, 0 < i → k ≤ parent i → i ≠ c → parent i ≠ c → xs[parent i]? = some x → xs[i]? = some y → r x y
  above : ∀ x, 0 < c → k ≤ parent c → xs[parent c]? = some x →
    r x v ∧ ∀ i y, 0 < i → parent i = c → xs[i]? = some y → r x y

theorem Sinking.start (h : OrderedFrom r (k+1) xs) : Sinking r k xs k v where
  le := Nat.le_refl k
  off := fun i x y hpos hk _ hparent hx hy => h i x y hpos (by omega) hx hy
  above := fun x hpos hk _ => by
    have := parent_lt hpos
    omega

theorem Sinking.step (h : Sinking r k xs c v) (hpos : 0 < j) (hparent : parent j = c) (hx : xs[j]? = some x)
    (hv : r x v) (hfirst : ∀ i y, 0 < i → parent i = c → xs[i]? = some y → r x y) : Sinking r k (xs.set c x) j v := by
  have hbelow := parent_lt hpos
  have hle := h.le
  refine ⟨by omega,fun i y z hi hk hne hnot hy hz => ?_,fun y _ hk hy => ?_⟩
  · by_cases hic : i = c
    · rw [hic] at hz hy hi hk
      cases eq_of_set hz
      have hup := parent_lt hi
      exact (h.above y hi hk (of_set_ne (by omega) hy)).2 j _ hpos hparent hx
    · have hz := of_set_ne hic hz
      by_cases hchild : parent i = c
      · rw [hchild] at hy
        cases eq_of_set hy
        exact hfirst i z hi hchild hz
      · exact h.off i y z hi hk hic hchild (of_set_ne hchild hy) hz
  · rw [hparent] at hy
    cases eq_of_set hy
    refine ⟨hv,fun i z hi hchild hz => ?_⟩
    have hup := parent_lt hi
    have hz := of_set_ne (by omega) hz
    exact h.off i _ z hi (by omega) (by omega) (by omega) (hchild ▸ hx) hz

theorem Sinking.finish (h : Sinking r k xs c v)
    (hstop : ∀ i y, 0 < i → parent i = c → xs[i]? = some y → r v y) : OrderedFrom r k (xs.set c v) :=
  ordered_set h.off (fun x hpos hk hx => (h.above x hpos hk hx).1) hstop

/-- Following the path of a sinking value restores heap order. -/
theorem Sinks.ordered (h : Sinks r xs xs.length v c path) (hsinking : Sinking r k xs c v) :
    OrderedFrom r k (shift v xs c path) := by
  have hlt : ∀ {ys : List α} {i y}, ys[i]? = some y → i < ys.length :=
    fun hy => (List.getElem?_eq_some_iff.mp hy).1
  induction path generalizing xs c with
  | nil =>
    cases h with
    | stop h => exact hsinking.finish fun i y hi hparent hy => h i y hi (hlt hy) hparent hy
  | cons next path ih =>
    cases h with
    | @step _ _ x _ hpos _ hparent hx hv hfirst hp =>
      have hbelow := parent_lt hpos
      rw [shift_step hx]
      have hp' : Sinks r (xs.set c x) (xs.set c x).length v next path := by
        rw [length_set]
        exact hp.congr fun i hi _ => getElem?_set_ne (by omega)
      exact ih hp' (hsinking.step hpos hparent hx hv fun i y hi hchild hy => hfirst i y hi (hlt hy) hchild hy)

theorem Sinks.perm (h : Sinks r xs xs.length v c path) (hc : c < xs.length) : (shift v xs c path).Perm (xs.set c v) :=
  shift_perm hc h.mem_lt

end Whim.HeapOrder
