import Whim.OrderedMap

/-!
# Shapes of lists and maps

A shape fixes what stands at the leading positions of a list, or under certain keys of a map, and may restrict the
rest.
-/

namespace Whim.Shape

open OrderedMap Option List

section

variable {α : Type}

/-- Each element satisfies the predicate at its position. -/
def Zips (fixed : List (α → Prop)) (xs : List α) : Prop :=
  ∀ (i : ℕ) (P : α → Prop) (x : α), fixed[i]? = some P → xs[i]? = some x → P x

structure Fits (fixed : List (α → Prop)) (rest : Option (α → Prop)) (xs : List α) : Prop where
  length_le : fixed.length ≤ xs.length
  length_eq : rest = none → xs.length = fixed.length
  at_fixed : Zips fixed xs
  at_rest : ∀ (i : ℕ) (R : α → Prop) (x : α), fixed.length ≤ i → rest = some R → xs[i]? = some x → R x

variable {fi fi' : List (α → Prop)} {rest r' : Option (α → Prop)} {xs : List α}

/-- Shapes given by one list of parts are compared part by part on the elements of the list. -/
theorem Fits.map_imp {ι : Type} {parts : List ι} (rest : Option ι) {P Q : ι → α → Prop}
    (h : Fits (parts.map P) (rest.map P) xs) (himp : ∀ i ∈ parts++rest.toList, ∀ x ∈ xs, P i x → Q i x) :
    Fits (parts.map Q) (rest.map Q) xs where
  length_le := by simpa using h.length_le
  length_eq hr := by
    rw [length_map]
    simpa using h.length_eq (by simpa using hr)
  at_fixed k R x hR hx := by
    rw [getElem?_map] at hR
    obtain ⟨i,hi,rfl⟩ := map_eq_some_iff.mp hR
    refine himp i (mem_append_left _ (mem_of_getElem? hi)) x (mem_of_getElem? hx) ?_
    exact h.at_fixed k (P i) x (by rw [getElem?_map,hi,map_some]) hx
  at_rest k R x hk hR hx := by
    obtain ⟨i,hi,rfl⟩ := map_eq_some_iff.mp hR
    refine himp i (mem_append_right _ (by simp [hi])) x (mem_of_getElem? hx) ?_
    exact h.at_rest k (P i) x (by simpa using hk) (by rw [hi,map_some]) hx

end

section

variable {K V : Type} [BEq K]

structure FitsKeys (fixed : List (K × (V → Prop))) (rest : Option ((K → Prop) × (V → Prop))) (m : List (K × V)) :
    Prop where
  length_le : fixed.length ≤ m.length
  length_eq : rest = none → m.length = fixed.length
  at_fixed : ∀ f ∈ fixed, ∃ x, lookup m f.1 = some x ∧ f.2 x
  at_rest : ∀ R, rest = some R → ∀ e ∈ m, (∃ f ∈ fixed, (e.1 == f.1) = true) ∨ R.1 e.1 ∧ R.2 e.2

variable {fi fi' : List (K × (V → Prop))} {rest r' : Option ((K → Prop) × (V → Prop))} {m : List (K × V)}

/-- Shapes given by one list of keyed parts are compared part by part on the entries of the map. -/
theorem FitsKeys.map_imp {ι : Type} {parts : List (K × ι)} {rest : Option (ι × ι)} {P Q : ι → V → Prop}
    {A B : ι → K → Prop} (h : FitsKeys (parts.map fun f => (f.1,P f.2)) (rest.map fun r => (A r.1,P r.2)) m)
    (himp : ∀ f ∈ parts, ∀ e ∈ m, P f.2 e.2 → Q f.2 e.2)
    (hrest : ∀ r, rest = some r → ∀ e ∈ m, (A r.1 e.1 → B r.1 e.1) ∧ (P r.2 e.2 → Q r.2 e.2)) :
    FitsKeys (parts.map fun f => (f.1,Q f.2)) (rest.map fun r => (B r.1,Q r.2)) m where
  length_le := by simpa using h.length_le
  length_eq hr := by
    rw [length_map]
    simpa using h.length_eq (by simpa using hr)
  at_fixed g hg := by
    obtain ⟨f,hf,rfl⟩ := mem_map.mp hg
    obtain ⟨x,hx,hP⟩ := h.at_fixed _ (mem_map_of_mem hf)
    obtain ⟨k,hk,-⟩ := lookup_some hx
    exact ⟨x,hx,himp f hf _ hk hP⟩
  at_rest R hR e he := by
    obtain ⟨r,hr,rfl⟩ := map_eq_some_iff.mp hR
    rcases h.at_rest _ (by rw [hr,map_some]) e he with ⟨g,hg,heg⟩ | ⟨hkey,hv⟩
    · obtain ⟨f,hf,rfl⟩ := mem_map.mp hg
      exact .inl ⟨_,mem_map_of_mem hf,heg⟩
    · exact .inr ⟨(hrest r hr e he).1 hkey,(hrest r hr e he).2 hv⟩

variable [EquivBEq K]

end

end Whim.Shape
