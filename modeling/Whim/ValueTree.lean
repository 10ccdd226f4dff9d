import Whim.DictEffects
import Whim.Value

/-!
# Values as trees

The values stored inside a value, and the invariant that every dictionary among them is well formed.
-/

namespace Whim

open List

/-- The values directly inside a payload. -/
def ValueView.children : ValueView Value → List Value
  | .vec v => v.elements
  | .dict d => d.iter.map (·.2)
  | .tuple elements => elements
  | _ => []

namespace Value

theorem sizeOf_lt_of_mem_children {view : ValueView Value} {tag : Option NewtypeValueId} {w : Value}
    (h : w ∈ view.children) : sizeOf w < sizeOf (Value.mk view tag) := by
  cases view with
  | vec v =>
    have hlt := sizeOf_lt_of_mem (show w ∈ v.elements from h)
    cases v
    simp at *
    omega
  | tuple es =>
    have hlt := sizeOf_lt_of_mem (show w ∈ es from h)
    simp
    omega
  | dict d =>
    obtain ⟨e,he,rfl⟩ := mem_map.mp h
    cases hp : d.packed with
    | none =>
      rw [DictObject.iter_indexed hp] at he
      obtain ⟨slot,hslot,hentry⟩ := mem_filterMap.mp he
      have hlt := sizeOf_lt_of_mem hslot
      cases slot with
      | vacant => cases hentry
      | occupied =>
        cases hentry
        cases d
        simp at *
        omega
    | some =>
      rw [DictObject.iter_packed hp] at he
      obtain ⟨i,hi,rfl⟩ := mem_mapIdx.mp he
      have hlt := sizeOf_lt_of_mem (getElem_mem hi)
      cases d
      simp at *
      subst hp
      simp
      omega
  | _ => cases h

/-- Induction over the values inside a value. -/
theorem induction {P : Value → Prop}
    (h : ∀ view tag, (∀ w ∈ view.children, P w) → P (.mk view tag)) (v : Value) : P v := by
  cases v with
  | mk view tag => exact h view tag fun w hw => induction h w
termination_by sizeOf v
decreasing_by
  subst_vars
  exact sizeOf_lt_of_mem_children hw

/-- Every dictionary inside the value is well formed. -/
inductive WF (hs : HashState) : Value → Prop
  | mk {view : ValueView Value} {tag : Option NewtypeValueId} (hchildren : ∀ w ∈ view.children, WF hs w)
    (hdict : ∀ d, view = .dict d → DictObject.WF hs d) : WF hs (.mk view tag)

variable {hs : HashState} {view : ValueView Value} {tag : Option NewtypeValueId}

theorem WF.children (h : WF hs (.mk view tag)) : ∀ w ∈ view.children, WF hs w := by
  cases h with
  | mk hchildren => exact hchildren

theorem WF.dict {d : DictObject Value} (h : WF hs (.mk (.dict d) tag)) : DictObject.WF hs d := by
  cases h with
  | mk _ hdict => exact hdict d rfl

end Value
end Whim
