import Whim.TypeCheckCache

/-!
# The vector object

A growable vector of values. Every mutator notes the written slot, notes a removal, or invalidates the cache.
-/

namespace Whim

open List

structure VecObject (V : Type) where
  elements : List V
  typeCheck : ArrayTypeCheckCache

namespace VecObject

variable {V : Type}

def withElements (elements : List V) : VecObject V := ⟨elements,ArrayTypeCheckCache.new⟩

def new : VecObject V := withElements []

variable (v : VecObject V)

def len : ℕ := v.elements.length

def isEmpty : Bool := v.elements.isEmpty

def get (index : ℕ) : Option V := v.elements[index]?

/-- `get_mut` followed by one write through the reference; returns the value before it. -/
def getMut (index : ℕ) (write : V → V) : Option V × VecObject V :=
  match v.elements[index]? with
  | none => (none,v)
  | some value => (some value,⟨v.elements.set index (write value),v.typeCheck.noteMutation index⟩)

def set (index : ℕ) (value : V) : Option V × VecObject V :=
  match v.elements[index]? with
  | none => (none,v)
  | some previous => (some previous,⟨v.elements.set index value,v.typeCheck.noteMutation index⟩)

def push (value : V) : VecObject V := ⟨v.elements++[value],v.typeCheck.noteMutation v.elements.length⟩

def remove (index : ℕ) : Option V × VecObject V :=
  match v.elements[index]? with
  | none => (none,v)
  | some value => (some value,⟨v.elements.eraseIdx index,v.typeCheck.noteRemoval⟩)

/-- The last element takes the place of the removed one. -/
def swapRemove (index : ℕ) : Option V × VecObject V :=
  match v.elements[index]?, v.elements.getLast? with
  | some value, some last =>
    (some value,⟨(v.elements.set index last).dropLast,v.typeCheck.noteRemoval⟩)
  | _, _ => (none,v)

def removeFirst : Option V × VecObject V := v.remove 0

def removeLast : Option V × VecObject V :=
  match v.elements.getLast? with
  | none => (none,v)
  | some value => (some value,⟨v.elements.dropLast,v.typeCheck.noteRemoval⟩)

/-- `as_mut_slice` followed by writes to the elements of the returned slice. -/
def asMutSlice (write : ℕ → V → V) : VecObject V := ⟨v.elements.mapIdx write,v.typeCheck.invalidate⟩

def getTypeCheck (id : ArrayTypeCheckId) : ArrayTypeCheck := v.typeCheck.get id

def markTypeChecked (id : ArrayTypeCheckId) : VecObject V := { v with typeCheck := v.typeCheck.markChecked id }

def cowClone : VecObject V := v

/-- The cache of a vector tells the truth about the check predicates `sat`. -/
def CacheSound (sat : ArrayTypeCheckId → V → Prop) : Prop :=
  v.typeCheck.Sound fun id i => ∀ value, v.elements[i]? = some value → sat id value

section

variable {v} {sat : ArrayTypeCheckId → V → Prop}

theorem cacheSound_withElements (es : List V) : (withElements es).CacheSound sat := ArrayTypeCheckCache.sound_new

/-- A check passed by all slots is passed by all elements. -/
theorem forall_slots_iff (es : List V) (P : V → Prop) :
    (∀ (i : ℕ) value, es[i]? = some value → P value) ↔ ∀ value ∈ es, P value := by
  constructor
  · intro h value hv
    obtain ⟨i,hi⟩ := mem_iff_getElem?.mp hv
    exact h i value hi
  · intro h i value hi
    exact h value (mem_of_getElem? hi)

section

variable (h : v.CacheSound sat)
include h

theorem CacheSound.write (index : ℕ) (value : V) :
    CacheSound ⟨v.elements.set index value,v.typeCheck.noteMutation index⟩ sat := by
  refine h.noteMutation fun id i hi hsatisfied v' hv' => hsatisfied v' ?_
  rwa [getElem?_set_ne hi.symm] at hv'

theorem CacheSound.push (value : V) : (v.push value).CacheSound sat := by
  refine h.noteMutation fun id i hi hsatisfied v' hv' => hsatisfied v' ?_
  have hlt := (List.getElem?_eq_some_iff.mp hv').1
  simp only [VecObject.push,length_append,length_singleton] at hlt
  simp only [VecObject.push] at hv'
  rwa [getElem?_append_left (by omega)] at hv'

/-- Dropping or moving elements leaves no element that was not there before. -/
theorem CacheSound.subset {es : List V} (hsub : ∀ value ∈ es, value ∈ v.elements) :
    CacheSound ⟨es,v.typeCheck.noteRemoval⟩ sat := by
  refine h.noteRemoval fun id hall => ?_
  rw [forall_slots_iff es (sat id)]
  rw [forall_slots_iff v.elements (sat id)] at hall
  exact fun value hv => hall value (hsub value hv)

theorem CacheSound.getMut (i : ℕ) (w : V → V) : (v.getMut i w).2.CacheSound sat := by
  unfold VecObject.getMut
  split
  · exact h
  · exact h.write i _

theorem CacheSound.set (i : ℕ) (value : V) : (v.set i value).2.CacheSound sat := by
  unfold VecObject.set
  split
  · exact h
  · exact h.write i value

theorem CacheSound.remove (i : ℕ) : (v.remove i).2.CacheSound sat := by
  unfold VecObject.remove
  split
  · exact h
  · exact h.subset fun _ => mem_of_mem_eraseIdx

theorem CacheSound.swapRemove (i : ℕ) : (v.swapRemove i).2.CacheSound sat := by
  unfold VecObject.swapRemove
  split
  · next hl =>
    refine h.subset fun x hx => ?_
    rcases mem_or_eq_of_mem_set (dropLast_subset _ hx) with hx | rfl
    · exact hx
    · exact mem_of_getLast? hl
  · exact h

theorem CacheSound.removeLast : v.removeLast.2.CacheSound sat := by
  unfold VecObject.removeLast
  split
  · exact h
  · exact h.subset fun _ hx => dropLast_subset _ hx

end

theorem cacheSound_asMutSlice (w : ℕ → V → V) : (v.asMutSlice w).CacheSound sat := ArrayTypeCheckCache.sound_new

variable {id : ArrayTypeCheckId}

theorem CacheSound.markTypeChecked (h : v.CacheSound sat)
    (hid : ∀ value ∈ v.elements, sat id value) : (v.markTypeChecked id).CacheSound sat :=
  ArrayTypeCheckCache.Sound.markChecked h ((forall_slots_iff v.elements (sat id)).mpr hid)

theorem CacheSound.clean (h : v.CacheSound sat)
    (hclean : v.getTypeCheck id = .clean id) : ∀ value ∈ v.elements, sat id value :=
  (forall_slots_iff v.elements (sat id)).mp (ArrayTypeCheckCache.Sound.get_clean h hclean)

theorem CacheSound.dirty (h : v.CacheSound sat) {slot : UInt32}
    (hdirty : v.getTypeCheck id = .dirty id slot) {i : ℕ} (hi : i ≠ slot.toNat) {value : V}
    (hv : v.elements[i]? = some value) : sat id value := ArrayTypeCheckCache.Sound.get_dirty h hdirty hi value hv

end

end VecObject
end Whim
