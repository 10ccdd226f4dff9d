import Mathlib.Algebra.Order.Ring.Nat
import Mathlib.Data.List.Perm.Basic

/-!
# Hash tables with caller-supplied hashes

A table stores elements under the hash given at insertion and is probed with a hash and an equality test. Capacities
are chosen by an arbitrary policy.
-/

namespace Whim

open Option List

structure HashTable (α : Type) where
  items : List (UInt64 × α)
  capacity : ℕ

namespace HashTable

variable {α : Type}

/-- The allocation policy: the capacity after a rehash that must hold a number of items, and the
capacity that remains after erasing one (a deleted bucket may or may not become usable again). -/
structure Growth (α : Type) where
  reserve : HashTable α → ℕ → ℕ
  erase : HashTable α → ℕ

/-- A policy that allocates exactly what is asked for. -/
def Growth.exact (α : Type) : Growth α := ⟨fun _ n => n,fun t => t.capacity⟩

def empty : HashTable α := ⟨[],0⟩

def probe (hash : UInt64) (eq : α → Bool) (item : UInt64 × α) : Bool := item.1 == hash && eq item.2

def find (t : HashTable α) (hash : UInt64) (eq : α → Bool) : Option α := (t.items.find? (probe hash eq)).map (·.2)

def rehash (t : HashTable α) (hasher : α → UInt64) (capacity : ℕ) : HashTable α :=
  ⟨t.items.map fun item => (hasher item.2,item.2),capacity⟩

def reserve (g : Growth α) (t : HashTable α) (additional : ℕ) (hasher : α → UInt64) : HashTable α :=
  if t.capacity-t.items.length < additional then
    t.rehash hasher (g.reserve t (t.items.length+additional))
  else t

def insertUnique (g : Growth α) (t : HashTable α) (hash : UInt64) (x : α) (hasher : α → UInt64) :
    HashTable α :=
  let t := t.reserve g 1 hasher
  ⟨t.items++[(hash,x)],t.capacity⟩

/-- The outcome of looking up an entry for insertion. -/
inductive Entry (α : Type)
  | occupied (x : α) (table : HashTable α)
  | vacant (table : HashTable α)

/-- Room for one more element is made before the search, also when the search succeeds. -/
def entry (g : Growth α) (t : HashTable α) (hash : UInt64) (eq : α → Bool) (hasher : α → UInt64) :
    Entry α :=
  let t := t.reserve g 1 hasher
  match t.find hash eq with
  | some x => .occupied x t
  | none => .vacant t

/-- Filling the vacant entry found by `entry`. -/
def insertVacant (t : HashTable α) (hash : UInt64) (x : α) : HashTable α := ⟨t.items++[(hash,x)],t.capacity⟩

def removeEntry (g : Growth α) (t : HashTable α) (hash : UInt64) (eq : α → Bool) :
    Option (α × HashTable α) := (t.find hash eq).map fun x => (x,⟨t.items.eraseP (probe hash eq),g.erase t⟩)

def clear (t : HashTable α) : HashTable α := ⟨[],t.capacity⟩

/-- The elements in storage, forgetting their hashes. -/
def elements (t : HashTable α) : List α := t.items.map (·.2)

@[simp] theorem elements_empty : (empty : HashTable α).elements = [] := rfl

/-- Every element is stored under the hash that `hasher` gives it. -/
def Hashed (hasher : α → UInt64) (t : HashTable α) : Prop := ∀ item ∈ t.items, item.1 = hasher item.2

section

variable {hasher : α → UInt64} {t : HashTable α}

theorem Hashed.items_rehash (h : t.Hashed hasher) (c : ℕ) : (t.rehash hasher c).items = t.items := by
  have hid : ∀ item ∈ t.items, (hasher item.2,item.2) = id item :=
    fun item hitem => Prod.ext (h item hitem).symm rfl
  exact (map_congr_left hid).trans (map_id _)

section
variable (h : t.Hashed hasher) (g : Growth α)
include h g

/-- Reserving with the hasher the table was built with loses and moves nothing. -/
@[simp] theorem Hashed.items_reserve (a : ℕ) : (t.reserve g a hasher).items = t.items := by
  unfold reserve
  split
  · exact h.items_rehash _
  · rfl

theorem Hashed.find_reserve (a : ℕ) (hash : UInt64)
    (eq : α → Bool) : (t.reserve g a hasher).find hash eq = t.find hash eq := by
  simp only [find,h.items_reserve g a]

theorem Hashed.entry_eq (hash : UInt64) (eq : α → Bool) : t.entry g hash eq hasher = match t.find hash eq with
    | some x => .occupied x (t.reserve g 1 hasher)
    | none => .vacant (t.reserve g 1 hasher) := by
  simp only [entry,h.find_reserve g 1]

theorem Hashed.items_insertUnique (hash : UInt64) (x : α) :
    (t.insertUnique g hash x hasher).items = t.items++[(hash,x)] := by
  simp only [HashTable.insertUnique,h.items_reserve g 1]

end

variable {hash : UInt64} {eq : α → Bool} {x : α} {t' : HashTable α} {g : Growth α}

theorem mem_of_removeEntry
    (hr : t.removeEntry g hash eq = some (x,t')) {item : UInt64 × α} (h : item ∈ t'.items) : item ∈ t.items := by
  obtain ⟨y,-,hy⟩ := map_eq_some_iff.mp hr
  cases hy
  exact mem_of_mem_eraseP h

/-- Hashers that agree on the stored elements are interchangeable. -/
theorem Hashed.congr {hasher' : α → UInt64} (h : t.Hashed hasher)
    (heq : ∀ x ∈ t.elements, hasher x = hasher' x) : t.Hashed hasher' := by
  intro item hitem
  rw [h item hitem]
  exact heq _ (mem_map_of_mem hitem)

theorem mem_elements_of_find (h : t.find hash eq = some x) : x ∈ t.elements ∧ eq x := by
  obtain ⟨item,hitem,rfl⟩ := map_eq_some_iff.mp h
  have hp := find?_some hitem
  simp only [probe,Bool.and_eq_true] at hp
  exact ⟨mem_map_of_mem (mem_of_find?_eq_some hitem),hp.2⟩

/-- A failed search rules out every stored element of that hash. -/
theorem Hashed.eq_false_of_find_none (h : t.Hashed hasher)
    (hf : t.find hash eq = none) (hx : x ∈ t.elements) (hh : hasher x = hash) : eq x = false := by
  obtain ⟨item,hitem,rfl⟩ := mem_map.mp hx
  have hp := find?_eq_none.mp (map_eq_none_iff.mp hf) item hitem
  have hhash : item.1 = hash := (h item hitem).trans hh
  simpa [probe,hhash] using hp

/-- Erasing the found element removes one occurrence of it and keeps the others. -/
theorem removeEntry_perm
    (hr : t.removeEntry g hash eq = some (x,t')) : t.elements.Perm (x :: t'.elements) := by
  obtain ⟨y,hf,hy⟩ := map_eq_some_iff.mp hr
  cases hy
  obtain ⟨item,hitem,rfl⟩ := map_eq_some_iff.mp hf
  have hp : t.items.Perm (item :: t.items.eraseP (probe hash eq)) := by
    obtain ⟨a,l₁,l₂,hl₁,ha,heq,herase⟩ :=
      exists_of_eraseP (mem_of_find?_eq_some hitem) (find?_some hitem)
    have hitem' : item = a := by
      rw [heq,find?_append,find?_eq_none.mpr (by simpa using hl₁)] at hitem
      simpa [ha] using hitem.symm
    rw [herase,heq,hitem']
    exact perm_middle
  exact hp.map (·.2)

end

end HashTable
end Whim
