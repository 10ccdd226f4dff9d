import Mathlib.Data.List.AList
import Mathlib.Algebra.Order.Ring.Nat

/-!
# Queues with stale keys

The entries of a finite map in the order of a queue of keys, some of which may be stale.
-/

namespace Whim.LazyQueue

open List

variable {K V : Type} [DecidableEq K] {m : AList fun _ : K => V} {order more : List K} {k : K} {v : V}

/-- The entries of a map in the order of their keys in a queue. -/
def entries (m : AList fun _ : K => V) (order : List K) : List (K × V) :=
  order.filterMap fun k => (m.lookup k).map fun v => (k,v)

/-- The number of keys in a queue without an entry. -/
def stale (m : AList fun _ : K => V) (order : List K) : ℕ := order.countP fun k => (m.lookup k).isNone

@[simp] theorem entries_nil : entries m [] = [] := rfl

@[simp] theorem stale_nil : stale m [] = 0 := rfl

theorem entries_cons (k : K) (order : List K) :
    entries m (k::order) = ((m.lookup k).map fun v => (k,v)).toList++entries m order := by
  unfold entries
  cases h : m.lookup k <;> simp [h]

@[simp] theorem entries_append : entries m (order++more) = entries m order++entries m more := filterMap_append

@[simp] theorem stale_append : stale m (order++more) = stale m order+stale m more := countP_append

theorem stale_cons (k : K) (order : List K) :
    stale m (k::order) = stale m order+if (m.lookup k).isNone then 1 else 0 := countP_cons

section
variable {m' : AList fun _ : K => V} (h : ∀ k ∈ order, m'.lookup k = m.lookup k)
include h

/-- Only the entries at the keys of the queue count. -/
theorem entries_congr : entries m' order = entries m order := filterMap_congr fun k hk => by rw [h k hk]

theorem stale_congr : stale m' order = stale m order := countP_congr fun k hk => by rw [h k hk]

end

theorem lookup_insert_of_notMem (h : k ∉ order) : ∀ o ∈ order, (m.insert k v).lookup o = m.lookup o :=
  fun _ ho => AList.lookup_insert_ne fun heq => h (heq ▸ ho)

theorem mem_entries : (k,v) ∈ entries m order ↔ k ∈ order ∧ m.lookup k = some v := by
  simp only [entries,mem_filterMap,Option.map_eq_some_iff,Prod.mk.injEq]
  constructor
  · rintro ⟨_,hk,_,hv,rfl,rfl⟩
    exact ⟨hk,hv⟩
  · exact fun ⟨hk,hv⟩ => ⟨k,hk,v,hv,rfl,rfl⟩

theorem entries_erase (k : K) (order : List K) :
    entries (m.erase k) order = (entries m order).filter fun e => e.1 ≠ k := by
  induction order with
  | nil => rfl
  | cons o _ ih =>
    rw [entries_cons,entries_cons,filter_append,ih]
    congr 1
    by_cases heq : o = k
    · subst heq
      cases m.lookup o <;> simp
    · rw [AList.lookup_erase_ne heq]
      cases m.lookup o <;> simp [heq]

/-- An erased entry leaves one more stale key. -/
theorem stale_erase (hnd : order.Nodup) (hk : k ∈ order) (h : m.lookup k = some v) :
    stale (m.erase k) order = stale m order+1 := by
  induction order with
  | nil => cases hk
  | cons o order ih =>
    rw [nodup_cons] at hnd
    rw [stale_cons,stale_cons]
    by_cases heq : o = k
    · subst heq
      have hothers : stale (m.erase o) order = stale m order :=
        stale_congr fun key hkey => AList.lookup_erase_ne fun heq => hnd.1 (heq ▸ hkey)
      rw [hothers]
      simp [h]
    · rw [ih hnd.2 ((mem_cons.mp hk).resolve_left (Ne.symm heq)),AList.lookup_erase_ne heq]
      omega

/-- An empty map has no entries in any order. -/
theorem entries_of_isEmpty (h : m.entries.isEmpty) (order : List K) : entries m order = [] := by
  refine filterMap_eq_nil_iff.mpr fun k _ => ?_
  have hn : m.lookup k = none := by
    rw [AList.lookup,isEmpty_iff.mp h]
    rfl
  rw [hn]
  rfl

/-- Sweeping a queue leaves its entries. -/
theorem entries_sweep (m : AList fun _ : K => V) (order : List K) :
    entries m (order.filter fun k => (m.lookup k).isSome) = entries m order := by
  induction order with
  | nil => rfl
  | cons k _ ih =>
    rw [filter_cons,entries_cons]
    cases h : m.lookup k <;> simp [h,ih,entries_cons]

theorem stale_sweep (m : AList fun _ : K => V) (order : List K) :
    stale m (order.filter fun k => (m.lookup k).isSome) = 0 := by
  rw [stale,countP_eq_zero]
  intro k hk
  have hsome := (mem_filter.mp hk).2
  simpa [Option.isSome_iff_ne_none] using hsome

theorem length_eq (m : AList fun _ : K => V) (order : List K) :
    order.length = (entries m order).length+stale m order := by
  induction order with
  | nil => rfl
  | cons k _ ih =>
    rw [entries_cons,stale_cons,length_append,length_cons,ih]
    cases h : m.lookup k <;> simp <;> omega

end Whim.LazyQueue
