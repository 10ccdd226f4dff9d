import Mathlib.Data.List.AList
import Mathlib.Data.List.Perm.Subperm
import Mathlib.Algebra.Order.Ring.Nat

/-!
# Counting in finite maps

How many values of a finite map satisfy a test, and how the number changes with one entry.
-/

namespace Whim.Tally

open List

variable {K V : Type} {m : AList fun _ : K => V} {k : K} {v w : V} {p : V → Bool}

/-- The number of values that pass a test. -/
def count (p : V → Bool) (m : AList fun _ : K => V) : ℕ := m.entries.countP fun e => p e.2

/-- Keys numbered below a bound leave at most that many values. -/
theorem count_le {f : K → ℕ} (hf : Function.Injective f) {n : ℕ} (h : ∀ k, k ∈ m → f k < n) : count p m ≤ n := by
  have hle : count p m ≤ m.entries.length := countP_le_length
  have hlen : m.entries.length = (m.keys.map f).length := by simp [AList.keys,List.keys]
  have hnd : (m.keys.map f).Nodup := m.keys_nodup.map hf
  have hsub : m.keys.map f ⊆ List.range n := by
    intro i hi
    obtain ⟨k,hk,rfl⟩ := mem_map.mp hi
    exact mem_range.mpr (h k (AList.mem_keys.mpr hk))
  have hbound := (subperm_of_subset hnd hsub).length_le
  rw [length_range] at hbound
  omega

/-- Every value changed by a function. -/
def mapValues (f : V → V) (m : AList fun _ : K => V) : AList fun _ : K => V where
  entries := m.entries.map (.map id fun _ => f)
  nodupKeys := m.nodupKeys.map₂ fun _ => f

/-- A change that keeps the test keeps the number. -/
theorem count_mapValues {f : V → V} (h : ∀ v, p (f v) = p v) : count p (mapValues f m) = count p m := by
  rw [count,count,mapValues,countP_map]
  refine countP_congr fun e _ => ?_
  show p (f e.2) = true ↔ p e.2 = true
  rw [h]

variable [DecidableEq K]

theorem lookup_mapValues (f : V → V) (m : AList fun _ : K => V) (k : K) :
    (mapValues f m).lookup k = (m.lookup k).map f := dlookup_map₂ k

theorem count_erase (h : m.lookup k = some v) : count p (m.erase k)+(p v).toNat = count p m := by
  have hmem : (⟨k,v⟩ : Σ _ : K, V) ∈ m.entries := AList.mem_lookup_iff.mp h
  obtain ⟨b,l,r,hl,hentries,herase⟩ := exists_of_kerase (mem_keys_of_mem hmem)
  have hb : b = v := by
    have hlookup : m.lookup k = some b := AList.mem_lookup_iff.mpr (by simp [hentries])
    exact Option.some_inj.mp (hlookup.symm.trans h)
  subst hb
  have hcount : count p (m.erase k) = (l++r).countP fun e => p e.2 := congrArg _ herase
  rw [hcount,count,hentries,countP_append,countP_append,countP_cons]
  cases p b <;> simp
  omega

theorem count_insert_new (h : m.lookup k = none) : count p (m.insert k v) = count p m+(p v).toNat := by
  have hentries : (m.insert k v).entries = ⟨k,v⟩::m.entries :=
    AList.entries_insert_of_notMem (AList.lookup_eq_none.mp h)
  rw [count,hentries,countP_cons,count]
  cases p v <;> rfl

theorem count_insert (h : m.lookup k = some v) : count p (m.insert k w)+(p v).toNat = count p m+(p w).toNat := by
  have herase := count_erase (p := p) h
  have hinsert : count p (m.insert k w) = count p (m.erase k)+(p w).toNat := by
    have hentries : (m.insert k w).entries = ⟨k,w⟩::(m.erase k).entries := AList.entries_insert
    rw [count,hentries,countP_cons,count]
    cases p w <;> rfl
  omega

theorem erase_insert (h : k ∉ m) (v : V) : (m.insert k v).erase k = m := by
  apply AList.ext
  have hk : k ∉ m.entries.keys := h
  have hcons : List.kerase k ((⟨k,v⟩ : Σ _ : K, V)::List.kerase k m.entries) = List.kerase k m.entries :=
    kerase_cons_eq rfl
  exact hcons.trans (kerase_of_notMem_keys hk)

theorem count_pos (h : m.lookup k = some v) (hv : p v) : 0 < count p m := by
  have := count_erase (p := p) h
  rw [hv] at this
  simp at this
  omega

theorem count_eq_zero : count p m = 0 ↔ ∀ k v, m.lookup k = some v → p v = false := by
  constructor
  · intro hz k v hk
    cases hv : p v with
    | false => rfl
    | true => exact absurd hz (Nat.pos_iff_ne_zero.mp (count_pos hk hv))
  · intro hn
    refine countP_eq_zero.mpr fun e he => ?_
    rw [hn e.1 e.2 (AList.mem_lookup_iff.mpr he)]
    exact Bool.false_ne_true

end Whim.Tally
