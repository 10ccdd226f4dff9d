import Mathlib.Algebra.Order.Ring.Nat
import Mathlib.Data.List.Dedup

/-!
# Insertion-ordered maps

An association list whose keys are compared with `==`. Overwriting keeps the position of an entry and its first key.
-/

namespace Whim.OrderedMap

open List

variable {K V : Type} [BEq K]

def lookup (m : List (K × V)) (k : K) : Option V := (m.find? (·.1 == k)).map (·.2)

def insert : List (K × V) → K → V → List (K × V)
  | [], k, v => [(k,v)]
  | e::m, k, v => if e.1 == k then (e.1,v)::m else e::insert m k v

def modify (m : List (K × V)) (k : K) (f : V → V) : List (K × V) :=
  match lookup m k with
  | some v => insert m k (f v)
  | none => m

def remove (m : List (K × V)) (k : K) : List (K × V) := m.eraseP (·.1 == k)

/-- No entry has a key equal to `k`. -/
def Absent (m : List (K × V)) (k : K) : Prop := ∀ e ∈ m, (e.1 == k) = false

def NodupKeys (m : List (K × V)) : Prop := m.Pairwise fun a b => (a.1 == b.1) = false

section

variable {m : List (K × V)} {k : K} {v : V}

theorem Absent.lookup (h : Absent m k) : lookup m k = none := by
  have hf : m.find? (·.1 == k) = none := find?_eq_none.mpr (by simpa [Absent] using h)
  simp [OrderedMap.lookup,hf]

theorem Absent.insert (h : Absent m k) : insert m k v = m++[(k,v)] := by
  induction m with
  | nil => rfl
  | cons e m ih =>
    obtain ⟨he,hm⟩ := forall_mem_cons.mp h
    simp [OrderedMap.insert,he,ih hm]

theorem Absent.remove (h : Absent m k) : remove m k = m := eraseP_of_forall_not (by simpa [Absent] using h)

theorem Absent.modify (h : Absent m k) (f : V → V) : modify m k f = m := by
  simp [OrderedMap.modify,h.lookup]

end

section

variable {l r : List (K × V)} {k k' : K} {v v' : V}

section
variable (hl : Absent l k) (hk : (k' == k) = true)
include hl hk

theorem lookup_middle : lookup (l++(k',v')::r) k = some v' := by
  have hf : l.find? (·.1 == k) = none := find?_eq_none.mpr (by simpa [Absent] using hl)
  simp [lookup,find?_append,hf,hk]

theorem insert_middle : insert (l++(k',v')::r) k v = l++(k',v)::r := by
  induction l with
  | nil => simp [insert,hk]
  | cons e l ih =>
    obtain ⟨he,hl⟩ := forall_mem_cons.mp hl
    simp [insert,he,ih hl]

theorem remove_middle : remove (l++(k',v')::r) k = l++r := by
  have hl' : ∀ e ∈ l, ¬ (e.1 == k) = true := by simpa [Absent] using hl
  simp [remove,eraseP_append_right _ hl',hk]

end

/-- In a map without repeated keys the entries before a matching one do not match. -/
theorem NodupKeys.absent_left [PartialEquivBEq K] (h : NodupKeys (l++(k',v')::r))
    (hk : (k' == k)) : Absent l k := by
  intro e he
  have hne := (pairwise_append.mp h).2.2 e he (k',v') (by simp)
  cases hek : e.1 == k with
  | false => rfl
  | true => exact absurd (BEq.trans hek (BEq.symm hk)) (by simp [hne])

end

theorem NodupKeys.insert_absent [PartialEquivBEq K] {m : List (K × V)} {k : K} {v : V}
    (h : NodupKeys m) (hk : Absent m k) : NodupKeys (m++[(k,v)]) := by
  refine pairwise_append.mpr ⟨h,pairwise_singleton _ _,?_⟩
  intro a ha b hb
  rw [mem_singleton.mp hb]
  exact hk a ha

section

variable {m : List (K × V)} {k k' : K} {v : V}

theorem lookup_some (h : lookup m k = some v) : ∃ k', (k',v) ∈ m ∧ (k' == k) := by
  obtain ⟨e,he,rfl⟩ := Option.map_eq_some_iff.mp h
  exact ⟨e.1,mem_of_find?_eq_some he,by simpa using find?_some he⟩

theorem NodupKeys.lookup_mem [PartialEquivBEq K] (h : NodupKeys m) (hmem : (k',v) ∈ m)
    (hk : (k' == k)) : lookup m k = some v := by
  obtain ⟨l,r,rfl⟩ := append_of_mem hmem
  exact lookup_middle (h.absent_left hk) hk

/-- Equal keys are looked up alike. -/
theorem lookup_congr [PartialEquivBEq K] (h : (k == k')) : lookup m k = lookup m k' := by
  have hprobe : (fun e : K × V => e.1 == k) = fun e => e.1 == k' := by
    funext e
    rw [Bool.eq_iff_iff]
    exact ⟨fun he => BEq.trans he h,fun he => BEq.trans he (BEq.symm h)⟩
  simp only [lookup,hprobe]

end

section

/-- The insertions of a list of entries, one after the other. -/
def insertAll (m : List (K × V)) (entries : List (K × V)) : List (K × V) :=
  entries.foldl (fun m e => insert m e.1 e.2) m

variable {m : List (K × V)} {k k' : K} {v : V}

theorem lookup_insert [EquivBEq K] : lookup (insert m k v) k' = if k == k' then some v else lookup m k' := by
  induction m with
  | nil => cases h : k == k' <;> simp [insert,lookup,h]
  | cons e m ih =>
    simp only [insert]
    split
    · next he =>
      have hsame : (e.1 == k') = (k == k') := by
        rw [Bool.eq_iff_iff]
        exact ⟨fun h => BEq.trans (BEq.symm he) h,fun h => BEq.trans he h⟩
      simp only [lookup,find?_cons,hsame]
      split <;> simp_all
    · next he =>
      simp only [lookup,find?_cons] at ih ⊢
      cases hek : e.1 == k' with
      | false => simpa using ih
      | true =>
        have hk : (k == k') = false := by
          cases hk : k == k' with
          | false => rfl
          | true => exact absurd (BEq.trans hek (BEq.symm hk)) he
        simp [hk]

/-- The last of the inserted entries with a key is the one found. -/
theorem lookup_insertAll [EquivBEq K] (es : List (K × V)) :
    lookup (insertAll m es) k = ((es.reverse.find? (·.1 == k)).map (·.2)).or (lookup m k) := by
  induction es generalizing m with
  | nil => simp [insertAll]
  | cons e es ih =>
    have hstep : insertAll m (e::es) = insertAll (insert m e.1 e.2) es := rfl
    rw [hstep,ih,lookup_insert,reverse_cons,find?_append]
    cases es.reverse.find? (·.1 == k) with
    | some => simp
    | none => cases h : e.1 == k <;> simp [h]

variable {D : Type} [DecidableEq D] {f : K → D}

section

variable (hf : ∀ a b : K, (a == b) = true ↔ f a = f b)
include hf

theorem mem_map_insert (x : D) : x ∈ (insert m k v).map (f ·.1) ↔ x ∈ m.map (f ·.1) ∨ x = f k := by
  induction m with
  | nil => simp [insert]
  | cons e m ih =>
    simp only [insert]
    split
    · next he =>
      have hkey := (hf e.1 k).mp he
      simp only [map_cons,mem_cons]
      rw [hkey]
      tauto
    · simp only [map_cons,mem_cons,ih]
      tauto

theorem nodup_map_insert (h : (m.map (f ·.1)).Nodup) : ((insert m k v).map (f ·.1)).Nodup := by
  induction m with
  | nil => simp [insert]
  | cons e m ih =>
    obtain ⟨he,hm⟩ := nodup_cons.mp h
    simp only [insert]
    split
    · exact h
    next hek =>
    refine nodup_cons.mpr ⟨?_,ih hm⟩
    rw [mem_map_insert hf]
    rintro (hmem | heq)
    · exact he hmem
    · exact hek ((hf _ _).mpr heq)

theorem keys_insertAll (es : List (K × V)) (h : (m.map (f ·.1)).Nodup) : ((insertAll m es).map (f ·.1)).Nodup ∧
      ∀ x, x ∈ (insertAll m es).map (f ·.1) ↔ x ∈ m.map (f ·.1) ∨ x ∈ es.map (f ·.1) := by
  induction es generalizing m with
  | nil => exact ⟨h,by simp [insertAll]⟩
  | cons e es ih =>
    obtain ⟨hnd,hmem⟩ := ih (nodup_map_insert hf (k := e.1) (v := e.2) h)
    refine ⟨hnd,fun x => ?_⟩
    have hstep : insertAll m (e::es) = insertAll (insert m e.1 e.2) es := rfl
    rw [hstep,hmem,mem_map_insert hf,map_cons,mem_cons,or_assoc]

/-- A map built from entries has one entry for each of their keys. -/
theorem length_insertAll (es : List (K × V)) : (insertAll [] es).length = (es.map (f ·.1)).dedup.length := by
  obtain ⟨hnd,hmem⟩ := keys_insertAll hf es (m := []) (by simp)
  have hp : ((insertAll [] es).map (f ·.1)).Perm (es.map (f ·.1)).dedup :=
    (perm_ext_iff_of_nodup hnd (nodup_dedup _)).mpr fun x => by rw [hmem,mem_dedup]; simp
  simpa using hp.length_eq

end

end

end Whim.OrderedMap
