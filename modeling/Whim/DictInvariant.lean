import Mathlib.Data.List.ReduceOption
import Whim.DictObject

/-!
# The dictionary invariant

Packed and indexed storage are read through one list of slots. The index holds exactly one entry for every occupied
slot, under the hash of that slot's key.
-/

namespace Whim.DictObject

open OrderedMap List Int64

variable {V : Type}

variable {i : ℕ}

section

theorem usizeTryFrom_eq_some {key : Int64} : usizeTryFrom key = some i ↔ key = ofNat i ∧ i < 2 ^ 63 := by
  unfold usizeTryFrom
  constructor
  · intro h
    split at h
    · next hk =>
      cases h
      exact ⟨(ofNat_toNatClampNeg key hk).symm,toNatClampNeg_lt key⟩
    · cases h
  · rintro ⟨rfl,hi⟩
    have hnn : (0 : Int64) ≤ ofNat i := by
      rw [le_iff_toInt_le,toInt_ofNat_of_lt hi]
      exact Int.natCast_nonneg i
    rw [if_pos hnn,toNatClampNeg_ofNat_of_lt hi]

theorem usizeTryFrom_ofNat (h : i < 2 ^ 63) : usizeTryFrom (ofNat i) = some i := usizeTryFrom_eq_some.mpr ⟨rfl,h⟩

theorem ofNat_injective {j : ℕ} (hi : i < 2 ^ 63) (hj : j < 2 ^ 63) (h : ofNat i = ofNat j) : i = j := by
  have := congrArg usizeTryFrom h
  rwa [usizeTryFrom_ofNat hi,usizeTryFrom_ofNat hj,Option.some_inj] at this

variable {n : ℕ}

theorem slotNumber_of_lt (h : n < 2 ^ 32) : slotNumber n = .ok (UInt32.ofNat n) := by
  simp [slotNumber,u32TryFrom_of_lt h]

theorem slotNumber_of_ge (h : 2 ^ 32 ≤ n) : slotNumber n = .error .slotLimit := by
  simp [slotNumber,u32TryFrom_of_ge h]

end

/-- The storage seen as slots, whichever representation holds it. -/
def slots (d : DictObject V) : List (Option (Key × V)) :=
  match d.packed with
  | some values => (packedEntries values).map some
  | none => d.entries.map Slot.entry

theorem iter_eq_slots (d : DictObject V) : d.iter = d.slots.reduceOption := by
  rcases hp : d.packed with _ | values
  · simp [iter,slots,hp,occupied,List.reduceOption,filterMap_map]
  · simp [iter,slots,hp,List.reduceOption]

theorem entryAtSlot_eq_slots (d : DictObject V) (i : ℕ) : d.entryAtSlot i = d.slots[i]? := by
  rcases hp : d.packed with _ | values
  · simp [entryAtSlot,slots,hp]
  · simp [entryAtSlot,slots,hp,packedEntries,Function.comp_def]

/-- The key stored at a slot. -/
def keyAt (entries : List (Slot V)) (i : ℕ) : Option Key := ((entries[i]?).bind Slot.entry).map (·.1)

variable {e : IndexEntry} {k : Key} {es : List (Slot V)}

theorem hasher_of_keyAt {hs : HashState}
    (h : keyAt es e.slot.toNat = some k) : hasher hs es e = k.hash64 hs := by
  unfold hasher slotAt
  unfold keyAt at h
  rw [getD_eq_getElem?_getD]
  rcases he : es[e.slot.toNat]? with _ | ⟨k',v⟩ | _ <;> simp_all [Slot.entry,slotHash]

theorem keyAt_eq_some : keyAt es i = some k ↔ ∃ v, es[i]? = some (.occupied k v) := by
  unfold keyAt
  rcases es[i]? with _ | ⟨k',v⟩ | _ <;> simp [Slot.entry,eq_comm]

/-- The index has exactly one entry per occupied slot, under that slot's hash and fingerprint. -/
structure Indexed (hs : HashState) (entries : List (Slot V)) (index : HashTable IndexEntry) : Prop where
  sound : ∀ item ∈ index.items, ∃ k, keyAt entries item.2.slot.toNat = some k ∧
    item.1 = k.hash64 hs ∧ item.2.fingerprint = (k.hash64 hs).toUInt32
  complete : ∀ i k, keyAt entries i = some k → i ∈ index.elements.map (·.slot.toNat)
  nodup : (index.elements.map (·.slot.toNat)).Nodup

namespace Indexed

variable {hs : HashState} {es es' : List (Slot V)} {index i' : HashTable IndexEntry}

theorem hashed (h : Indexed hs es index) : index.Hashed (hasher hs es) := by
  intro item hitem
  obtain ⟨k,hk,hh,-⟩ := h.sound item hitem
  rw [hh,hasher_of_keyAt hk]

theorem empty : Indexed hs ([] : List (Slot V)) HashTable.empty := ⟨by simp [HashTable.empty],by simp [keyAt],by simp⟩

section

variable (h : Indexed hs es index)
include h

/-- The invariant looks at the stored items and at the keys of the slots only. -/
theorem congr (hitems : i'.items = index.items) (hk : ∀ i, keyAt es' i = keyAt es i) : Indexed hs es' i' := by
  have helements : i'.elements = index.elements := by
    simp only [HashTable.elements,hitems]
  refine ⟨?_,?_,?_⟩
  · simpa only [hitems,hk] using h.sound
  · simpa only [helements,hk] using h.complete
  · simpa only [helements] using h.nodup

theorem slot_lt (he : e ∈ index.elements) : e.slot.toNat < es.length := by
  obtain ⟨item,hitem,rfl⟩ := mem_map.mp he
  obtain ⟨k,hk,-⟩ := h.sound item hitem
  obtain ⟨v,hv⟩ := keyAt_eq_some.mp hk
  exact (List.getElem?_eq_some_iff.mp hv).1

theorem reserve (g : HashTable.Growth IndexEntry) (additional : ℕ) :
    Indexed hs es (index.reserve g additional (hasher hs es)) :=
  h.congr (h.hashed.items_reserve g additional) fun _ => rfl

/-- A new slot at the end together with its index entry. -/
theorem append {v : V} {slot : UInt32} (hslot : slot.toNat = es.length)
    (hitems : i'.items = index.items++[(k.hash64 hs,IndexEntry.new slot (k.hash64 hs))]) :
    Indexed hs (es++[.occupied k v]) i' := by
  have hold : ∀ i < es.length, keyAt (es++[Slot.occupied k v]) i = keyAt es i :=
    fun i hi => by simp [keyAt,getElem?_append_left hi]
  have hnew : keyAt (es++[Slot.occupied k v]) es.length = some k := by
    simp [keyAt,Slot.entry]
  have helements : i'.elements = index.elements++[IndexEntry.new slot (k.hash64 hs)] := by
    simp [HashTable.elements,hitems]
  have hlt : ∀ i ∈ index.elements.map (·.slot.toNat), i < es.length := by
    intro i hi
    obtain ⟨e,he,rfl⟩ := mem_map.mp hi
    exact h.slot_lt he
  refine ⟨?_,?_,?_⟩
  · intro item hitem
    rw [hitems,mem_append,mem_singleton] at hitem
    rcases hitem with hitem | rfl
    · rw [hold _ (h.slot_lt (mem_map_of_mem hitem))]
      exact h.sound item hitem
    · exact ⟨k,by simpa [IndexEntry.new,hslot] using hnew,rfl,rfl⟩
  · intro i k' hk'
    rw [helements,map_append,mem_append]
    by_cases hi : i < es.length
    · rw [hold i hi] at hk'
      exact .inl (h.complete i k' hk')
    obtain ⟨v',hv'⟩ := keyAt_eq_some.mp hk'
    have hi' := (List.getElem?_eq_some_iff.mp hv').1
    simp only [length_append,length_singleton] at hi'
    have : i = es.length := by omega
    exact .inr (by simp [IndexEntry.new,hslot,this])
  · rw [helements,map_append]
    refine nodup_append.mpr ⟨h.nodup,by simp,?_⟩
    intro i hi j hj
    simp only [map_cons,map_nil,mem_singleton] at hj
    have := hlt i hi
    simp [IndexEntry.new] at hj
    omega

/-- Emptying the slot of an index entry together with that entry. -/
theorem vacate {g : HashTable.Growth IndexEntry} {hash : UInt64}
    {p : IndexEntry → Bool} (hr : index.removeEntry g hash p = some (e,i')) :
    Indexed hs (es.set e.slot.toNat .vacant) i' := by
  have hp := (HashTable.removeEntry_perm hr).map (·.slot.toNat)
  have hnd : (e.slot.toNat :: i'.elements.map (·.slot.toNat)).Nodup :=
    hp.nodup_iff.mp h.nodup
  have hfresh := (nodup_cons.mp hnd).1
  have hkeep : ∀ i, i ≠ e.slot.toNat →
      keyAt (es.set e.slot.toNat Slot.vacant) i = keyAt es i :=
    fun i hi => by simp [keyAt,getElem?_set_ne hi.symm]
  refine ⟨?_,?_,(nodup_cons.mp hnd).2⟩
  · intro item hitem
    have hne : item.2.slot.toNat ≠ e.slot.toNat := by
      intro heq
      exact hfresh (heq ▸ mem_map_of_mem (mem_map_of_mem hitem))
    rw [hkeep _ hne]
    exact h.sound item (HashTable.mem_of_removeEntry hr hitem)
  · intro i k hk
    have hne : i ≠ e.slot.toNat := by
      rintro rfl
      obtain ⟨v,hv⟩ := keyAt_eq_some.mp hk
      simp [getElem?_set] at hv
    rw [hkeep i hne] at hk
    have := hp.mem_iff.mp (h.complete i k hk)
    exact (mem_cons.mp this).resolve_left hne

/-- A probe with the hash of `key` finds the slot that holds it, or no slot does. -/
theorem find_cases (key : Key) {p : Slot V → Bool} (hp : ∀ slot, p slot = slot.matchesKey key) :
    (index.find (key.hash64 hs) (probe es (key.hash64 hs) p) = none ∧ Absent (occupied es) key) ∨
    ∃ e k v, index.find (key.hash64 hs) (probe es (key.hash64 hs) p) = some e ∧
      es[e.slot.toNat]? = some (.occupied k v) ∧ (k == key) := by
  rcases hf : index.find (key.hash64 hs) (probe es (key.hash64 hs) p) with _ | e
  · refine .inl ⟨rfl,?_⟩
    rintro ⟨k,v⟩ hkv
    obtain ⟨slot,hslot,hentry⟩ := mem_filterMap.mp hkv
    obtain ⟨i,hi,rfl⟩ := mem_iff_getElem.mp hslot
    have hoccupied : es[i]? = some (.occupied k v) := by
      rw [getElem?_eq_getElem hi]
      rcases hs' : es[i] with ⟨k',v'⟩ | _ <;> simp_all [Slot.entry]
    obtain ⟨e,he,hei⟩ := mem_map.mp (h.complete i k (keyAt_eq_some.mpr ⟨v,hoccupied⟩))
    have hkey : keyAt es e.slot.toNat = some k := keyAt_eq_some.mpr ⟨v,hei ▸ hoccupied⟩
    by_contra hne
    have heq : (k == key) = true := by simpa using hne
    have hh : hasher hs es e = key.hash64 hs :=
      (hasher_of_keyAt hkey).trans (Key.hash64_congr heq hs)
    have hprobe := h.hashed.eq_false_of_find_none hf he hh
    obtain ⟨item,hitem,rfl⟩ := mem_map.mp he
    obtain ⟨k',hk',-,hfp⟩ := h.sound item hitem
    have hk : k' = k := Option.some_inj.mp (hk'.symm.trans hkey)
    have hslotAt : slotAt es item.2 = .occupied k v := by
      simp [slotAt,getD_eq_getElem?_getD,hei,hoccupied]
    simp [probe,IndexEntry.matchesHash,hfp,hk,Key.hash64_congr heq hs,hp,hslotAt,
      Slot.matchesKey,heq] at hprobe
  · obtain ⟨he,hprobe⟩ := HashTable.mem_elements_of_find hf
    simp only [probe,hp,Bool.and_eq_true] at hprobe
    obtain ⟨item,hitem,rfl⟩ := mem_map.mp he
    obtain ⟨k,hk,-⟩ := h.sound item hitem
    obtain ⟨v,hv⟩ := keyAt_eq_some.mp hk
    refine .inr ⟨_,k,v,rfl,hv,?_⟩
    simpa [slotAt,getD_eq_getElem?_getD,hv,Slot.matchesKey] using hprobe.2

end

end Indexed

end Whim.DictObject
