import Whim.DictInvariant

/-!
# What each dictionary operation does

Every operation on a well-formed dictionary leaves the slots alone, overwrites one slot, appends one, or vacates one.
-/

namespace Whim.DictObject

open OrderedMap Option Int64 List

variable {V : Type}

structure WF (hs : HashState) (d : DictObject V) : Prop where
  keys : NodupKeys d.iter
  bound : d.slots.length ≤ 2 ^ 32
  packed : d.packed.isSome → d.entries = [] ∧ d.index.items = []
  indexed : d.packed = none → Indexed hs d.entries d.index
  live : d.packed = none → d.live = d.iter.length

section

variable {α : Type} {S : List (Option α)} {i : ℕ} {a : α}

theorem reduceOption_split (h : S[i]? = some (some a)) :
    S.reduceOption = (S.take i).reduceOption++a::(S.drop (i+1)).reduceOption := by
  obtain ⟨hi,ha⟩ := List.getElem?_eq_some_iff.mp h
  conv_lhs => rw [← take_append_drop i S,drop_eq_getElem_cons hi,ha]
  simp [reduceOption_append]

theorem reduceOption_set (h : S[i]? = some (some a)) (b : Option α) : (S.set i b).reduceOption =
    (S.take i).reduceOption++(b.toList++(S.drop (i+1)).reduceOption) := by
  obtain ⟨hi,-⟩ := List.getElem?_eq_some_iff.mp h
  rw [set_eq_take_append_cons_drop,if_pos hi,reduceOption_append]
  cases b <;> simp

theorem mem_reduceOption_of_getElem? (h : S[i]? = some (some a)) : a ∈ S.reduceOption := by
  rw [reduceOption_split h]
  simp

end

section

variable (key : Key) (d d' : DictObject V)

/-- The key is not there and nothing changes. -/
structure Missing : Prop where
  absent : Absent d.iter key
  slots : d'.slots = d.slots
  cache : d'.typeCheck = d.typeCheck

/-- The slot `i` of the key changes its value from `old` to `new`. -/
structure OverwrittenAt (i : ℕ) (k : Key) (old new : V) : Prop where
  key_eq : (k == key) = true
  before : d.slots[i]? = some (some (k,old))
  slots : d'.slots = d.slots.set i (some (k,new))
  cache : d'.typeCheck = d.typeCheck.noteMutation i

/-- The key was not there and gets a new last slot. -/
structure Appended (value : V) : Prop where
  absent : Absent d.iter key
  slots : d'.slots = d.slots++[some (key,value)]
  cache : d'.typeCheck = d.typeCheck.noteMutation d.slots.length

/-- The slot `i` of the key is given up; the remaining slots may be renumbered. -/
structure VacatedAt (i : ℕ) (k : Key) (old : V) : Prop where
  key_eq : (k == key) = true
  before : d.slots[i]? = some (some (k,old))
  iter : d'.iter = (d.slots.set i none).reduceOption
  length_le : d'.slots.length ≤ d.slots.length
  cache : d'.typeCheck = d.typeCheck.noteRemoval

end

section

variable {hs : HashState} {key k : Key} {d d' : DictObject V} {i : ℕ} {old new value : V}

section
variable (h : WF hs d) (hk : (k == key) = true) (hi : d.slots[i]? = some (some (k,old)))
include h hk hi

theorem WF.absent_before : Absent (d.slots.take i).reduceOption key := by
  have hkeys := h.keys
  rw [iter_eq_slots,reduceOption_split hi] at hkeys
  exact hkeys.absent_left hk

theorem WF.lookup_slot : lookup d.iter key = some old := by
  rw [iter_eq_slots,reduceOption_split hi]
  exact lookup_middle (h.absent_before hk hi) hk

end

theorem Missing.iter (e : Missing key d d') : d'.iter = d.iter := by
  rw [iter_eq_slots,iter_eq_slots,e.slots]

theorem OverwrittenAt.iter (h : WF hs d) (e : OverwrittenAt key d d' i k old new) :
    d'.iter = OrderedMap.insert d.iter key new := by
  rw [iter_eq_slots,e.slots,reduceOption_set e.before,iter_eq_slots,reduceOption_split e.before,
    insert_middle (h.absent_before e.key_eq e.before) e.key_eq]
  rfl

theorem Appended.iter_eq (e : Appended key d d' value) : d'.iter = d.iter++[(key,value)] := by
  simp [iter_eq_slots,e.slots,reduceOption_append]

theorem Appended.iter (e : Appended key d d' value) : d'.iter = OrderedMap.insert d.iter key value := by
  rw [e.absent.insert,e.iter_eq]

theorem VacatedAt.iter_remove (h : WF hs d) (e : VacatedAt key d d' i k old) :
    d'.iter = OrderedMap.remove d.iter key := by
  rw [e.iter,reduceOption_set e.before,iter_eq_slots,reduceOption_split e.before,
    remove_middle (h.absent_before e.key_eq e.before) e.key_eq]
  rfl

end

section

variable {values : List V} {key : Key} {i : ℕ} {v : V}

/-- The packed position a key denotes, if any. -/
def packedPosition : Key → Option ℕ
  | .int position => usizeTryFrom position
  | _ => none

@[simp] theorem length_packedEntries : (packedEntries values).length = values.length := by
  simp [packedEntries]

theorem packedEntries_set : packedEntries (values.set i v) = (packedEntries values).set i (.int (ofNat i),v) := by
  apply ext_getElem?
  intro j
  simp only [packedEntries,getElem?_mapIdx,getElem?_set,length_mapIdx]
  split
  · next hij =>
    subst hij
    split <;> simp
  · rfl

theorem packedEntries_append : packedEntries (values++[v]) =
    packedEntries values++[(.int (ofNat values.length),v)] := by
  simp [packedEntries,mapIdx_append]

theorem key_of_packedPosition (h : packedPosition key = some i) : key = .int (ofNat i) := by
  cases key with
  | int => rw [(usizeTryFrom_eq_some.mp h).1]
  | _ => cases h

theorem packed_getElem? (h : values[i]? = some v) : (packedEntries values)[i]? = some (.int (ofNat i),v) := by
  simp [packedEntries,h]

/-- A key past the end, negative or of another kind is not among the packed entries. -/
theorem packed_absent (hbound : values.length ≤ 2 ^ 32)
    (h : ∀ i, packedPosition key = some i → values.length ≤ i) : Absent (packedEntries values) key := by
  intro e he
  obtain ⟨j,hj,rfl⟩ := mem_mapIdx.mp he
  by_contra hne
  have hkey : key = .int (ofNat j) := Key.int_beq_iff.mp (by simpa using hne)
  have := h j (by rw [hkey]; exact usizeTryFrom_ofNat (by omega))
  omega

theorem nodupKeys_packedEntries (hbound : values.length ≤ 2 ^ 32) : NodupKeys (packedEntries values) := by
  refine pairwise_iff_getElem.mpr ?_
  intro i j hi hj hij
  simp only [length_packedEntries] at hi hj
  simp only [packedEntries,getElem_mapIdx,Key.int_beq_int,beq_eq_false_iff_ne]
  intro heq
  have := ofNat_injective (by omega) (by omega) heq
  omega

end

section
variable {d : DictObject V} {values : List V}

theorem slots_packed (hp : d.packed = some values) : d.slots = (packedEntries values).map some := by
  simp [slots,hp]

theorem slots_indexed (hp : d.packed = none) : d.slots = d.entries.map Slot.entry := by
  simp [slots,hp]

theorem iter_indexed (hp : d.packed = none) : d.iter = occupied d.entries := by
  simp [iter,hp]

theorem iter_packed (hp : d.packed = some values) : d.iter = packedEntries values := by
  simp [iter,hp]

variable {hs : HashState}

theorem WF.length_packed (h : WF hs d) (hp : d.packed = some values) : values.length ≤ 2 ^ 32 := by
  simpa [slots_packed hp] using h.bound

theorem wf_packed (hp : d.packed = some values)
    (hlen : values.length ≤ 2 ^ 32) (hstorage : d.entries = [] ∧ d.index.items = []) : WF hs d where
  keys := by rw [iter_packed hp]; exact nodupKeys_packedEntries hlen
  bound := by simpa [slots_packed hp] using hlen
  packed := fun _ => hstorage
  indexed := fun hn => by simp [hp] at hn
  live := fun hn => by simp [hp] at hn

end

theorem wf_new (hs : HashState) : WF hs (new : DictObject V) := wf_packed rfl (by simp) ⟨rfl,rfl⟩

section

variable {hs : HashState} {d : DictObject V}

theorem WF.findSlot_cases (h : WF hs d) (hp : d.packed = none) (key : Key) {p : Slot V → Bool}
    (hmatch : ∀ slot, p slot = slot.matchesKey key) : (d.findSlot (key.hash64 hs) p = none ∧ Absent d.iter key) ∨
    ∃ e k v, d.findSlot (key.hash64 hs) p = some e ∧
      d.entries[e.slot.toNat]? = some (.occupied k v) ∧ (k == key) := by
  rw [iter_indexed hp]
  exact (h.indexed hp).find_cases key hmatch

theorem slotAt_eq {es : List (Slot V)} {e : IndexEntry} {slot : Slot V}
    (h : es[e.slot.toNat]? = some slot) : slotAt es e = slot := by
  simp [slotAt,getD_eq_getElem?_getD,h]

theorem slots_getElem? (hp : d.packed = none) {i : ℕ} {k : Key} {v : V}
    (h : d.entries[i]? = some (.occupied k v)) : d.slots[i]? = some (some (k,v)) := by
  simp [slots_indexed hp,h,Slot.entry]

section
variable (h : WF hs d)
include h

theorem WF.readFound_eq (hp : d.packed = none) (key : Key) {p : Slot V → Bool}
    (hmatch : ∀ slot, p slot = slot.matchesKey key) :
    d.readFound (d.findSlot (key.hash64 hs) p) = .ok (lookup d.iter key) := by
  rcases h.findSlot_cases hp key hmatch with ⟨hf,habsent⟩ | ⟨e,k,v,hf,hslot,hk⟩
  · simp [hf,readFound,habsent.lookup]
  · simp [hf,readFound,slotAt_eq hslot,h.lookup_slot hk (slots_getElem? hp hslot)]

theorem WF.lookup_packed {values : List V} (hp : d.packed = some values) (key : Key) :
    lookup d.iter key = (packedPosition key).bind (values[·]?) := by
  rcases hpos : packedPosition key with _ | i
  · rw [iter_packed hp]
    exact (packed_absent (h.length_packed hp) (by simp [hpos])).lookup
  rcases hv : values[i]? with _ | v
  · rw [iter_packed hp,bind_some,hv]
    refine (packed_absent (h.length_packed hp) ?_).lookup
    intro j hj
    rw [hpos,some_inj] at hj
    exact hj ▸ getElem?_eq_none_iff.mp hv
  · rw [bind_some,hv]
    refine h.lookup_slot (i := i) (k := .int (ofNat i)) ?_ ?_
    · rw [key_of_packedPosition hpos]
      simp
    · simp [slots_packed hp,packed_getElem? hv]

/-- Every read answers what the list of entries answers. -/
theorem WF.getRef_eq (key : Key) : d.getRef hs key = .ok (lookup d.iter key) := by
  unfold getRef
  rcases hp : d.packed with _ | values
  · exact h.readFound_eq hp key fun slot => slot.matchesRef_eq key
  · rw [h.lookup_packed hp]
    cases key <;> rfl

theorem WF.getInt_eq (key : Int64) : d.getInt hs key = .ok (lookup d.iter (.int key)) := by
  unfold getInt
  rcases hp : d.packed with _ | values
  · exact h.readFound_eq hp (.int key) fun slot => slot.matchesInt_eq key
  · rw [h.lookup_packed hp]
    rfl

theorem WF.getString_eq (key : ByteString) : d.getString hs key = .ok (lookup d.iter (.string key)) := by
  unfold getString
  rcases hp : d.packed with _ | values
  · exact h.readFound_eq hp (.string key) fun slot => slot.matchesString_eq key
  · rw [h.lookup_packed hp]
    rfl

theorem WF.getShortString_eq (key : ShortString) :
    d.getShortString hs key = .ok (lookup d.iter (.shortString key)) := by
  unfold getShortString
  rcases hp : d.packed with _ | values
  · exact h.readFound_eq hp (.shortString key) fun slot => slot.matchesShortString_eq key
  · rw [h.lookup_packed hp]
    rfl

theorem WF.len_eq : d.len = d.iter.length := by
  rcases hp : d.packed with _ | values
  · simp [len,hp,h.live hp]
  · simp [len,hp,iter_packed hp]

end

end

end Whim.DictObject
