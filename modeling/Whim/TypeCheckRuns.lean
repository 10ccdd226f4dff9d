import Whim.DictRefinement
import Whim.Value

/-!
# Cached type checks over whole runs

Cached answers stay true along a run exactly as long as the integers written through `get_int_mut_string` and
`get_int_mut_short_string`, which leave no note in the cache, keep the checks it vouches for.
-/

namespace Whim

open List

inductive ArrayObject
  | vec (v : VecObject Value)
  | dict (d : DictObject Value)

/-- The predicate that each structural check id stands for. -/
structure CheckPredicates where
  vec : ArrayTypeCheckId → Value → Prop
  dict : ArrayTypeCheckId → Key → Value → Prop

inductive VecOp
  | push (value : Value)
  | set (index : ℕ) (value : Value)
  | getMut (index : ℕ) (write : Value → Value)
  | remove (index : ℕ)
  | swapRemove (index : ℕ)
  | removeFirst | removeLast
  | asMutSlice (write : ℕ → Value → Value)
  | markTypeChecked (id : ArrayTypeCheckId)

inductive DictOp
  | insert (key : Key) (value : Value)
  | insertInt (key : Int64) (value : Value)
  | insertShortString (key : ShortString) (value : Value)
  | getMutRef (key : Key) (write : Value → Value)
  | getIntMutString (key : ByteString) (write : Int64 → Int64)
  | getIntMutShortString (key : ShortString) (write : Int64 → Int64)
  | remove (key : Key)
  | packedValuesForPin (write : ℕ → Value → Value)
  | markTypeChecked (id : ArrayTypeCheckId)

/-- One step on the pool: a new array, a clone of an array, or an operation on one array. -/
inductive PoolOp
  | newVec (elements : List Value)
  | newDict
  | cowClone (target : ℕ)
  | vec (target : ℕ) (op : VecOp)
  | dict (target : ℕ) (op : DictOp)

namespace TypeCheckRuns

section

variable (hs : HashState) (g : HashTable.Growth IndexEntry)

def stepVec (v : VecObject Value) : VecOp → VecObject Value
  | .push value => v.push value
  | .set index value => (v.set index value).2
  | .getMut index write => (v.getMut index write).2
  | .remove index => (v.remove index).2
  | .swapRemove index => (v.swapRemove index).2
  | .removeFirst => v.removeFirst.2
  | .removeLast => v.removeLast.2
  | .asMutSlice write => v.asMutSlice write
  | .markTypeChecked id => v.markTypeChecked id

def stepDict (d : DictObject Value) : DictOp → Checked (DictObject Value)
  | .insert key value => (d.insert hs g key value).map (·.2)
  | .insertInt key value => (d.insertInt hs g key value).map (·.2)
  | .insertShortString key value => (d.insertShortString hs g key value).map (·.2)
  | .getMutRef key write => (d.getMutRef hs key write).map (·.2)
  | .getIntMutString key write => (d.getIntMutString hs key write).map (·.2)
  | .getIntMutShortString key write => (d.getIntMutShortString hs key write).map (·.2)
  | .remove key => (d.remove hs g key).map (·.2)
  | .packedValuesForPin write => .ok (d.packedValuesForPin write)
  | .markTypeChecked id => .ok (d.markTypeChecked id)

def step (pool : List ArrayObject) : PoolOp → Checked (List ArrayObject)
  | .newVec elements => .ok (pool++[.vec (.withElements elements)])
  | .newDict => .ok (pool++[.dict .new])
  | .cowClone target =>
    match pool[target]? with
    | some (.vec v) => .ok (pool++[.vec v.cowClone])
    | some (.dict d) => .ok (pool++[.dict d.cowClone])
    | none => .ok pool
  | .vec target op =>
    match pool[target]? with
    | some (.vec v) => .ok (pool.set target (.vec (stepVec v op)))
    | _ => .ok pool
  | .dict target op =>
    match pool[target]? with
    | some (.dict d) => (stepDict hs g d op).map fun d => pool.set target (.dict d)
    | _ => .ok pool

end

section

variable (sat : CheckPredicates)

/-- A mark is only made when all current entries satisfy the predicate. -/
def Admissible (pool : List ArrayObject) : PoolOp → Prop
  | .vec target (.markTypeChecked id) =>
    ∀ v, pool[target]? = some (.vec v) → ∀ value ∈ v.elements, sat.vec id value
  | .dict target (.markTypeChecked id) =>
    ∀ d, pool[target]? = some (.dict d) → ∀ e ∈ d.iter, sat.dict id e.1 e.2
  | _ => True

/-- The cache vouches for the check `id` at a slot. -/
def Vouches (d : DictObject Value) (id : ArrayTypeCheckId) (slot : ℕ) : Prop :=
  d.getTypeCheck id = .clean id ∨ ∃ dirty, d.getTypeCheck id = .dirty id dirty ∧ slot ≠ dirty.toNat

/-- An integer write to the entry of `key` keeps every check the cache vouches for there. -/
def KeepsVouched (d : DictObject Value) (key : Key) (write : Int64 → Int64) : Prop :=
  ∀ slot k v, d.entryAtSlot slot = some (some (k,v)) → (k == key) = true →
    ∀ id, Vouches d id slot → sat.dict id k (v.writeInt write)

/-- The condition on the integer writes that leave no note. -/
def Careful (pool : List ArrayObject) : PoolOp → Prop
  | .dict target (.getIntMutString key write) =>
    ∀ d, pool[target]? = some (.dict d) → KeepsVouched sat d (.string key) write
  | .dict target (.getIntMutShortString key write) =>
    ∀ d, pool[target]? = some (.dict d) → KeepsVouched sat d (.shortString key) write
  | _ => True

/-- What the cached answers of an array say is true of its entries. -/
def Truthful : ArrayObject → Prop
  | .vec v => ∀ id, (v.getTypeCheck id = .clean id → ∀ value ∈ v.elements, sat.vec id value) ∧
    ∀ slot, v.getTypeCheck id = .dirty id slot →
      ∀ i value, i ≠ slot.toNat → v.get i = some value → sat.vec id value
  | .dict d => ∀ id, (d.getTypeCheck id = .clean id → ∀ e ∈ d.iter, sat.dict id e.1 e.2) ∧
    ∀ slot, d.getTypeCheck id = .dirty id slot →
      ∀ i e, i ≠ slot.toNat → d.entryAtSlot i = some (some e) → sat.dict id e.1 e.2

variable (hs : HashState) (g : HashTable.Growth IndexEntry)

/-- A condition on states and operations holds at every step of a run. -/
def AllSteps (P : List ArrayObject → PoolOp → Prop) : List ArrayObject → List PoolOp → Prop
  | _, [] => True
  | pool, op::ops => P pool op ∧ ∀ pool', step hs g pool op = .ok pool' → AllSteps P pool' ops

/-- A condition on states holds at every state of a run. -/
def AllStates (P : List ArrayObject → Prop) : List ArrayObject → List PoolOp → Prop
  | pool, [] => P pool
  | pool, op::ops => P pool ∧ ∀ pool', step hs g pool op = .ok pool' → AllStates P pool' ops

end

variable {k : Key} {i : ℕ}

section

open DictObject

variable {sat : ArrayTypeCheckId → Key → Value → Prop} {hs : HashState}
  {g : HashTable.Growth IndexEntry} {d d' : DictObject Value}

/-- The cache of a dictionary tells the truth about the check predicates `sat`. -/
def DictSound (sat : ArrayTypeCheckId → Key → Value → Prop) (d : DictObject Value) : Prop :=
  d.typeCheck.Sound fun id i => ∀ e, d.slots[i]? = some (some e) → sat id e.1 e.2

theorem forall_slots_iff (d : DictObject Value) (P : Key × Value → Prop) :
    (∀ (i : ℕ) e, d.slots[i]? = some (some e) → P e) ↔ ∀ e ∈ d.iter, P e := by
  rw [iter_eq_slots]
  constructor
  · intro h e he
    obtain ⟨i,hi⟩ := mem_iff_getElem?.mp (reduceOption_mem_iff.mp he)
    exact h i e hi
  · intro h i e hi
    exact h e (mem_reduceOption_of_getElem? hi)

theorem DictSound.same (h : DictSound sat d) (hslots : d'.slots = d.slots)
    (hcache : d'.typeCheck = d.typeCheck) : DictSound sat d' := by
  unfold DictSound
  rwa [hslots,hcache]

section
variable {key : Key} (h : DictSound sat d)
include h

theorem DictSound.overwritten {old new : Value} (e : OverwrittenAt key d d' i k old new) : DictSound sat d' := by
  unfold DictSound
  rw [e.cache,e.slots]
  refine h.noteMutation fun id j hj hsatisfied entry hentry => hsatisfied entry ?_
  rwa [getElem?_set_ne hj.symm] at hentry

theorem DictSound.appended {value : Value} (e : Appended key d d' value) : DictSound sat d' := by
  unfold DictSound
  rw [e.cache,e.slots]
  refine h.noteMutation fun id j hj hsatisfied entry hentry => hsatisfied entry ?_
  have hlt := (List.getElem?_eq_some_iff.mp hentry).1
  simp only [length_append,length_singleton] at hlt
  rwa [getElem?_append_left (by omega)] at hentry

theorem DictSound.vacated {old : Value} (e : VacatedAt key d d' i k old) : DictSound sat d' := by
  unfold DictSound
  rw [e.cache]
  refine h.noteRemoval fun id hall => ?_
  rw [forall_slots_iff d' fun e => sat id e.1 e.2]
  rw [forall_slots_iff d fun e => sat id e.1 e.2] at hall
  intro entry hentry
  refine hall entry ?_
  rw [e.iter,reduceOption_set e.before] at hentry
  rw [iter_eq_slots,reduceOption_split e.before]
  simp only [Option.toList_none,nil_append,mem_append] at hentry
  rcases hentry with hentry | hentry <;> simp [hentry]

end

/-- The state kept along a run. -/
structure DictInv (sat : ArrayTypeCheckId → Key → Value → Prop) (hs : HashState) (d : DictObject Value) :
    Prop where
  wf : WF hs d
  sound : DictSound sat d

theorem dictInv_new : DictInv sat hs (new : DictObject Value) := ⟨wf_new hs,ArrayTypeCheckCache.sound_new⟩

variable {r : Checked (Option Value × DictObject Value)}

section
variable (h : DictInv sat hs d)
include h

variable {key : Key}

theorem DictInv.inserted {value : Value} (hr : Inserted hs key value d r)
    (hd' : r.map (·.2) = .ok d') : DictInv sat hs d' := by
  cases hr with
  | full => cases hd'
  | appended hwf e =>
    cases hd'
    exact ⟨hwf,h.sound.appended e⟩
  | overwritten hwf e =>
    cases hd'
    exact ⟨hwf,h.sound.overwritten e⟩

theorem DictInv.removed (hr : Removed hs key d r) (hd' : r.map (·.2) = .ok d') : DictInv sat hs d' := by
  cases hr with
  | missing hwf e =>
    cases hd'
    exact ⟨hwf,h.sound.same e.slots e.cache⟩
  | vacated hwf e =>
    cases hd'
    exact ⟨hwf,h.sound.vacated e⟩

theorem DictInv.getMutRef {write : Value → Value}
    (hd' : (d.getMutRef hs key write).map (·.2) = .ok d') : DictInv sat hs d' := by
  rcases h.wf.getMutRef_eq key write with ⟨-,hrun⟩ | ⟨d₁,i,k,old,hrun,hwf,e⟩ <;> rw [hrun] at hd' <;> cases hd'
  · exact h
  · exact ⟨hwf,h.sound.overwritten e⟩

theorem DictInv.packedValuesForPin (write : ℕ → Value → Value) : DictInv sat hs (d.packedValuesForPin write) := by
  unfold DictObject.packedValuesForPin
  rcases hp : d.packed with _ | values
  · exact h
  · exact ⟨wf_packed rfl (by simpa using h.wf.length_packed hp) (h.wf.packed (by simp [hp])),
      ArrayTypeCheckCache.sound_new⟩

theorem DictInv.markTypeChecked {id : ArrayTypeCheckId}
    (hid : ∀ e ∈ d.iter, sat id e.1 e.2) : DictInv sat hs (d.markTypeChecked id) :=
  ⟨h.wf.setTypeCheck _,
    ArrayTypeCheckCache.Sound.markChecked h.sound ((forall_slots_iff d fun e => sat id e.1 e.2).mpr hid)⟩

end

/-- The integer write that leaves no note: one slot changes and the cache does not. -/
structure IntWritten (key : Key) (write : Int64 → Int64) (d d' : DictObject Value) (i : ℕ) (k : Key)
    (v : Value) : Prop where
  key_eq : (k == key) = true
  before : d.slots[i]? = some (some (k,v))
  slots : d'.slots = d.slots.set i (some (k,v.writeInt write))
  cache : d'.typeCheck = d.typeCheck

/-- The outcomes of both integer references, as the dictionary they leave. -/
inductive IntMut (hs : HashState) (key : Key) (write : Int64 → Int64) (d : DictObject Value) :
    Checked (DictObject Value) → Prop
  | missing (h : OrderedMap.Absent d.iter key) : IntMut hs key write d (.ok d)
  | written {d' : DictObject Value} {i : ℕ} {k : Key} {v : Value} (hwf : WF hs d')
    (heffect : IntWritten key write d d' i k v) : IntMut hs key write d (.ok d')

theorem intMut_writeIntFound (h : WF hs d) (hp : d.packed = none) {key : Key} {p : Slot Value → Bool}
    (hmatch : ∀ slot, p slot = slot.matchesKey key) (write : Int64 → Int64) :
    IntMut hs key write d ((d.writeIntFound write (d.findSlot (key.hash64 hs) p)).map (·.2)) := by
  rcases h.findSlot_cases hp key hmatch with ⟨hf,habsent⟩ | ⟨e,k,v,hf,hslot,hk⟩
  · rw [hf]
    exact .missing habsent
  · simp only [hf,writeIntFound,slotAt_eq hslot]
    refine .written (h.overwrite hp hslot hp rfl rfl rfl) ⟨hk,slots_getElem? hp hslot,?_,rfl⟩
    simp [DictObject.slots,hp,map_set,Slot.entry]

theorem intMut_packed {vs : List Value} (h : WF hs d) (hp : d.packed = some vs) {key : Key}
    (hkey : packedPosition key = none) (write : Int64 → Int64) : IntMut hs key write d (.ok d) := by
  refine .missing ?_
  rw [iter_packed hp]
  exact packed_absent (h.length_packed hp) (by simp [hkey])

theorem intMut_string (h : WF hs d) (key : ByteString) (write : Int64 → Int64) :
    IntMut hs (.string key) write d ((d.getIntMutString hs key write).map (·.2)) := by
  rcases hp : d.packed with _ | values
  · simp only [getIntMutString,hp]
    exact intMut_writeIntFound h hp (fun slot => slot.matchesString_eq key) write
  · simp only [getIntMutString,hp]
    exact intMut_packed h hp rfl write

theorem intMut_shortString (h : WF hs d) (key : ShortString) (write : Int64 → Int64) :
    IntMut hs (.shortString key) write d ((d.getIntMutShortString hs key write).map (·.2)) := by
  rcases hp : d.packed with _ | values
  · simp only [getIntMutShortString,hp]
    exact intMut_writeIntFound h hp (fun slot => slot.matchesShortString_eq key) write
  · simp only [getIntMutShortString,hp]
    exact intMut_packed h hp rfl write

end

section

open DictObject

variable {sat : CheckPredicates} {hs : HashState} {g : HashTable.Growth IndexEntry}
  {d d' : DictObject Value} {key : Key} {write : Int64 → Int64}

theorem DictSound.truthful (h : DictSound sat.dict d) : Truthful sat (.dict d) := by
  intro id
  refine ⟨fun hclean => ?_,fun slot hdirty i e hi he => ?_⟩
  · exact (forall_slots_iff d fun e => sat.dict id e.1 e.2).mp (h.get_clean hclean)
  · rw [entryAtSlot_eq_slots] at he
    exact h.get_dirty hdirty hi e he

theorem vecSound_truthful {v : VecObject Value} (h : v.CacheSound sat.vec) : Truthful sat (.vec v) :=
  fun _ => ⟨fun hclean => h.clean hclean,fun _ hdirty _ _ hi hv => h.dirty hdirty hi hv⟩

variable {v : Value}

/-- Two slots cannot hold the same key. -/
theorem slot_unique (h : WF hs d) {j : ℕ} {k' : Key} {v' : Value} (hk : (k == key))
    (hi : d.slots[i]? = some (some (k,v))) (hk' : (k' == key))
    (hj : d.slots[j]? = some (some (k',v'))) : i = j := by
  have hle : ∀ {i j : ℕ} {k k' : Key} {v v' : Value}, (k == key) = true →
      d.slots[i]? = some (some (k,v)) → (k' == key) = true →
      d.slots[j]? = some (some (k',v')) → i ≤ j := by
    intro i j k k' v v' hk hi hk' hj
    by_contra hlt
    have ht : (d.slots.take i)[j]? = some (some (k',v')) := by
      rwa [getElem?_take_of_lt (by omega)]
    have hmem := mem_reduceOption_of_getElem? ht
    have := h.absent_before hk hi (k',v') hmem
    simp [hk'] at this
  exact Nat.le_antisymm (hle hk hi hk' hj) (hle hk' hj hk hi)

/-- The unnoted write keeps the cache sound if it keeps what the cache vouches for. -/
theorem DictSound.intWritten (h : DictSound sat.dict d)
    (e : IntWritten key write d d' i k v) (hkeep : KeepsVouched sat d key write) : DictSound sat.dict d' := by
  have hkeep' := hkeep i k v (by rw [entryAtSlot_eq_slots,e.before]) e.key_eq
  have hslot : ∀ id j, Vouches d id j → (∀ x, d.slots[j]? = some (some x) → sat.dict id x.1 x.2) →
      ∀ x, d'.slots[j]? = some (some x) → sat.dict id x.1 x.2 := by
    intro id j hv hold x hx
    rw [e.slots,getElem?_set] at hx
    split at hx
    · next hij =>
      subst hij
      split at hx <;> cases hx
      exact hkeep' id hv
    · exact hold x hx
  have hclean : ∀ id, d.typeCheck.get id = .clean id → ∀ (j : ℕ) x, d'.slots[j]? = some (some x) →
      sat.dict id x.1 x.2 := fun id hc j => hslot id j (.inl hc) (h.get_clean hc j)
  unfold DictSound
  rw [e.cache]
  rcases hk : d.typeCheck.kind <;> simp only [ArrayTypeCheckCache.Sound,hk]
  · exact hclean _ (by simp [ArrayTypeCheckCache.get,hk])
  · exact ⟨hclean _ (by simp [ArrayTypeCheckCache.get,hk]),
      hclean _ (by simp [ArrayTypeCheckCache.get,hk])⟩
  · intro j hj
    have hdirty : d.typeCheck.get d.typeCheck.primary = .dirty d.typeCheck.primary d.typeCheck.slot := by
      simp [ArrayTypeCheckCache.get,hk]
    exact hslot _ j (.inr ⟨_,hdirty,hj⟩) (h.get_dirty hdirty hj)

/-- Conversely, an answer that is still true after the write vouches for the written entry. -/
theorem keepsVouched_of_truthful (h : WF hs d)
    (e : IntWritten key write d d' i k v) (htrue : Truthful sat (.dict d')) : KeepsVouched sat d key write := by
  intro slot k' v' hentry hk' id hv
  rw [entryAtSlot_eq_slots] at hentry
  obtain rfl := slot_unique h e.key_eq e.before hk' hentry
  have heq : (k',v') = (k,v) := by
    have := hentry.symm.trans e.before
    simpa using this
  cases heq
  obtain ⟨hi,-⟩ := List.getElem?_eq_some_iff.mp e.before
  have hafter : d'.slots[i]? = some (some (k,v.writeInt write)) := by simp [e.slots,hi]
  have hsame : d'.getTypeCheck id = d.getTypeCheck id := by simp only [getTypeCheck,e.cache]
  rcases hv with hclean | ⟨dirty,hdirty,hne⟩
  · refine (htrue id).1 (hsame.trans hclean) (k,v.writeInt write) ?_
    rw [iter_eq_slots]
    exact mem_reduceOption_of_getElem? hafter
  · exact (htrue id).2 dirty (hsame.trans hdirty) i _ hne (by rw [entryAtSlot_eq_slots,hafter])

end

section

open DictObject

variable {sat : CheckPredicates} {hs : HashState} {g : HashTable.Growth IndexEntry}
  {pool pool' : List ArrayObject}

/-- The invariant of one array. -/
def ArrayInv (sat : CheckPredicates) (hs : HashState) : ArrayObject → Prop
  | .vec v => v.CacheSound sat.vec
  | .dict d => DictInv sat.dict hs d

variable {o : ArrayObject}

theorem ArrayInv.truthful (h : ArrayInv sat hs o) : Truthful sat o := by
  cases o with
  | vec => exact vecSound_truthful h
  | dict => exact h.sound.truthful

theorem stepVec_sound {v : VecObject Value} (h : v.CacheSound sat.vec) (op : VecOp)
    (hm : ∀ id, op = .markTypeChecked id → ∀ value ∈ v.elements, sat.vec id value) :
    (stepVec v op).CacheSound sat.vec := by
  cases op with
  | push value => exact h.push value
  | set index value => exact h.set index value
  | getMut index write => exact h.getMut index write
  | remove index => exact h.remove index
  | swapRemove index => exact h.swapRemove index
  | removeFirst => exact h.remove 0
  | removeLast => exact h.removeLast
  | asMutSlice write => exact VecObject.cacheSound_asMutSlice write
  | markTypeChecked id => exact h.markTypeChecked (hm id rfl)

variable {d d' : DictObject Value}

theorem DictInv.intMut (h : DictInv sat.dict hs d) {key : Key}
    {write : Int64 → Int64} {r : Checked (DictObject Value)} (hr : IntMut hs key write d r)
    (hd' : r = .ok d') (hkeep : KeepsVouched sat d key write) : DictInv sat.dict hs d' := by
  cases hr with
  | missing =>
    cases hd'
    exact h
  | written hwf e =>
    cases hd'
    exact ⟨hwf,h.sound.intWritten e hkeep⟩

/-- The key and the write of an integer reference. -/
def DictOp.intWrite : DictOp → Option (Key × (Int64 → Int64))
  | .getIntMutString key write => some (.string key,write)
  | .getIntMutShortString key write => some (.shortString key,write)
  | _ => none

theorem stepDict_inv (h : DictInv sat.dict hs d) (op : DictOp)
    (hm : ∀ id, op = .markTypeChecked id → ∀ e ∈ d.iter, sat.dict id e.1 e.2)
    (hkeep : ∀ key write, DictOp.intWrite op = some (key,write) → KeepsVouched sat d key write)
    (hd' : stepDict hs g d op = .ok d') : DictInv sat.dict hs d' := by
  cases op with
  | insert key value => exact h.inserted (h.wf.insert_eq key value) hd'
  | insertInt key value => exact h.inserted (h.wf.insertInt_eq key value) hd'
  | insertShortString key value => exact h.inserted (h.wf.insertShortString_eq key value) hd'
  | getMutRef => exact h.getMutRef hd'
  | getIntMutString key write =>
    exact h.intMut (intMut_string h.wf key write) hd' (hkeep _ _ rfl)
  | getIntMutShortString key write =>
    exact h.intMut (intMut_shortString h.wf key write) hd' (hkeep _ _ rfl)
  | remove key => exact h.removed (h.wf.remove_eq key) hd'
  | packedValuesForPin write =>
    cases hd'
    exact h.packedValuesForPin write
  | markTypeChecked id =>
    cases hd'
    exact h.markTypeChecked (hm id rfl)

variable {P : ArrayObject → Prop}

theorem forall_mem_append_one (h : ∀ o ∈ pool, P o) (ho : P o) : ∀ o' ∈ pool++[o], P o' :=
  forall_mem_append.mpr ⟨h,forall_mem_singleton.mpr ho⟩

theorem forall_mem_set (h : ∀ o ∈ pool, P o) (ho : P o) (t : ℕ) : ∀ o' ∈ pool.set t o, P o' := by
  intro o' ho'
  rcases mem_or_eq_of_mem_set ho' with ho' | rfl
  · exact h o' ho'
  · exact ho

section
variable (h : ∀ o ∈ pool, ArrayInv sat hs o)
include h

/-- One careful step keeps the invariant of every array. -/
theorem step_inv {op : PoolOp} (hadmissible : Admissible sat pool op)
    (hcareful : Careful sat pool op) (hstep : step hs g pool op = .ok pool') : ∀ o ∈ pool', ArrayInv sat hs o := by
  cases op with
  | newVec es =>
    cases hstep
    exact forall_mem_append_one h (VecObject.cacheSound_withElements es)
  | newDict =>
    cases hstep
    exact forall_mem_append_one h dictInv_new
  | cowClone =>
    simp only [step] at hstep
    split at hstep <;> cases hstep
    · next v hv => exact forall_mem_append_one h (h (.vec v) (mem_of_getElem? hv))
    · next d hd => exact forall_mem_append_one h (h (.dict d) (mem_of_getElem? hd))
    · exact h
  | vec t op =>
    simp only [step] at hstep
    split at hstep <;> cases hstep
    · next v hv =>
      have hv' : ArrayInv sat hs (.vec (stepVec v op)) := by
        refine stepVec_sound (h (.vec v) (mem_of_getElem? hv)) op ?_
        rintro id rfl
        exact hadmissible v hv
      exact forall_mem_set h hv' t
    · exact h
  | dict t op =>
    simp only [step] at hstep
    split at hstep
    · next d hd =>
      rcases hrun : stepDict hs g d op with violation | d' <;> rw [hrun] at hstep <;> cases hstep
      have hd' : ArrayInv sat hs (.dict d') := by
        refine stepDict_inv (h (.dict d) (mem_of_getElem? hd)) op ?_ ?_ hrun
        · rintro id rfl
          exact hadmissible d hd
        · intro key write hop
          cases op <;> cases hop <;> exact hcareful d hd
      exact forall_mem_set h hd' t
    · cases hstep
      exact h

/-- A step after which all answers are true was careful. -/
theorem careful_of_truthful {op : PoolOp}
    (htrue : ∀ pool', step hs g pool op = .ok pool' → ∀ o ∈ pool', Truthful sat o) : Careful sat pool op := by
  have hkeep : ∀ t dictOp key write d, op = .dict t dictOp → pool[t]? = some (.dict d) →
      IntMut hs key write d (stepDict hs g d dictOp) → KeepsVouched sat d key write := by
    rintro t dictOp key write d rfl hd hr
    have hwf : WF hs d := (h (.dict d) (mem_of_getElem? hd)).wf
    generalize hrun : stepDict hs g d dictOp = r at hr
    cases hr with
    | missing habsent =>
      intro slot k v hentry hk
      rw [entryAtSlot_eq_slots] at hentry
      have hmem : (k,v) ∈ d.iter := by
        rw [iter_eq_slots]
        exact mem_reduceOption_of_getElem? hentry
      exact absurd hk (by simp [habsent (k,v) hmem])
    | @written d' _ _ _ _ e =>
      refine keepsVouched_of_truthful hwf e (htrue (pool.set t (.dict d')) ?_ _ ?_)
      · simp only [step,hd,hrun]
        rfl
      · exact mem_set (List.getElem?_eq_some_iff.mp hd).1 _
  cases op with
  | dict t dictOp =>
    cases dictOp with
    | getIntMutString key write =>
      exact fun d hd => hkeep t _ _ write d rfl hd (intMut_string
        (h (.dict d) (mem_of_getElem? hd)).wf key write)
    | getIntMutShortString key write =>
      exact fun d hd => hkeep t _ _ write d rfl hd (intMut_shortString
        (h (.dict d) (mem_of_getElem? hd)).wf key write)
    | _ => trivial
  | _ => trivial

theorem allStates_iff_of_inv (ops : List PoolOp) (hadmissible : AllSteps hs g (Admissible sat) pool ops) :
    AllStates hs g (fun pool => ∀ o ∈ pool, Truthful sat o) pool ops ↔ AllSteps hs g (Careful sat) pool ops := by
  induction ops generalizing pool with
  | nil => exact ⟨fun _ => trivial,fun _ o ho => (h o ho).truthful⟩
  | cons op ops ih =>
    constructor
    · rintro ⟨-,hstates⟩
      have hhead : ∀ {ops : List PoolOp} {pool : List ArrayObject},
          AllStates hs g (fun pool => ∀ o ∈ pool, Truthful sat o) pool ops →
            ∀ o ∈ pool, Truthful sat o := by
        rintro (_ | ⟨op,ops⟩) pool hall
        · exact hall
        · exact hall.1
      have hcareful := careful_of_truthful h fun pool' hstep => hhead (hstates pool' hstep)
      refine ⟨hcareful,fun pool' hstep => ?_⟩
      exact (ih (step_inv h hadmissible.1 hcareful hstep) (hadmissible.2 pool' hstep)).mp
        (hstates pool' hstep)
    · rintro ⟨hcareful,hsteps⟩
      refine ⟨fun o ho => (h o ho).truthful,fun pool' hstep => ?_⟩
      exact (ih (step_inv h hadmissible.1 hcareful hstep) (hadmissible.2 pool' hstep)).mpr
        (hsteps pool' hstep)

end

/-- Along a run from the empty pool that marks only checked arrays, all cached answers are true at
every state exactly if every integer write without a note keeps what the cache vouches for. -/
theorem allStates_truthful_iff (sat : CheckPredicates) (hs : HashState) (g : HashTable.Growth IndexEntry)
    (ops : List PoolOp) (hadmissible : AllSteps hs g (Admissible sat) [] ops) :
    AllStates hs g (fun pool => ∀ o ∈ pool, Truthful sat o) [] ops ↔ AllSteps hs g (Careful sat) [] ops :=
  allStates_iff_of_inv (by simp) ops hadmissible

/-- The inline key `"a"`. -/
def keyA : ShortString := ⟨[97,0,0,0,0,0,0],1,rfl,by decide,rfl⟩

/-- Checks that all accept the integer one only. -/
def onlyOne : CheckPredicates := ⟨fun _ v => v.asInt = some 1,fun _ _ v => v.asInt = some 1⟩

/-- A checked dictionary whose only entry is then overwritten with `written`. -/
def overwriteRun (written : Int64) : List PoolOp :=
  [.newDict,.dict 0 (.insert (.shortString keyA) (.int 1)),.dict 0 (.markTypeChecked 7),
    .dict 0 (.getIntMutShortString keyA fun _ => written)]

theorem admissible_overwriteRun (w : Int64) :
    AllSteps (HashState.new fun _ => 0) (HashTable.Growth.exact _) (Admissible onlyOne) []
      (overwriteRun w) := by
  refine ⟨trivial,?_⟩
  rintro _ ⟨⟩
  refine ⟨trivial,?_⟩
  rintro _ ⟨⟩
  refine ⟨?_,?_⟩
  · rintro d ⟨⟩ e he
    cases he with
    | head => rfl
    | tail _ he => cases he
  · rintro _ ⟨⟩
    exact ⟨trivial,fun _ _ => trivial⟩

/-- Writing the accepted integer again keeps all answers true. -/
theorem allStates_truthful_iff_overwriteRun : AllStates (HashState.new fun _ => 0) (HashTable.Growth.exact _)
    (fun pool => ∀ o ∈ pool, Truthful onlyOne o) [] (overwriteRun 1) := by
  refine (allStates_truthful_iff onlyOne _ _ _ (admissible_overwriteRun 1)).mpr ?_
  refine ⟨trivial,?_⟩
  rintro _ ⟨⟩
  refine ⟨trivial,?_⟩
  rintro _ ⟨⟩
  refine ⟨trivial,?_⟩
  rintro _ ⟨⟩
  refine ⟨?_,fun _ _ => trivial⟩
  rintro d ⟨⟩ (_ | slot) k v ⟨⟩ _ id _
  rfl

/-- Writing another integer leaves a clean answer about an entry that fails the check. -/
theorem overwriteRun_stale : AllSteps (HashState.new fun _ => 0) (HashTable.Growth.exact _) (Admissible onlyOne) []
    (overwriteRun 2) ∧ ¬ AllStates (HashState.new fun _ => 0) (HashTable.Growth.exact _)
    (fun pool => ∀ o ∈ pool, Truthful onlyOne o) [] (overwriteRun 2) := by
  refine ⟨admissible_overwriteRun 2,fun h => ?_⟩
  have hlast := ((((h.2 _ rfl).2 _ rfl).2 _ rfl).2 _ rfl) _ (mem_singleton.mpr rfl)
  have hfalse : (some 2 : Option Int64) = some 1 := (hlast 7).1 rfl _ (mem_singleton.mpr rfl)
  exact absurd hfalse (by decide)

end

end TypeCheckRuns
end Whim
