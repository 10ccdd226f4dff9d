import Whim.DictEffects

/-!
# The dictionary mutators

Each mutator keeps the invariant and has one of the four effects, unless all `2 ^ 32` slots are in use.
-/

namespace Whim.DictObject

open OrderedMap List Option UInt32

variable {V : Type} {hs : HashState} {g : HashTable.Growth IndexEntry} {d d' : DictObject V}

variable {k : Key} {old : V}

section

theorem nodupKeys_congr {m m' : List (Key × V)} (h : NodupKeys m)
    (hk : m'.map (·.1) = m.map (·.1)) : NodupKeys m' := by
  have h' : (m.map (·.1)).Pairwise fun a b => (a == b) = false := pairwise_map.mpr h
  rw [← hk] at h'
  exact pairwise_map.mp h'

theorem OverwrittenAt.length_slots {key : Key} {i : ℕ} {new : V}
    (e : OverwrittenAt key d d' i k old new) : d'.slots.length = d.slots.length := by
  simp [e.slots]

/-- Overwriting keeps the invariant as long as the index keeps its items. -/
theorem WF.overwrite (h : WF hs d) (hp : d.packed = none) {i : ℕ} {new : V}
    (hi : d.entries[i]? = some (.occupied k old)) (hp' : d'.packed = none)
    (hentries : d'.entries = d.entries.set i (.occupied k new))
    (hitems : d'.index.items = d.index.items) (hlive : d'.live = d.live) : WF hs d' := by
  have hslots : d'.slots = d.slots.set i (some (k,new)) := by
    simp [slots_indexed hp,slots_indexed hp',hentries,map_set,Slot.entry]
  have hbefore := slots_getElem? hp hi
  have hk : d'.iter.map (·.1) = d.iter.map (·.1) := by
    simp [iter_eq_slots,hslots,reduceOption_set hbefore,reduceOption_split hbefore]
  refine ⟨nodupKeys_congr h.keys hk,by simpa [hslots] using h.bound,by simp [hp'],fun _ => ?_,fun _ => ?_⟩
  · refine (h.indexed hp).congr hitems fun j => ?_
    rw [hentries]
    by_cases hij : i = j
    · subst hij
      obtain ⟨hlt,-⟩ := List.getElem?_eq_some_iff.mp hi
      rw [keyAt_eq_some.mpr ⟨old,hi⟩]
      exact keyAt_eq_some.mpr ⟨new,by simp [hlt]⟩
    · simp [keyAt,getElem?_set_ne hij]
  · rw [hlive,h.live hp]
    simpa using (congrArg List.length hk).symm

theorem WF.append (h : WF hs d) (hp : d.packed = none) {key : Key} {value : V}
    (habsent : Absent d.iter key) (hlt : d.entries.length < 2 ^ 32) (hp' : d'.packed = none)
    (hentries : d'.entries = d.entries++[.occupied key value]) (hitems : d'.index.items = d.index.items ++
      [(key.hash64 hs,.new (ofNat d.entries.length) (key.hash64 hs))]) (hlive : d'.live = d.live+1) : WF hs d' := by
  have hiter : d'.iter = d.iter++[(key,value)] := by
    simp [iter_indexed hp,iter_indexed hp',occupied,hentries,Slot.entry]
  refine ⟨?_,?_,by simp [hp'],fun _ => ?_,fun _ => ?_⟩
  · rw [hiter]
    exact h.keys.insert_absent habsent
  · simp [slots_indexed hp',hentries]
    omega
  · rw [hentries]
    exact (h.indexed hp).append (toNat_ofNat_of_lt' hlt) hitems
  · simp [hlive,h.live hp,hiter]

theorem WF.set_packed (h : WF hs d) {values : List V} (hp : d.packed = some values) (i : ℕ) (v : V)
    (cache : ArrayTypeCheckCache) : WF hs { d with packed := some (values.set i v), typeCheck := cache } :=
  wf_packed rfl (by simpa using h.length_packed hp) (h.packed (by simp [hp]))

/-- The type-check cache is not part of the invariant. -/
theorem WF.setTypeCheck (h : WF hs d) (cache : ArrayTypeCheckCache) : WF hs { d with typeCheck := cache } :=
  ⟨h.keys,h.bound,h.packed,h.indexed,h.live⟩

end

variable {index : HashTable IndexEntry}

section

theorem materializeLoop_eq (pos : ℕ) (values : List V) {es : List (Slot V)}
    (h : Indexed hs es index) (hlen : es.length = pos) (hbound : pos+values.length ≤ 2 ^ 32) :
    ∃ i', materializeLoop hs g pos values (es,index) = .ok
      (es++values.mapIdx fun i v => .occupied (.int (Int64.ofNat (pos+i))) v,i') ∧
      Indexed hs (es++values.mapIdx fun i v => .occupied (.int (Int64.ofNat (pos+i))) v) i' := by
  induction values generalizing pos es index with
  | nil => exact ⟨index,by simp [materializeLoop],by simpa using h⟩
  | cons v values ih =>
    simp only [length_cons] at hbound
    have hlt : pos < 2 ^ 32 := by omega
    have hslot : (ofNat pos).toNat = pos := toNat_ofNat_of_lt' hlt
    set key : Key := .int (Int64.ofNat pos) with hkey
    have hold : index.Hashed (hasher hs (es++[.occupied key v])) := by
      refine h.hashed.congr fun e he => ?_
      simp [hasher,slotAt,getElem?_append_left (h.slot_lt he)]
    have hnext : Indexed hs (es++[.occupied key v])
        (pushSlot hs g (ofNat pos) key v (es,index)).2 :=
      h.append (by rw [hslot,hlen]) (hold.items_insertUnique g _ _)
    obtain ⟨i',hrun,hfinal⟩ := ih (pos+1) hnext (by simp [hlen]) (by omega)
    have hshift : es++(v::values).mapIdx (fun i v => .occupied (.int (Int64.ofNat (pos+i))) v) =
        es++[.occupied key v] ++
          values.mapIdx (fun i v => Slot.occupied (.int (Int64.ofNat (pos+1+i))) v) := by
      simp only [mapIdx_cons,Nat.add_zero,Nat.add_assoc,Nat.add_comm 1,append_assoc,
        singleton_append,hkey]
    refine ⟨i',?_,hshift ▸ hfinal⟩
    rw [hshift,← hrun]
    simp only [materializeLoop,slotNumber_of_lt hlt,bind,Except.bind,hslot]
    rfl

/-- Leaving the packed form keeps every slot in place. -/
theorem WF.materializeIndex_eq (h : WF hs d) : ∃ d', d.materializeIndex hs g = .ok d' ∧ WF hs d' ∧
    d'.packed = none ∧ d'.slots = d.slots ∧ d'.typeCheck = d.typeCheck := by
  rcases hp : d.packed with _ | values
  · exact ⟨d,by simp [materializeIndex,hp],h,hp,rfl,rfl⟩
  obtain ⟨hentries,hitems⟩ := h.packed (by simp [hp])
  have hlen := h.length_packed hp
  have hnil : Indexed hs ([] : List (Slot V)) d.index :=
    Indexed.empty.congr (by rw [hitems]; rfl) fun _ => rfl
  obtain ⟨i',hrun,hindexed⟩ := materializeLoop_eq (g := g) 0 values
    (hnil.reserve g values.length) rfl (by omega)
  simp only [Nat.zero_add,nil_append] at hrun hindexed
  set entries' : List (Slot V) := values.mapIdx fun i v => .occupied (.int (Int64.ofNat i)) v
  have hslots : entries'.map Slot.entry = d.slots := by
    rw [slots_packed hp]
    apply ext_getElem?
    intro i
    simp [entries',packedEntries,Function.comp_def,Slot.entry]
  refine ⟨{ d with packed := none, live := values.length, entries := entries', index := i' },
    by simp only [materializeIndex,hp,hentries,hrun]; rfl,?_,rfl,hslots,rfl⟩
  have hiter : occupied entries' = packedEntries values := by
    have := congrArg List.reduceOption (hslots.trans (slots_packed hp))
    simpa [List.reduceOption,occupied,filterMap_map] using this
  refine ⟨?_,?_,by simp,fun _ => hindexed,fun _ => ?_⟩
  · rw [iter_indexed rfl,hiter]
    exact nodupKeys_packedEntries hlen
  · simpa [slots,entries'] using hlen
  · rw [iter_indexed rfl,hiter]
    simp

end

section

variable {key : Key}

theorem mutProbe_eq (key : Key) (slot : Slot V) : mutProbe key slot = slot.matchesKey key := by
  cases key <;>
    simp [mutProbe,Slot.matchesRef_eq,Slot.matchesString_eq,Slot.matchesShortString_eq]

theorem WF.writeFound_eq (h : WF hs d) (hp : d.packed = none) {e : IndexEntry}
    (hk : (k == key)) (hslot : d.entries[e.slot.toNat]? = some (.occupied k old)) (w : V → V)
    (hindex : index.items = d.index.items) (c c' : ArrayTypeCheckCache)
    (hc : c' = d.typeCheck.noteMutation e.slot.toNat) :
    ∃ d', { d with index := index, typeCheck := c }.writeFound e w = .ok (some old,d') ∧
      WF hs { d' with typeCheck := c' } ∧ d'.typeCheck = c ∧
      OverwrittenAt key d { d' with typeCheck := c' } e.slot.toNat k old (w old) := by
  refine ⟨{ d with
      entries := d.entries.set e.slot.toNat (.occupied k (w old)), index := index, typeCheck := c },
    by simp only [writeFound,slotAt_eq hslot],?_,rfl,hk,slots_getElem? hp hslot,?_,hc⟩
  · exact h.overwrite hp hslot hp rfl hindex rfl
  · simp [slots,hp,map_set,Slot.entry]

section

variable {values : List V} {i : ℕ}

theorem getMutRef_packed_of_none (hp : d.packed = some values) (hpos : packedPosition key = none)
    (w : V → V) : d.getMutRef hs key w = .ok (none,d) := by
  cases key with
  | int =>
    simp only [packedPosition] at hpos
    simp [getMutRef,hp,hpos]
  | _ => simp [getMutRef,hp]

theorem getMutRef_packed (hp : d.packed = some values) (hpos : packedPosition key = some i) (w : V → V) :
    d.getMutRef hs key w = .ok (values[i]?, values[i]?.elim d fun value =>
        { d.noteTypeCheckMutation (ofNat i) with packed := some (values.set i (w value)) }) := by
  cases key with
  | int =>
    simp only [packedPosition] at hpos
    cases hv : values[i]? <;> simp [getMutRef,hp,hpos,hv]
  | _ => simp [packedPosition] at hpos

end

/-- Writing through `get_mut_ref`. -/
theorem WF.getMutRef_eq (h : WF hs d) (key : Key) (w : V → V) :
    (Absent d.iter key ∧ d.getMutRef hs key w = .ok (none,d)) ∨
    ∃ d' i k old, d.getMutRef hs key w = .ok (some old,d') ∧ WF hs d' ∧ OverwrittenAt key d d' i k old (w old) := by
  rcases hp : d.packed with _ | values
  · simp only [getMutRef,hp]
    rcases h.findSlot_cases hp key (mutProbe_eq key) with ⟨hf,habsent⟩ | ⟨e,k,old,hf,hslot,hk⟩
    · exact .inl ⟨habsent,by simp [hf]⟩
    obtain ⟨d',hrun,hwf,hcache,heffect⟩ :=
      h.writeFound_eq hp hk hslot w rfl (d.typeCheck.noteMutation e.slot.toNat)
        (d.typeCheck.noteMutation e.slot.toNat) rfl
    have hd' : { d' with typeCheck := d.typeCheck.noteMutation e.slot.toNat } = d' := by
      rw [← hcache]
    rw [hd'] at hwf heffect
    exact .inr ⟨d',_,k,old,by simpa [hf,noteTypeCheckMutation] using hrun,hwf,heffect⟩
  · have hlen := h.length_packed hp
    rcases hpos : packedPosition key with _ | i
    · refine .inl ⟨?_,getMutRef_packed_of_none hp hpos w⟩
      rw [iter_packed hp]
      exact packed_absent hlen (by simp [hpos])
    · have hrun : d.getMutRef hs key w = _ := getMutRef_packed hp hpos w
      rcases hv : values[i]? with _ | old
      · refine .inl ⟨?_,by simpa [hv] using hrun⟩
        rw [iter_packed hp]
        refine packed_absent hlen fun j hj => ?_
        rw [hpos,some_inj] at hj
        exact hj ▸ List.getElem?_eq_none_iff.mp hv
      · obtain ⟨hi,-⟩ := List.getElem?_eq_some_iff.mp hv
        rw [hv,elim_some] at hrun
        refine .inr ⟨_,i,.int (Int64.ofNat i),old,hrun,h.set_packed hp i _ _,?_,?_,?_,?_⟩
        · rw [key_of_packedPosition hpos]
          simp
        · simp [slots_packed hp,packed_getElem? hv]
        · simp [slots,hp,packedEntries_set,map_set]
        · simp only [noteTypeCheckMutation,toNat_ofNat_of_lt' (show i < 2 ^ 32 by omega)]

end

variable {r : Checked (Option V × DictObject V)}

section

variable {key : Key} {value : V}

/-- The outcomes of an insertion. -/
inductive Inserted (hs : HashState) (key : Key) (value : V) (d : DictObject V) :
    Checked (Option V × DictObject V) → Prop
  | full (h : 2 ^ 32 ≤ d.slots.length) : Inserted hs key value d (.error .slotLimit)
  | appended {d' : DictObject V} (hwf : WF hs d') (heffect : Appended key d d' value) :
    Inserted hs key value d (.ok (none,d'))
  | overwritten {d' : DictObject V} {i : ℕ} {k : Key} {old : V} (hwf : WF hs d')
    (heffect : OverwrittenAt key d d' i k old value) : Inserted hs key value d (.ok (some old,d'))

/-- Insertion may start from any storage with the same slots. -/
theorem Inserted.of_slots_eq (h : Inserted hs key value d r) (hslots : d.slots = d'.slots)
    (hcache : d.typeCheck = d'.typeCheck) : Inserted hs key value d' r := by
  have hiter : d.iter = d'.iter := by rw [iter_eq_slots,iter_eq_slots,hslots]
  cases h with
  | full h => exact .full (hslots ▸ h)
  | appended hwf e => exact .appended hwf ⟨hiter ▸ e.absent,hslots ▸ e.slots,by rw [e.cache,hcache,hslots]⟩
  | overwritten hwf e =>
    exact .overwritten hwf ⟨e.key_eq,hslots ▸ e.before,hslots ▸ e.slots,hcache ▸ e.cache⟩

variable {p : Slot V → Bool}

section
variable (h : WF hs d)
include h

theorem WF.insertEntry_eq (hp : d.packed = none) (hmatch : ∀ slot, p slot = slot.matchesKey key) :
    Inserted hs key value d (d.insertEntry hs g key p value) := by
  have hslots : d.slots.length = d.entries.length := by simp [slots_indexed hp]
  have hhashed := (h.indexed hp).hashed
  have hitems := hhashed.items_reserve g 1
  by_cases hfull : d.entries.length < 2 ^ 32
  · simp only [insertEntry,slotNumber_of_lt hfull,bind,Except.bind,hhashed.entry_eq]
    rcases (h.indexed hp).find_cases key hmatch with ⟨hf,habsent⟩ | ⟨e,k,old,hf,hslot,hk⟩
    · rw [← iter_indexed hp] at habsent
      simp only [hf]
      refine .appended ?_ ⟨habsent,?_,?_⟩
      · refine h.append hp habsent hfull hp rfl ?_ rfl
        simp [noteTypeCheckMutation,HashTable.insertVacant,hitems]
      · simp [noteTypeCheckMutation,slots,hp,Slot.entry]
      · simp only [noteTypeCheckMutation,toNat_ofNat_of_lt' hfull,hslots]
    · obtain ⟨d',hrun,hwf,hcache,heffect⟩ := h.writeFound_eq hp hk hslot (fun _ => value) hitems
        d.typeCheck (d.typeCheck.noteMutation e.slot.toNat) rfl
      simp only [hf,hrun,noteTypeCheckMutation,hcache]
      exact .overwritten hwf heffect
  · simp only [insertEntry,slotNumber_of_ge (Nat.not_lt.mp hfull)]
    exact .full (by omega)

/-- Both indexed insertions, whether or not the full index is searched first. -/
theorem WF.insertWith_eq (hmatch : ∀ slot, p slot = slot.matchesKey key) :
    Inserted hs key value d (d.insertWith hs g key p value) := by
  obtain ⟨d₁,hrun,hwf,hp,hslots,hcache⟩ := h.materializeIndex_eq (g := g)
  refine Inserted.of_slots_eq ?_ hslots hcache
  simp only [insertWith,hrun,bind,Except.bind]
  split
  · rcases hwf.getMutRef_eq key fun _ => value with ⟨-,hget⟩ | ⟨d',i,k,old,hget,hwf',heffect⟩
    · simp only [hget]
      exact hwf.insertEntry_eq hp hmatch
    · simp only [hget]
      exact .overwritten hwf' heffect
  · exact hwf.insertEntry_eq hp hmatch

theorem WF.insertIndexed_eq (key : Key) (value : V) : Inserted hs key value d (d.insertIndexed hs g key value) :=
  h.insertWith_eq fun _ => rfl

theorem WF.insertShortString_eq (key : ShortString) (value : V) :
    Inserted hs (.shortString key) value d (d.insertShortString hs g key value) :=
  h.insertWith_eq fun slot => slot.matchesShortString_eq key

theorem WF.insertInt_eq (key : Int64) (value : V) : Inserted hs (.int key) value d (d.insertInt hs g key value) := by
  rcases hp : d.packed with _ | values
  · simpa only [insertInt,hp] using h.insertIndexed_eq (.int key) value
  rcases hpos : usizeTryFrom key with _ | i
  · simpa only [insertInt,hp,hpos] using h.insertIndexed_eq (.int key) value
  have hlen := h.length_packed hp
  have hkey : key = Int64.ofNat i := (usizeTryFrom_eq_some.mp hpos).1
  rcases hv : values[i]? with _ | old
  · simp only [insertInt,hp,hpos,hv]
    split
    · next hi =>
      have habsent : Absent d.iter (.int key) := by
        rw [iter_packed hp]
        refine packed_absent hlen fun j hj => ?_
        rw [show packedPosition (.int key) = some i from hpos,some_inj] at hj
        omega
      have hslots : d.slots.length = values.length := by simp [slots_packed hp]
      by_cases hfull : i < 2 ^ 32
      · simp only [slotNumber_of_lt hfull,bind,Except.bind]
        refine .appended ?_ ⟨habsent,?_,?_⟩
        · exact wf_packed rfl (by simp; omega) (h.packed (by simp [hp]))
        · simp [noteTypeCheckMutation,slots,hp,packedEntries_append,hkey,hi]
        · simp only [noteTypeCheckMutation,toNat_ofNat_of_lt' hfull,hslots,← hi]
      · simp only [slotNumber_of_ge (Nat.not_lt.mp hfull)]
        exact .full (by omega)
    · exact h.insertIndexed_eq (.int key) value
  · obtain ⟨hi,-⟩ := List.getElem?_eq_some_iff.mp hv
    simp only [insertInt,hp,hpos,hv]
    refine .overwritten (i := i) (k := .int key) (h.set_packed hp i _ _) ⟨?_,?_,?_,?_⟩
    · simp
    · simp [slots_packed hp,packed_getElem? hv,hkey]
    · simp [noteTypeCheckMutation,slots,hp,packedEntries_set,map_set,hkey]
    · simp only [noteTypeCheckMutation,toNat_ofNat_of_lt' (show i < 2 ^ 32 by omega)]

theorem WF.insert_eq (key : Key) (value : V) : Inserted hs key value d (d.insert hs g key value) := by
  cases key with
  | int key => exact h.insertInt_eq key value
  | _ => exact h.insertIndexed_eq _ value

end

end

section

variable {key : Key}

theorem compactLoop_eq (old : List (Slot V)) {es : List (Slot V)}
    (h : Indexed hs es index) (hbound : es.length+(occupied old).length ≤ 2 ^ 32) :
    ∃ es' i', compactLoop hs g old (es,index) = .ok (es',i') ∧
      Indexed hs es' i' ∧ occupied es' = occupied es++occupied old ∧
      es'.length = es.length+(occupied old).length := by
  induction old generalizing es index with
  | nil => exact ⟨es,index,rfl,h,by simp [occupied],by simp [occupied]⟩
  | cons slot old ih =>
    cases slot with
    | vacant => simpa only [compactLoop,occupied,filterMap_cons,Slot.entry] using ih h hbound
    | occupied key value =>
      have hlen : (occupied (.occupied key value::old)).length = (occupied old).length+1 := by
        simp [occupied,Slot.entry]
      have hlt : es.length < 2 ^ 32 := by omega
      have hold : index.Hashed (hasher hs (es++[.occupied key value])) := by
        refine h.hashed.congr fun e he => ?_
        simp [hasher,slotAt,getElem?_append_left (h.slot_lt he)]
      have hnext : Indexed hs (es++[.occupied key value])
          (pushSlot hs g (ofNat es.length) key value (es,index)).2 :=
        h.append (toNat_ofNat_of_lt' hlt) (hold.items_insertUnique g _ _)
      obtain ⟨es',i',hrun,hindexed,hoccupied,hlength⟩ := ih hnext (by simp; omega)
      refine ⟨es',i',?_,hindexed,?_,?_⟩
      · rw [← hrun]
        simp only [compactLoop,slotNumber_of_lt hlt,bind,Except.bind]
        rfl
      · rw [hoccupied]
        simp [occupied,Slot.entry]
      · rw [hlength,hlen]
        simp
        omega

/-- Compaction drops tombstones only. -/
theorem WF.compactIfSparse_eq (h : WF hs d) (hp : d.packed = none) :
    ∃ d', d.compactIfSparse hs g = .ok d' ∧ WF hs d' ∧ d'.iter = d.iter ∧
      d'.slots.length ≤ d.slots.length ∧ d'.typeCheck = d.typeCheck := by
  unfold compactIfSparse
  split
  · exact ⟨d,rfl,h,rfl,Nat.le_refl _,rfl⟩
  have hlength : (occupied d.entries).length ≤ d.entries.length := length_filterMap_le _ _
  have hbound : d.entries.length ≤ 2 ^ 32 := by simpa [slots_indexed hp] using h.bound
  have hnil : Indexed hs ([] : List (Slot V)) d.index.clear :=
    Indexed.empty.congr rfl fun _ => rfl
  obtain ⟨es',i',hrun,hindexed,hoccupied,hlen⟩ :=
    compactLoop_eq (g := g) d.entries hnil (by simpa using Nat.le_trans hlength hbound)
  simp only [length_nil,Nat.zero_add] at hlen
  set d' : DictObject V := { d with entries := es', index := i' }
  have hp' : d'.packed = none := hp
  have hiter : d'.iter = d.iter := by
    rw [iter_indexed hp,iter_indexed hp',hoccupied]
    rfl
  have hlen' : d'.slots.length ≤ d.slots.length := by
    rw [slots_indexed hp,slots_indexed hp',length_map,length_map,hlen]
    exact hlength
  refine ⟨d',by rw [hrun]; rfl,?_,hiter,hlen',rfl⟩
  exact ⟨hiter ▸ h.keys,Nat.le_trans hlen' h.bound,by simp [hp'],fun _ => hindexed,fun _ => hiter ▸ h.live hp⟩

/-- The outcomes of a removal. -/
inductive Removed (hs : HashState) (key : Key) (d : DictObject V) : Checked (Option V × DictObject V) → Prop
  | missing {d' : DictObject V} (hwf : WF hs d') (heffect : Missing key d d') : Removed hs key d (.ok (none,d'))
  | vacated {d' : DictObject V} {i : ℕ} {k : Key} {old : V} (hwf : WF hs d')
    (heffect : VacatedAt key d d' i k old) : Removed hs key d (.ok (some old,d'))

theorem Removed.of_slots_eq (h : Removed hs key d r)
    (hslots : d.slots = d'.slots) (hcache : d.typeCheck = d'.typeCheck) : Removed hs key d' r := by
  have hiter : d.iter = d'.iter := by rw [iter_eq_slots,iter_eq_slots,hslots]
  cases h with
  | missing hwf e => exact .missing hwf ⟨hiter ▸ e.absent,hslots ▸ e.slots,hcache ▸ e.cache⟩
  | vacated hwf e =>
    exact .vacated hwf ⟨e.key_eq,hslots ▸ e.before,hslots ▸ e.iter,hslots ▸ e.length_le,hcache ▸ e.cache⟩

theorem WF.vacate (h : WF hs d) (d' : DictObject V) (hp : d.packed = none) {i : ℕ}
    (hi : d.entries[i]? = some (.occupied k old)) (hp' : d'.packed = none)
    (hentries : d'.entries = d.entries.set i .vacant) (hindexed : Indexed hs d'.entries d'.index)
    (hlive : d'.live = d.live-1) :
    WF hs d' ∧ d'.iter = (d.slots.set i none).reduceOption ∧ d'.slots.length = d.slots.length := by
  have hslots : d'.slots = d.slots.set i none := by
    simp [slots_indexed hp,slots_indexed hp',hentries,map_set,Slot.entry]
  have hbefore := slots_getElem? hp hi
  have hiter : d'.iter = (d.slots.set i none).reduceOption := by rw [iter_eq_slots,hslots]
  have hsub : d'.iter.Sublist d.iter := by
    rw [hiter,reduceOption_set hbefore,iter_eq_slots,reduceOption_split hbefore]
    simp
  refine ⟨⟨h.keys.sublist hsub,by simpa [hslots] using h.bound,by simp [hp'],fun _ => hindexed,fun _ => ?_⟩,
    hiter,by simp [hslots]⟩
  rw [hlive,h.live hp,hiter,iter_eq_slots,reduceOption_set hbefore,reduceOption_split hbefore]
  simp

theorem WF.removeIndexed_eq (h : WF hs d) (key : Key) : Removed hs key d (d.removeIndexed hs g key) := by
  obtain ⟨d₁,hrun,hwf,hp,hslots,hcache⟩ := h.materializeIndex_eq (g := g)
  refine Removed.of_slots_eq ?_ hslots hcache
  simp only [removeIndexed,hrun,bind,Except.bind]
  rcases (hwf.indexed hp).find_cases key (p := (·.matchesKey key)) (fun _ => rfl) with
    ⟨hf,habsent⟩ | ⟨e,k,old,hf,hslot,hk⟩
  · simp only [HashTable.removeEntry,hf,map_none]
    exact .missing hwf ⟨(iter_indexed hp).symm ▸ habsent,rfl,rfl⟩
  have hremove : ∃ i', d₁.index.removeEntry g (key.hash64 hs)
      (probe d₁.entries (key.hash64 hs) (·.matchesKey key)) = some (e,i') := by
    simp [HashTable.removeEntry,hf]
  obtain ⟨i',hremove⟩ := hremove
  simp only [hremove,slotAt_eq hslot]
  obtain ⟨hwf₂,hiter,hlen⟩ := hwf.vacate { d₁ with
    index := i'
    entries := d₁.entries.set e.slot.toNat .vacant
    live := d₁.live-1
    typeCheck := d₁.typeCheck.noteRemoval } hp hslot hp rfl ((hwf.indexed hp).vacate hremove) rfl
  obtain ⟨d₃,hcompact,hwf₃,hiter₃,hlen₃,hcache₃⟩ := hwf₂.compactIfSparse_eq (g := g) hp
  simp only [hcompact]
  exact .vacated hwf₃ ⟨hk,slots_getElem? hp hslot,hiter₃.trans hiter,hlen ▸ hlen₃,hcache₃⟩

theorem WF.remove_eq (h : WF hs d) (key : Key) : Removed hs key d (d.remove hs g key) := by
  rcases hp : d.packed with _ | values
  · simpa only [DictObject.remove,hp] using h.removeIndexed_eq key
  have hlen := h.length_packed hp
  have hmissing : (∀ i, packedPosition key = some i → values.length ≤ i) →
      Removed hs key d (.ok (none,d)) := by
    intro hpos
    refine .missing h ⟨?_,rfl,rfl⟩
    rw [iter_packed hp]
    exact packed_absent hlen hpos
  cases key with
  | int pos =>
    simp only [DictObject.remove,hp]
    rcases hpos : usizeTryFrom pos with _ | i
    · exact hmissing (by simp [packedPosition,hpos])
    have hkey : pos = Int64.ofNat i := (usizeTryFrom_eq_some.mp hpos).1
    simp only
    split
    · next hi => exact hmissing (by simpa [packedPosition,hpos] using hi)
    next =>
    split
    · next hl =>
      rcases eq_nil_or_concat values with rfl | ⟨l,x,rfl⟩
      · simp at hl
      simp only [concat_eq_append,length_append,length_singleton,
        getLast?_concat] at hl hlen ⊢
      have hi' : i = l.length := by omega
      refine .vacated (i := i) (k := .int pos) (wf_packed rfl ?_ (h.packed (by simp [hp])))
        ⟨by simp,?_,?_,?_,rfl⟩
      · simp
        omega
      · simp [slots_packed hp,packedEntries_append,hi',hkey]
      · rw [iter_packed rfl]
        simp [slots_packed hp,packedEntries_append,hi',List.reduceOption]
      · simp [slots,hp]
    · exact h.removeIndexed_eq (.int pos)
  | _ =>
    simp only [DictObject.remove,hp]
    exact hmissing (by simp [packedPosition])

end

section

theorem WF.reserveIndex (h : WF hs d) (hp : d.packed = none) (x : ℕ) : WF hs (d.reserveIndex hs g x) :=
  ⟨h.keys,h.bound,fun hsome => by simp [DictObject.reserveIndex,hp] at hsome,
    fun _ => (h.indexed hp).reserve g x,h.live⟩

/-- Reserving room changes neither slots nor cache. -/
theorem WF.reserveForBuild_eq (h : WF hs d) (x : ℕ) :
    ∃ d', d.reserveForBuild hs g x = .ok d' ∧ WF hs d' ∧ d'.slots = d.slots ∧ d'.typeCheck = d.typeCheck := by
  by_cases hnil : d.packed.map List.isEmpty = some true
  · obtain ⟨d₁,hrun,hwf,hp,hslots,hcache⟩ := h.materializeIndex_eq (g := g)
    exact ⟨d₁.reserveIndex hs g x,by simp [reserveForBuild,hnil,hrun,hp,bind,Except.bind],
      hwf.reserveIndex hp x,hslots,hcache⟩
  · cases hp : d.packed with
    | none =>
      exact ⟨d.reserveIndex hs g x,by simp [reserveForBuild,hp,bind,Except.bind],
        h.reserveIndex hp x,rfl,rfl⟩
    | some values =>
      have hne : values ≠ [] := by
        rintro rfl
        simp [hp] at hnil
      exact ⟨d,by simp [reserveForBuild,hp,hne,bind,Except.bind],h,rfl,rfl⟩

theorem WF.reserveHint_eq (h : WF hs d) (x : ℕ) :
    WF hs (d.reserveHint hs g x) ∧ (d.reserveHint hs g x).slots = d.slots ∧
      (d.reserveHint hs g x).typeCheck = d.typeCheck := by
  rcases hp : d.packed with _ | values
  · simp only [reserveHint,hp]
    exact ⟨h.reserveIndex hp x,rfl,rfl⟩
  · simp only [reserveHint,hp]
    exact ⟨h,trivial,trivial⟩

end

end Whim.DictObject
