import Whim.Equality

/-!
# Structural hashing

`structural_hash` returns the recursive hash of a value, in which a dictionary combines its entry hashes without regard
to their order, so deeply equal values hash alike.
-/

namespace Whim

open List

def mixHash (value : UInt64) : UInt64 :=
  let value := value ^^^ (value >>> 30)
  let value := value*0xbf58476d1ce4e5b9
  let value := value ^^^ (value >>> 27)
  let value := value*0x94d049bb133111eb
  value ^^^ (value >>> 31)

inductive HashTask
  | value (v : Value)
  | key (k : KeyRef)
  | sequence (domain : UInt8) (elements : ℕ)
  | dict (entries : ℕ)

namespace StructuralHash

def hashNull : UInt64 := 0x9a5f734100c658ad
def hashFloat : UInt64 := 0xf8c23401377c65eb
def hashFunction : UInt64 := 0x95f473a682d2ba1f
def hashObject : UInt64 := 0x3f714ae9b272958d
def hashInternal : UInt64 := 0x2184fea81b497d6b
def hashVec : UInt8 := 1
def hashDict : UInt8 := 2
def hashTuple : UInt8 := 3
def hashPair : UInt8 := 4

variable (hs : HashState)

def sequenceHash (domain : UInt8) (elements : ℕ) (hashes : List UInt64) : UInt64 :=
  hs.random ([.u8 domain,.usize elements]++hashes.map .u64)

def pairHash (pair : UInt64 × UInt64) : UInt64 := hs.random [.u8 hashPair,.u64 pair.1,.u64 pair.2]

def rotateLeft (x n : UInt64) : UInt64 := x <<< n ||| x >>> ((64-n) % 64)

/-- The wrapping sum and the rotated exclusive or of the entry hashes. -/
def combinePairs (pairs : List (UInt64 × UInt64)) : UInt64 × UInt64 :=
  pairs.foldl (fun acc pair =>
    (acc.1+pairHash hs pair,acc.2 ^^^ rotateLeft (pairHash hs pair) (pairHash hs pair >>> 58))) (0,0)

def dictHash (entries : ℕ) (pairs : List (UInt64 × UInt64)) : UInt64 :=
  let (sum,xor) := combinePairs hs pairs
  hs.random [.u8 hashDict,.usize entries,.u64 sum,.u64 xor]

def floatHash (value : F64) : UInt64 := mixHash (hashFloat ^^^ if value.isZero then 0 else value.bits)

/-- `as_chunks::<2>` without the remainder. -/
def chunkPairs : List UInt64 → List (UInt64 × UInt64)
  | a::b::rest => (a,b)::chunkPairs rest
  | _ => []

/-- The task stack, its top first, and the finished hashes in the order they were pushed. -/
structure State where
  tasks : List HashTask
  completed : List UInt64

def push (s : State) (hash : UInt64) : State := ⟨s.tasks,s.completed++[hash]⟩

def stepValue (v : Value) (s : State) : State :=
  match v.transparent with
  | .null => push s hashNull
  | .bool value => push s (hs.hashBool value)
  | .int value => push s (hs.hashInt value)
  | .uint value => push s (hs.hashUint value)
  | .fresh value => push s (hs.hashFresh value)
  | .float value => push s (floatHash value)
  | .string value => push s (value.hash64 hs)
  | .shortString value => push s (value.hash64 hs)
  | .function address => push s (mixHash (hashFunction ^^^ address))
  | .object address => push s (mixHash (hashObject ^^^ address))
  | .vec value => { s with tasks := value.elements.map .value ++ .sequence hashVec value.len::s.tasks }
  | .dict value => { s with
      tasks := value.iter.foldl (fun tasks entry => .key entry.1::.value entry.2::tasks)
        (.dict value.len::s.tasks) }
  | .tuple elements => { s with
      tasks := elements.map .value ++ .sequence hashTuple elements.length::s.tasks }
  | .uninitialized | .iter _ => push s hashInternal

def step (s : State) : State ⊕ UInt64 :=
  match s.tasks with
  | [] => .inr (s.completed.getLast?.getD hashInternal)
  | .value v::tasks => .inl (stepValue hs v ⟨tasks,s.completed⟩)
  | .key k::tasks => .inl ⟨tasks,s.completed++[k.hash64 hs]⟩
  | .sequence domain elements::tasks =>
    let start := s.completed.length-elements
    .inl ⟨tasks,s.completed.take start++[sequenceHash hs domain elements (s.completed.drop start)]⟩
  | .dict entries::tasks =>
    let start := s.completed.length-entries*2
    .inl ⟨tasks,s.completed.take start++[dictHash hs entries (chunkPairs (s.completed.drop start))]⟩

def structuralHash (fuel : ℕ) (value : Value) : Option UInt64 := Machine.run (step hs) fuel ⟨[.value value],[]⟩

section

/-- The recursive hash that the task machine computes. -/
def hashValue (v : Value) : UInt64 :=
  match v with
  | .mk view _ =>
    match view with
    | .null => hashNull
    | .bool value => hs.hashBool value
    | .int value => hs.hashInt value
    | .uint value => hs.hashUint value
    | .fresh value => hs.hashFresh value
    | .float value => floatHash value
    | .string value => value.hash64 hs
    | .shortString value => value.hash64 hs
    | .function address => mixHash (hashFunction ^^^ address)
    | .object address => mixHash (hashObject ^^^ address)
    | .vec value =>
      sequenceHash hs hashVec value.len (value.elements.attach.map fun w => hashValue w.1)
    | .dict value =>
      dictHash hs value.len (value.iter.attach.map fun e => (e.1.1.hash64 hs,hashValue e.1.2))
    | .tuple elements =>
      sequenceHash hs hashTuple elements.length (elements.attach.map fun w => hashValue w.1)
    | .uninitialized | .iter _ => hashInternal
termination_by sizeOf v
decreasing_by
  · exact Value.sizeOf_lt_of_mem_children w.2
  · exact Value.sizeOf_lt_of_mem_children (mem_map_of_mem e.2)
  · exact Value.sizeOf_lt_of_mem_children w.2

variable {hs} {tag : Option NewtypeValueId}

theorem hashValue_vec (v : VecObject Value) : hashValue hs (.mk (.vec v) tag) =
    sequenceHash hs hashVec v.len (v.elements.map (hashValue hs)) := by
  rw [hashValue,attach_map_val]

theorem hashValue_tuple (es : List Value) : hashValue hs (.mk (.tuple es) tag) =
    sequenceHash hs hashTuple es.length (es.map (hashValue hs)) := by
  rw [hashValue,attach_map_val]

/-- The key and value hashes of an entry. -/
def entryHashes (hs : HashState) (entry : Key × Value) : UInt64 × UInt64 := (entry.1.hash64 hs,hashValue hs entry.2)

theorem hashValue_dict (v : DictObject Value) : hashValue hs (.mk (.dict v) tag) =
    dictHash hs v.len (v.iter.map (entryHashes hs)) := by
  rw [hashValue]
  exact congrArg (dictHash hs v.len) (attach_map_val (f := entryHashes hs))

end

section

variable {hs}

theorem chunkPairs_flatMap (es : List (UInt64 × UInt64)) :
    chunkPairs (es.flatMap fun e => [e.1,e.2]) = es := by
  induction es with
  | nil => rfl
  | cons _ _ ih => simp [chunkPairs,ih]

/-- The tasks of a dictionary's entries: the last entry comes first. -/
def entryTasks (entries : List (Key × Value)) : List HashTask := entries.flatMap fun e => [.key e.1,.value e.2]

theorem foldl_entryTasks (es : List (Key × Value)) (ts : List HashTask) :
    es.foldl (fun ts e => .key e.1::.value e.2::ts) ts =
      entryTasks es.reverse++ts := by
  induction es generalizing ts with
  | nil => rfl
  | cons _ _ ih => simp [ih,entryTasks]

/-- Running one value task pushes the value's hash. -/
def Computes (hs : HashState) (v : Value) : Prop := ∀ tasks completed,
  Machine.Reaches (step hs) ⟨.value v::tasks,completed⟩ ⟨tasks,completed++[hashValue hs v]⟩

variable {vs : List Value}

theorem values_compute (h : ∀ v ∈ vs, Computes hs v) (ts : List HashTask)
    (done : List UInt64) : Machine.Reaches (step hs) ⟨vs.map .value++ts,done⟩ ⟨ts,done++vs.map (hashValue hs)⟩ := by
  induction vs generalizing done with
  | nil => simpa using Machine.Reaches.refl _
  | cons v vs ih =>
    have hhead := h v (by simp) (vs.map .value++ts) done
    have ht := ih (fun w hw => h w (by simp [hw])) (done++[hashValue hs v])
    simpa using hhead.trans ht

theorem entries_compute {es : List (Key × Value)} (h : ∀ e ∈ es, Computes hs e.2)
    (ts : List HashTask) (done : List UInt64) : Machine.Reaches (step hs) ⟨entryTasks es++ts,done⟩
      ⟨ts,done++(es.map (entryHashes hs)).flatMap fun e => [e.1,e.2]⟩ := by
  induction es generalizing done with
  | nil => simpa [entryTasks] using Machine.Reaches.refl _
  | cons e es ih =>
    have hkey : step hs ⟨.key e.1::.value e.2::(entryTasks es++ts),done⟩ =
        .inl ⟨.value e.2::(entryTasks es++ts),done++[e.1.hash64 hs]⟩ := rfl
    have hv := h e (by simp) (entryTasks es++ts) (done++[e.1.hash64 hs])
    have ht := ih (fun e' he' => h e' (by simp [he']))
      (done++[e.1.hash64 hs]++[hashValue hs e.2])
    simpa [entryTasks,entryHashes] using Machine.Reaches.head hkey (hv.trans ht)

theorem step_sequence (hs : HashState) (domain : UInt8) (hashes done : List UInt64) (ts : List HashTask) :
    step hs ⟨.sequence domain hashes.length::ts,done++hashes⟩ =
      .inl ⟨ts,done++[sequenceHash hs domain hashes.length hashes]⟩ := by
  simp [step]

variable {l r : List (UInt64 × UInt64)}

/-- The order of the entries does not matter to the hash of a dictionary. -/
theorem combinePairs_perm (h : l.Perm r) : combinePairs hs l = combinePairs hs r := by
  have hcomm : RightCommutative fun (acc : UInt64 × UInt64) pair =>
      (acc.1+pairHash hs pair,acc.2 ^^^ rotateLeft (pairHash hs pair) (pairHash hs pair >>> 58)) := by
    constructor
    intro acc p q
    refine Prod.ext ?_ ?_
    · simp only [UInt64.add_assoc,UInt64.add_comm (pairHash hs p)]
    · simp only [UInt64.xor_assoc]
      rw [UInt64.xor_comm (rotateLeft (pairHash hs p) _)]
  exact h.foldl_eq _

theorem dictHash_perm (h : l.Perm r) (n : ℕ) : dictHash hs n l = dictHash hs n r := by
  simp only [dictHash,combinePairs_perm h]

theorem step_dict (hs : HashState) (es : List (UInt64 × UInt64)) (done : List UInt64) (ts : List HashTask) :
    step hs ⟨.dict es.length::ts,done++es.flatMap fun e => [e.1,e.2]⟩ =
      .inl ⟨ts,done++[dictHash hs es.length es]⟩ := by
  have hlen : (es.flatMap fun e => [e.1,e.2]).length = es.length*2 := by
    simp
  have hstart : (done++es.flatMap fun e => [e.1,e.2]).length-es.length*2 =
      done.length := by
    rw [length_append,hlen,Nat.add_sub_cancel]
  simp only [step,hstart,take_left,drop_left,chunkPairs_flatMap]

theorem computes_sequence {v : Value} {domain : UInt8} (h : ∀ w ∈ vs, Computes hs w)
    (hfirst : ∀ ts done, step hs ⟨.value v::ts,done⟩ = .inl ⟨vs.map .value ++ .sequence domain vs.length::ts,done⟩)
    (hh : hashValue hs v = sequenceHash hs domain vs.length (vs.map (hashValue hs))) : Computes hs v := by
  intro ts done
  have hr := values_compute h (.sequence domain vs.length::ts) done
  have hl := step_sequence hs domain (vs.map (hashValue hs)) done ts
  rw [length_map] at hl
  rw [hh]
  exact .head (hfirst ts done) (hr.trans (.one hl))

theorem computes (v : Value) (hv : v.WF hs) : Computes hs v := by
  induction v using Value.induction with
  | h view tag ih =>
    have hchildren : ∀ w ∈ view.children, Computes hs w := fun w hw => ih w hw (hv.children w hw)
    cases view with
    | vec value => exact computes_sequence hchildren (fun _ _ => rfl) (hashValue_vec value)
    | tuple es => exact computes_sequence hchildren (fun _ _ => rfl) (hashValue_tuple es)
    | dict value =>
      intro ts done
      have hfirst : step hs ⟨.value (.mk (.dict value) tag)::ts,done⟩ =
          .inl ⟨entryTasks value.iter.reverse ++ .dict value.len::ts,done⟩ := by
        simp only [step,stepValue,Value.transparent_mk,foldl_entryTasks]
      have hentries : ∀ e ∈ value.iter.reverse, Computes hs e.2 := fun e he =>
        hchildren e.2 (mem_map_of_mem (mem_reverse.mp he))
      have hr := entries_compute hentries (.dict value.len::ts) done
      have hlen : (value.iter.reverse.map (entryHashes hs)).length = value.len := by
        simp [hv.dict.len_eq]
      have hl := step_dict hs (value.iter.reverse.map (entryHashes hs)) done ts
      rw [hlen] at hl
      have hp : dictHash hs value.len (value.iter.reverse.map (entryHashes hs)) =
          dictHash hs value.len (value.iter.map (entryHashes hs)) :=
        dictHash_perm ((reverse_perm value.iter).map _) _
      rw [hashValue_dict,← hp]
      exact .head hfirst (hr.trans (.one hl))
    | _ => exact fun _ _ => .one (by simp [step,stepValue,push,hashValue])

theorem structuralHash_returns {v : Value} (hv : v.WF hs) :
    ∃ n, ∀ fuel ≥ n, structuralHash hs fuel v = some (hashValue hs v) := by
  have hreach := computes v hv [] []
  have hl : step hs ⟨[],[]++[hashValue hs v]⟩ = .inr (hashValue hs v) := rfl
  obtain ⟨n,hn⟩ := hreach.returns (.of_step hl)
  exact ⟨n,fun fuel hf => Machine.run_mono hn hf⟩

end

section

open Equality OrderedMap

variable {hs}

theorem floatHash_congr {x y : F64} (h : x.eq y) : floatHash x = floatHash y := by
  simp only [F64.eq,Bool.and_eq_true,Bool.or_eq_true,beq_iff_eq] at h
  rcases h.2 with hbits | ⟨hx,hy⟩
  · have hxy : x = y := by
      cases x
      cases y
      simpa using hbits
    rw [hxy]
  · simp [floatHash,hx,hy]

theorem hashValue_string {view : ValueView Value} {tag : Option NewtypeValueId} {bs : List UInt8}
    (h : view.asStringBytes = some bs) : hashValue hs (.mk view tag) = hashBytes hs bs := by
  cases view <;> cases h
  · simp [hashValue,ByteString.hash64]
  · simp [hashValue,ShortString.hash64_eq]

theorem map_hash_congr {l r : List Value} (hlen : l.length = r.length)
    (h : ∀ (i : ℕ) v w, l[i]? = some v → r[i]? = some w → hashValue hs v = hashValue hs w) :
    l.map (hashValue hs) = r.map (hashValue hs) := by
  apply ext_getElem
  · simpa using hlen
  intro i hi hi'
  simp only [length_map] at hi hi'
  simp only [getElem_map]
  exact h i _ _ (getElem?_eq_getElem hi) (getElem?_eq_getElem hi')

/-- The entries by what their keys denote and how their values hash. -/
def hashedEntries (hs : HashState) (m : List (Key × Value)) :
    List ((Key.Content × Option NewtypeValueId) × UInt64) := m.map fun e => (e.1.denote,hashValue hs e.2)

theorem map_entryHashes (m : List (Key × Value)) : m.map (entryHashes hs) =
    (hashedEntries hs m).map fun e => (Key.denotationHash hs e.1,e.2) := by
  simp [hashedEntries,entryHashes,Key.hash64_eq_denote,Function.comp_def]

theorem nodup_hashedEntries {m : List (Key × Value)} (h : NodupKeys m) : (hashedEntries hs m).Nodup := by
  apply List.Nodup.of_map Prod.fst
  simpa [hashedEntries,Key.denotations,Function.comp_def] using Key.nodupKeys_iff_denotations.mp h

variable {x y : List (Key × Value)}

theorem hashedEntries_subset (hx : NodupKeys x) (hk : ∀ k, (lookup x k).isSome = (lookup y k).isSome)
    (h : ∀ k v w, lookup x k = some v → lookup y k = some w → hashValue hs v = hashValue hs w) :
    ∀ e ∈ hashedEntries hs x, e ∈ hashedEntries hs y := by
  intro e he
  obtain ⟨⟨k,v⟩,hmem,rfl⟩ := mem_map.mp he
  have hv : lookup x k = some v := hx.lookup_mem hmem BEq.rfl
  have hsome : (lookup y k).isSome := by rw [← hk,hv]; rfl
  obtain ⟨w,hw⟩ := Option.isSome_iff_exists.mp hsome
  obtain ⟨k',hmem',hk'⟩ := lookup_some hw
  refine mem_map.mpr ⟨(k',w),hmem',Prod.ext (Key.beq_iff_denote.mp hk') ?_⟩
  exact (h k v w hv hw).symm

/-- Dictionaries with the same keys and equally hashed values have the same entry hashes. -/
theorem entryHashes_perm (hx : NodupKeys x) (hy : NodupKeys y) (hk : ∀ k, (lookup x k).isSome = (lookup y k).isSome)
    (h : ∀ k v w, lookup x k = some v → lookup y k = some w → hashValue hs v = hashValue hs w) :
    (x.map (entryHashes hs)).Perm (y.map (entryHashes hs)) := by
  rw [map_entryHashes,map_entryHashes]
  apply List.Perm.map
  rw [perm_ext_iff_of_nodup (nodup_hashedEntries hx) (nodup_hashedEntries hy)]
  intro e
  constructor
  · exact hashedEntries_subset hx hk h e
  · exact hashedEntries_subset hy (fun k => (hk k).symm) (fun k v w hv hw => (h k w v hw hv).symm) e

/-- Deeply equal values have equal recursive hashes. -/
theorem hashValue_congr {a b : Value} (h : DeepEq a b) (ha : a.WF hs) (hb : b.WF hs) :
    hashValue hs a = hashValue hs b := by
  induction h with
  | null | bool | int | uint | fresh | function | object => simp only [hashValue]
  | float h => simp only [hashValue,floatHash_congr h]
  | string hx hy => rw [hashValue_string hx,hashValue_string hy]
  | vec hlen h ih =>
    have hmap := map_hash_congr hlen fun i v w hv hw => ih i v w hv hw
      (ha.children v (mem_of_getElem? hv)) (hb.children w (mem_of_getElem? hw))
    rw [hashValue_vec,hashValue_vec,hlen,hmap]
  | tuple hlen h ih =>
    have hmap := map_hash_congr hlen fun i v w hv hw => ih i v w hv hw
      (ha.children v (mem_of_getElem? hv)) (hb.children w (mem_of_getElem? hw))
    rw [hashValue_tuple,hashValue_tuple,hlen,hmap]
  | dict hk h ih =>
    have hlen := ((entries_iff_dict ha.dict hb.dict).mpr ⟨hk,h⟩).1
    have hmem : ∀ {d : DictObject Value} {k v}, lookup d.iter k = some v → v ∈ d.iter.map (·.2) := by
      intro d k v hv
      obtain ⟨k',hmem,-⟩ := lookup_some hv
      exact mem_map_of_mem hmem
    have hp := entryHashes_perm ha.dict.keys hb.dict.keys hk fun k v w hv hw => ih k v w hv hw
      (ha.children v (hmem hv)) (hb.children w (hmem hw))
    rw [hashValue_dict,hashValue_dict,hlen,dictHash_perm hp]

/-- Equality and structural hashing agree: on values whose dictionaries are well formed, `equals`
and `structural_hash` return once given enough fuel, `equals` answers deep equality, and values that
are equal have equal hashes. -/
theorem equals_structuralHash (hs : HashState) (a b : Value) (ha : a.WF hs) (hb : b.WF hs) : ∃ r hashA hashB n,
    (∀ fuel ≥ n, equals hs fuel a b = some (.ok r) ∧ structuralHash hs fuel a = some hashA ∧
      structuralHash hs fuel b = some hashB) ∧ (r = true ↔ DeepEq a b) ∧ (r = true → hashA = hashB) := by
  obtain ⟨r,hr,n,hn⟩ := equals_decides ha hb
  obtain ⟨na,hna⟩ := structuralHash_returns ha
  obtain ⟨nb,hnb⟩ := structuralHash_returns hb
  refine ⟨r,_,_,max n (max na nb),fun fuel hfuel => ⟨hn fuel ?_,hna fuel ?_,hnb fuel ?_⟩,hr,?_⟩
  · omega
  · omega
  · omega
  · exact fun h => hashValue_congr (hr.mp h) ha hb

/-- A packed dictionary with one entry. -/
def single (view : ValueView Value) (tag : Option NewtypeValueId) : Value :=
  .mk (.dict { (DictObject.new : DictObject Value) with packed := some [.mk view none] }) tag

theorem wf_single (hs : HashState) (view : ValueView Value) (tag : Option NewtypeValueId)
    (hchildren : view.children = []) (hdict : ∀ d, view ≠ .dict d) : (single view tag).WF hs := by
  refine .mk ?_ ?_
  · intro w hw
    cases hw with
    | head => exact .mk (by simp [hchildren]) fun d hd => absurd hd (hdict d)
    | tail _ hw => cases hw
  · intro d hd
    cases hd
    exact DictObject.wf_packed rfl (by simp) ⟨rfl,rfl⟩

/-- The same one-byte string on the heap and inline, in dictionaries with and without a tag. -/
theorem equals_structuralHash_single : ∃ r hashA hashB n, (∀ fuel ≥ n,
      equals (.new fun _ => 0) fuel (single (.string ⟨[97],by decide⟩) none)
        (single (.shortString ⟨[97,0,0,0,0,0,0],1,rfl,by decide,rfl⟩) (some 3)) = some (.ok r) ∧
      structuralHash (.new fun _ => 0) fuel (single (.string ⟨[97],by decide⟩) none) = some hashA ∧
      structuralHash (.new fun _ => 0) fuel
        (single (.shortString ⟨[97,0,0,0,0,0,0],1,rfl,by decide,rfl⟩) (some 3)) = some hashB) ∧
    (r = true ↔ DeepEq (single (.string ⟨[97],by decide⟩) none)
      (single (.shortString ⟨[97,0,0,0,0,0,0],1,rfl,by decide,rfl⟩) (some 3))) ∧ (r = true → hashA = hashB) :=
  equals_structuralHash _ _ _ (wf_single _ _ _ rfl nofun) (wf_single _ _ _ rfl nofun)

end

end StructuralHash
end Whim
