import Whim.StringConstruction

/-!
# Runs of string operations

A program builds, appends, flattens, hashes, clones and drops strings in any order. Beside the heap a run carries the
bytes that the same expressions denote.
-/

namespace Whim.StringRuns

open StringHeap Option
open List hiding concat

/-- The heap and the handles taken so far; a dropped handle is `none`. -/
structure State where
  heap : StringHeap
  handles : List (Option ℕ)

/-- Operations name handles by position; `flatten` and `hash64` may reach any box. -/
inductive Op
  | fromBytes (bytes : List UInt8)
  | intern (bytes : List UInt8)
  | concat (left right : ℕ)
  | slice (base offset len : ℕ)
  | flatStringSlice (base offset len : ℕ)
  | appendUnique (string : ℕ) (extra : List UInt8)
  | appendUniqueString (string extra : ℕ)
  | flatten (box : ℕ)
  | hash64 (box : ℕ)
  | makeImmortal (atom : ℕ)
  | clone (string : ℕ)
  | drop (string : ℕ)

namespace State

def new : State := ⟨[],[]⟩

def handle (s : State) (i : ℕ) : Option ℕ := s.handles.getD i none

/-- The handles that are held. -/
def refs (s : State) : List ℕ := s.handles.filterMap fun handle => handle

def push (s : State) (r : ℕ × StringHeap) : State := ⟨r.2,s.handles++[some r.1]⟩

def withHeap (s : State) (heap : StringHeap) : State := ⟨heap,s.handles⟩

@[simp] theorem withHeap_heap (s : State) : s.withHeap s.heap = s := rfl

end State

/-- One operation. The flag is the answer of the two appends. -/
def step (hs : HashState) (s : State) : Op → Option (Bool × State)
  | .fromBytes bytes => some (true,s.push (s.heap.fromBytes bytes))
  | .intern bytes => some (true,s.push (s.heap.intern hs bytes))
  | .concat left right => do
    let a ← s.handle left
    let b ← s.handle right
    let r ← s.heap.concat a b
    some (true,s.push r)
  | .slice base offset len => do
    let a ← s.handle base
    let r ← s.heap.slice a offset len
    some (true,s.push r)
  | .flatStringSlice base offset len => do
    let a ← s.handle base
    let r ← s.heap.flatStringSlice a offset len
    some (true,s.push r)
  | .appendUnique string extra => do
    let a ← s.handle string
    let r := s.heap.appendUnique a extra
    some (r.1,s.withHeap r.2)
  | .appendUniqueString string extra => do
    let a ← s.handle string
    let b ← s.handle extra
    let r := s.heap.appendUniqueString a b
    some (r.1,s.withHeap r.2)
  | .flatten box => do
    let r ← s.heap.flatten box
    some (true,s.withHeap r.2)
  | .hash64 box => some (true,s.withHeap (s.heap.hash64 hs box).2)
  | .makeImmortal atom => do
    let a ← s.handle atom
    some (true,s.withHeap (s.heap.makeImmortal a))
  | .clone string => do
    let a ← s.handle string
    some (true,s.push (a,s.heap.retain a))
  | .drop string => do
    let a ← s.handle string
    some (true,⟨s.heap.release [a],s.handles.set string none⟩)

/-- The byte sequences that the handles denote. -/
abbrev Values := List (Option (List UInt8))

def Values.at (values : Values) (i : ℕ) : List UInt8 := (values.getD i none).getD []

/-- What an operation means on byte sequences, given the answer of an append. -/
def refStep (values : Values) (appended : Bool) : Op → Values
  | .fromBytes bytes => values++[some bytes]
  | .intern bytes => values++[some bytes]
  | .concat left right => values++[some (values.at left++values.at right)]
  | .slice base offset len => values++[some (((values.at base).drop offset).take len)]
  | .flatStringSlice base offset len => values++[some (((values.at base).drop offset).take len)]
  | .appendUnique string extra =>
    if appended then values.set string (some (values.at string++extra)) else values
  | .appendUniqueString string extra =>
    if appended then values.set string (some (values.at string++values.at extra)) else values
  | .flatten _ => values
  | .hash64 _ => values
  | .makeImmortal _ => values
  | .clone string => values++[values.getD string none]
  | .drop string => values.set string none

/-- The heap and the denoted bytes side by side. -/
def run (hs : HashState) : State → Values → List Op → Option (State × Values)
  | s, values, [] => some (s,values)
  | s, values, op::ops => do
    let r ← step hs s op
    run hs r.2 (refStep values r.1 op) ops

/-- What the callers promise: handles are held, slices are in range, an append source is another string. -/
def Admissible (s : State) : Op → Prop
  | .fromBytes _ => True
  | .intern _ => True
  | .concat left right => (s.handle left).isSome ∧ (s.handle right).isSome
  | .slice base offset len => ∃ a, s.handle base = some a ∧ offset+len ≤ s.heap.len a
  | .flatStringSlice base offset len => ∃ a, s.handle base = some a ∧ offset+len ≤ s.heap.len a
  | .appendUnique string _ => (s.handle string).isSome
  | .appendUniqueString string extra =>
    ∃ a b, s.handle string = some a ∧ s.handle extra = some b ∧ a ≠ b
  | .flatten box => (s.heap.node box).isSome
  | .hash64 box => (s.heap.node box).isSome
  | .makeImmortal atom => (s.handle atom).isSome
  | .clone string => (s.handle string).isSome
  | .drop string => (s.handle string).isSome

/-- No machine integer wraps: the length of a rope is below `2 ^ 64`, and no box gets its `2 ^ 32`-th
counted handle. -/
def NoWrap (s : State) : Op → Prop
  | .intern bytes => ∀ id, s.heap.findInterned bytes = some id → s.heap.Room id 1
  | .concat left right => ∀ a b, s.handle left = some a → s.handle right = some b →
    s.heap.len a+s.heap.len b < 2 ^ 64 ∧
      (eagerFlatLimit < s.heap.len a+s.heap.len b → ∀ c, s.heap.Room c ([a,b].count c))
  | .slice base _ _ => ∀ a, s.handle base = some a → s.heap.Room (s.heap.anchor a).1 1
  | .flatStringSlice base _ _ => ∀ a, s.handle base = some a → s.heap.Room (s.heap.anchor a).1 1
  | .clone string => ∀ a, s.handle string = some a → s.heap.Room a 1
  | _ => True

/-- Every step of the run meets a condition on the state before it. -/
def AllSteps (hs : HashState) (P : State → Op → Prop) : State → List Op → Prop
  | _, [] => True
  | s, op::ops => P s op ∧ ∀ r, step hs s op = some r → AllSteps hs P r.2 ops

/-- The heap is well formed and each handle has the bytes it denotes. -/
structure Denotes (hs : HashState) (s : State) (values : Values) : Prop where
  wf : WF hs s.heap s.refs
  values_eq : values = s.handles.map fun handle => handle.map s.heap.bytes

variable {hs : HashState} {s : State} {values : Values} {i j a b : ℕ} {bs : List UInt8}

theorem handles_of_handle (hi : s.handle i = some a) : s.handles[i]? = some (some a) := by
  simp only [State.handle,getD_eq_getElem?_getD] at hi
  cases hget : s.handles[i]? with
  | none => simp [hget] at hi
  | some => simpa [hget] using hi

theorem mem_refs (hi : s.handle i = some a) : a ∈ s.refs := by
  have hmem := mem_of_getElem? (handles_of_handle hi)
  exact mem_filterMap.mpr ⟨some a,hmem,rfl⟩

variable {r : ℕ × StringHeap} {handles : List (Option ℕ)}

/-- Handles that keep their bytes denote what they denoted. -/
theorem map_bytes_congr {h g : StringHeap} (hsame : Same (handles.filterMap fun handle => handle) h g) :
    (handles.map fun handle => handle.map g.bytes) = handles.map fun handle => handle.map h.bytes := by
  apply map_congr_left
  intro handle hmem
  cases handle with
  | none => rfl
  | some c => simp [hsame c (mem_filterMap.mpr ⟨some c,hmem,rfl⟩)]

namespace Denotes

section

variable (hd : Denotes hs s values)
include hd

theorem getD_eq (hi : s.handle i = some a) : values.getD i none = some (s.heap.bytes a) := by
  simp [hd.values_eq,getD_eq_getElem?_getD,handles_of_handle hi]

theorem at_eq (hi : s.handle i = some a) : values.at i = s.heap.bytes a := by
  rw [Values.at,hd.getD_eq hi,getD_some]

theorem live (hi : s.handle i = some a) : (s.heap.node a).isSome := hd.wf.live_ref (mem_refs hi)

variable {g : StringHeap}

theorem map_bytes_eq (hsame : Same s.refs s.heap g) :
    (s.handles.map fun handle => handle.map g.bytes) = values := (map_bytes_congr hsame).trans hd.values_eq.symm

theorem push (hb : Built hs s.heap s.refs r bs) : Denotes hs (s.push r) (values++[some bs]) := by
  constructor
  · have hrefs : (s.push r).refs = s.refs++[r.1] := by simp [State.push,State.refs]
    rw [hrefs]
    exact hb.wf.perm (perm_append_singleton r.1 s.refs).symm
  · simp [State.push,hd.map_bytes_eq hb.same,hb.bytes]

theorem withHeap (hw : WF hs g s.refs)
    (hsame : Same s.refs s.heap g) : Denotes hs (s.withHeap g) values := ⟨hw,(hd.map_bytes_eq hsame).symm⟩

end

end Denotes

/-- Dropping a handle takes one occurrence out of the held ones. -/
theorem perm_filterMap_set (hi : handles[i]? = some (some a)) : (handles.filterMap fun handle => handle).Perm
    (a::(handles.set i none).filterMap fun handle => handle) := by
  induction handles generalizing i with
  | nil => simp at hi
  | cons handle _ ih =>
    cases i with
    | zero =>
      have hh : handle = some a := by simpa using hi
      simp [hh]
    | succ k =>
      have hk := ih (i := k) (by simpa using hi)
      cases handle with
      | none => simpa using hk
      | some c =>
        simp only [set_cons_succ,filterMap_cons]
        exact (hk.cons c).trans (List.Perm.swap a c _)

theorem Denotes.drop (hd : Denotes hs s values) (hi : s.handle i = some a) :
    Denotes hs ⟨s.heap.release [a],s.handles.set i none⟩ (values.set i none) := by
  have hp := perm_filterMap_set (handles_of_handle hi)
  have hw : WF hs s.heap ([a]++State.refs ⟨s.heap,s.handles.set i none⟩) := hd.wf.perm hp
  obtain ⟨hw',hk⟩ := hw.release
  have hsame := hw'.same_of_kept hk (fun _ h => h)
  have hset : values.set i none = (s.handles.set i none).map fun handle => handle.map s.heap.bytes := by
    rw [hd.values_eq,map_set]
    rfl
  exact ⟨hw',hset.trans (map_bytes_congr hsame).symm⟩

/-- A box held once is held at one position. -/
theorem eq_of_count_one (hi : handles[i]? = some (some a))
    (hj : handles[j]? = some (some a)) (hone : (handles.filterMap fun handle => handle).count a = 1) : i = j := by
  by_contra hne
  have hp := perm_filterMap_set hi
  have hj' : (handles.set i none)[j]? = some (some a) := by rw [getElem?_set_ne hne,hj]
  have hmem : a ∈ (handles.set i none).filterMap fun handle => handle :=
    mem_filterMap.mpr ⟨some a,mem_of_getElem? hj',rfl⟩
  rw [hp.count_eq,count_cons_self] at hone
  have hpos := count_pos_iff.mpr hmem
  omega

/-- Both appends: refused, or the string of one handle grows. -/
theorem Denotes.append (hd : Denotes hs s values) (hi : s.handle i = some a)
    (hu : s.heap.isUnique a) (hf : s.heap.isFlat a) (x : List UInt8) :
    Denotes hs (s.withHeap (s.heap.appendFlat a x)) (values.set i (some (values.at i++x))) := by
  obtain ⟨hw,hnew,hothers⟩ := hd.wf.appendFlat (mem_refs hi) hu hf x
  have hget := handles_of_handle hi
  refine ⟨hw,?_⟩
  apply ext_getElem?
  intro j
  simp only [State.withHeap,hd.values_eq,getElem?_map,getElem?_set,length_map]
  by_cases hij : i = j
  · subst hij
    obtain ⟨hlt,hget'⟩ := List.getElem?_eq_some_iff.mp hget
    have hat := hd.at_eq hi
    rw [hd.values_eq] at hat
    simp [hlt,hget',hat,hnew]
  · rw [if_neg hij]
    cases hj : s.handles[j]? with
    | none => rfl
    | some handle =>
      cases handle with
      | none => rfl
      | some c =>
        have hc : c ∈ s.refs := mem_filterMap.mpr ⟨some c,mem_of_getElem? hj,rfl⟩
        have hne : c ≠ a := by
          rintro rfl
          exact hij (eq_of_count_one hget hj (hd.wf.count_of_isUnique (mem_refs hi) hu).1)
        simp [hothers c hc hne]

/-- One operation on the heap does what it means on the denoted bytes. -/
theorem Denotes.step (hd : Denotes hs s values) {op : Op} (hadmissible : Admissible s op) (hwrap : NoWrap s op) :
    ∃ r, step hs s op = some r ∧ Denotes hs r.2 (refStep values r.1 op) := by
  cases op with
  | fromBytes bytes => exact ⟨_,rfl,hd.push (hd.wf.fromBytes bytes)⟩
  | intern bytes => exact ⟨_,rfl,hd.push (hd.wf.intern bytes hwrap)⟩
  | concat =>
    obtain ⟨a,ha⟩ := isSome_iff_exists.mp hadmissible.1
    obtain ⟨b,hb⟩ := isSome_iff_exists.mp hadmissible.2
    obtain ⟨hlen,hroom⟩ := hwrap a b ha hb
    obtain ⟨r,hr,hbuilt⟩ := hd.wf.concat (hd.live ha) (hd.live hb) hlen hroom
    refine ⟨(true,s.push r),by simp [StringRuns.step,ha,hb,hr],?_⟩
    rw [refStep,hd.at_eq ha,hd.at_eq hb]
    exact hd.push hbuilt
  | slice =>
    obtain ⟨a,ha,hle⟩ := hadmissible
    rw [hd.wf.len_eq (hd.live ha)] at hle
    obtain ⟨r,hr,hbuilt⟩ := hd.wf.flatStringSlice (mem_refs ha) hle (hwrap a ha)
    rw [← slice_eq_flatStringSlice (hd.live ha)] at hr
    refine ⟨(true,s.push r),by simp [StringRuns.step,ha,hr],?_⟩
    rw [refStep,hd.at_eq ha]
    exact hd.push hbuilt
  | flatStringSlice =>
    obtain ⟨a,ha,hle⟩ := hadmissible
    rw [hd.wf.len_eq (hd.live ha)] at hle
    obtain ⟨r,hr,hbuilt⟩ := hd.wf.flatStringSlice (mem_refs ha) hle (hwrap a ha)
    refine ⟨(true,s.push r),by simp [StringRuns.step,ha,hr],?_⟩
    rw [refStep,hd.at_eq ha]
    exact hd.push hbuilt
  | appendUnique _ x =>
    obtain ⟨a,ha⟩ := isSome_iff_exists.mp hadmissible
    refine ⟨_,by simp [StringRuns.step,ha]; rfl,?_⟩
    by_cases hok : s.heap.isUnique a = true ∧ s.heap.isFlat a = true
    · simpa [refStep,appendUnique,hok] using hd.append ha hok.1 hok.2 x
    · have hno : (!s.heap.isUnique a || !s.heap.isFlat a) = true := by simpa [or_iff_not_imp_left] using hok
      simpa [refStep,appendUnique,hno] using hd
  | appendUniqueString =>
    obtain ⟨a,b,ha,hb,_⟩ := hadmissible
    refine ⟨_,by simp [StringRuns.step,ha,hb]; rfl,?_⟩
    by_cases hok : s.heap.isUnique a = true ∧ s.heap.isFlat a = true
    · simpa [refStep,appendUniqueString,hok,appendSource_eq,hd.at_eq hb] using
        hd.append ha hok.1 hok.2 (s.heap.bytes b)
    · have hno : (!s.heap.isUnique a || !s.heap.isFlat a) = true := by simpa [or_iff_not_imp_left] using hok
      simpa [refStep,appendUniqueString,hno] using hd
  | flatten =>
    obtain ⟨g,hg,hflat⟩ := hd.wf.flatten hadmissible
    exact ⟨(true,s.withHeap g),by simp [StringRuns.step,hg],hd.withHeap hflat.wf hflat.same⟩
  | hash64 =>
    obtain ⟨hw,hsame⟩ := hd.wf.hash64 hadmissible
    exact ⟨_,rfl,hd.withHeap hw hsame⟩
  | makeImmortal =>
    obtain ⟨a,ha⟩ := isSome_iff_exists.mp hadmissible
    obtain ⟨hw,hsame⟩ := hd.wf.makeImmortal (hd.live ha)
    exact ⟨_,by simp [StringRuns.step,ha]; rfl,hd.withHeap hw hsame⟩
  | clone =>
    obtain ⟨a,ha⟩ := isSome_iff_exists.mp hadmissible
    obtain ⟨hw,hk⟩ := hd.wf.retain (hd.live ha) (hwrap a ha)
    have hsame := hw.same_of_kept hk (fun _ h => h)
    have hbuilt : Built hs s.heap s.refs (a,s.heap.retain a) (s.heap.bytes a) :=
      ⟨hw,fun c hc => hsame c (mem_cons_of_mem _ hc),hsame a (by simp)⟩
    refine ⟨(true,s.push (a,s.heap.retain a)),by simp [StringRuns.step,ha],?_⟩
    rw [refStep,hd.getD_eq ha]
    exact hd.push hbuilt
  | drop =>
    obtain ⟨a,ha⟩ := isSome_iff_exists.mp hadmissible
    exact ⟨_,by simp [StringRuns.step,ha]; rfl,hd.drop ha⟩

variable {ops : List Op}

theorem Denotes.run (hd : Denotes hs s values) (hadmissible : AllSteps hs Admissible s ops)
    (hwrap : AllSteps hs NoWrap s ops) : ∃ t vs', run hs s values ops = some (t,vs') ∧ Denotes hs t vs' := by
  induction ops generalizing s values with
  | nil => exact ⟨s,values,rfl,hd⟩
  | cons _ _ ih =>
    obtain ⟨r,hr,hd'⟩ := hd.step hadmissible.1 hwrap.1
    obtain ⟨t,vs',hrun,ht⟩ := ih hd' (hadmissible.2 r hr) (hwrap.2 r hr)
    exact ⟨t,vs',by simp [StringRuns.run,hr,hrun],ht⟩

theorem denotes_new (hs : HashState) : Denotes hs State.new [] := ⟨wf_nil hs,rfl⟩

/-- All that a program can read of its strings is what the denoted bytes say. -/
def Observes (hs : HashState) (s : State) (values : Values) : Prop :=
  ∀ i a, s.handle i = some a → ∃ bs, values.getD i none = some bs ∧
    (∃ g, s.heap.handleBytes a = some (bs,g)) ∧ s.heap.len a = bs.length ∧
    (s.heap.hash64 hs a).1 = hashBytes hs bs ∧
    (∀ short : ShortString, short.asBytes = bs → (s.heap.hash64 hs a).1 = short.hash64 hs) ∧
    ∀ j b, s.handle j = some b → ∃ cs, values.getD j none = some cs ∧
      (s.heap.eqBytes a b = true ↔ bs = cs) ∧ s.heap.cmpBytes a b = Chunked.lex bs cs

theorem Denotes.observes (hd : Denotes hs s values) : Observes hs s values := by
  intro i a ha
  obtain ⟨g,hg,_⟩ := hd.wf.flatten (hd.live ha)
  have hh := hd.wf.hash64_eq (hd.live ha)
  refine ⟨s.heap.bytes a,hd.getD_eq ha,⟨g,hg⟩,hd.wf.len_eq (hd.live ha),hh,?_,?_⟩
  · intro short hshort
    rw [hh,short.hash64_eq,hshort]
  · intro j b hb
    exact ⟨s.heap.bytes b,hd.getD_eq hb,hd.wf.eqBytes_iff (hd.live ha) (hd.live hb),cmpBytes_eq _ _ _⟩

/-- Along every run that wraps no machine integer the representation of strings is unobservable. -/
theorem run_new_observes (hs : HashState) (ops : List Op) (hadmissible : AllSteps hs Admissible State.new ops)
    (hwrap : AllSteps hs NoWrap State.new ops) :
    ∃ s values, run hs State.new [] ops = some (s,values) ∧ Observes hs s values := by
  obtain ⟨s,values,hrun,hd⟩ := (denotes_new hs).run hadmissible hwrap
  exact ⟨s,values,hrun,hd.observes⟩

section

variable {h : StringHeap}

/-- A heap with few handles has room in every count. -/
theorem room_of_small {refs : List ℕ} (hwf : WF hs h refs) {x : ℕ}
    (hsmall : refs.length+2*h.length+x < 2 ^ 32) (id : ℕ) : h.Room id x := by
  intro n hn himmortal
  have hedges : h.edges.length ≤ 2*h.length := by
    clear hwf hsmall hn
    induction h with
    | nil => simp [edges]
    | cons v _ ih =>
      have hv : (owned v).length ≤ 2 := by
        cases v with
        | none => simp [owned]
        | some n => exact length_children_le n.repr
      simp only [edges,flatMap_cons,length_append,length_cons] at ih ⊢
      omega
  have hcount := count_le_length (a := id) (l := refs++h.edges)
  rw [hwf.counted id n hn himmortal]
  rw [length_append] at hcount
  omega

theorem length_retain (h : StringHeap) (id : ℕ) : (h.retain id).length = h.length := by
  cases hn : h.node id <;> simp [StringHeap.retain,update,hn]

/-- A concatenation gets a box of its own. -/
theorem concat_allocates (hr : h.concat a b = some r) : r.1 = h.length ∧ r.2.length = h.length+1 := by
  by_cases hshort : (h.len a+h.len b) % 2 ^ 64 ≤ eagerFlatLimit
  · simp only [concat,if_pos hshort,map_eq_some_iff] at hr
    obtain ⟨bs,_,rfl⟩ := hr
    simp [alloc]
  · simp only [concat,if_neg hshort,some_inj] at hr
    subst hr
    simp [alloc,length_retain]

/-- The state after `n` steps that each returned a new string, all of which are still held. -/
structure Grown (hs : HashState) (s : State) (values : Values) (n : ℕ) : Prop where
  denotes : Denotes hs s values
  boxes : s.heap.length = n
  handles : s.handles = (range n).map some

variable {n : ℕ}

section

variable (hg : Grown hs s values n)
include hg

theorem Grown.length_values : values.length = n := by simp [hg.denotes.values_eq,hg.handles]

theorem Grown.handle_eq (hi : i < n) : s.handle i = some i := by
  simp [State.handle,hg.handles,getD_eq_getElem?_getD,hi]

theorem Grown.admissible (hi : i < n) (hj : j < n) : Admissible s (.concat i j) :=
  ⟨isSome_of_eq_some (hg.handle_eq hi),isSome_of_eq_some (hg.handle_eq hj)⟩

theorem Grown.push {vs' : Values} (hd : Denotes hs (s.push r) vs') (hid : r.1 = n)
    (hlen : r.2.length = n+1) : Grown hs (s.push r) vs' (n+1) :=
  ⟨hd,hlen,by simp [State.push,hg.handles,range_succ,hid]⟩

theorem Grown.noWrap_concat (hn : n < 2 ^ 20) (hlen : (values.at i).length+(values.at j).length < 2 ^ 64) :
    NoWrap s (.concat i j) := by
  intro a b ha hb
  have hrefs : s.refs.length ≤ n := by simp [State.refs,hg.handles]
  rw [hg.denotes.at_eq ha,hg.denotes.at_eq hb] at hlen
  rw [hg.denotes.wf.len_eq (hg.denotes.live ha),hg.denotes.wf.len_eq (hg.denotes.live hb)]
  refine ⟨hlen,fun _ c => ?_⟩
  have hcount := count_le_length (a := c) (l := [a,b])
  have hboxes := hg.boxes
  apply room_of_small hg.denotes.wf
  simp only [length_cons,length_nil] at hcount
  omega

theorem Grown.concat (hn : n < 2 ^ 20) (hi : i < n) (hj : j < n)
    (hlen : (values.at i).length+(values.at j).length < 2 ^ 64) : ∃ t, step hs s (.concat i j) = some (true,t) ∧
      Grown hs t (values++[some (values.at i++values.at j)]) (n+1) := by
  obtain ⟨r,hr,hd⟩ := hg.denotes.step (hg.admissible hi hj) (hg.noWrap_concat hn hlen)
  have hboxes := hg.boxes
  cases hc : s.heap.concat i j with
  | none => simp [step,hg.handle_eq hi,hg.handle_eq hj,hc] at hr
  | some q =>
    obtain rfl : (true,s.push q) = r := by simpa [step,hg.handle_eq hi,hg.handle_eq hj,hc] using hr
    obtain ⟨hid,hlength⟩ := concat_allocates hc
    exact ⟨s.push q,hr,hg.push hd (by omega) (by omega)⟩

end

theorem Values.at_append_left (hi : i < values.length) (v : Option (List UInt8)) :
    Values.at (values++[v]) i = values.at i := by
  simp [Values.at,getD_eq_getElem?_getD,getElem?_append_left hi]

theorem Values.at_append_length (values : Values) (bs : List UInt8) :
    Values.at (values++[some bs]) values.length = bs := by
  simp [Values.at,getD_eq_getElem?_getD]

/-- A run from the empty heap whose steps all meet a condition. -/
structure Reached (hs : HashState) (P : State → Op → Prop) (ops : List Op) (s : State)
    (values : Values) : Prop where
  run_eq : run hs State.new [] ops = some (s,values)
  steps : AllSteps hs P State.new ops

variable {P : State → Op → Prop}

theorem run_snoc {t : State} {vs' : Values} {op : Op} {q : Bool × State}
    (hrun : run hs s values ops = some (t,vs')) (hops : AllSteps hs P s ops) (hop : P t op)
    (hstep : step hs t op = some q) :
    run hs s values (ops++[op]) = some (q.2,refStep vs' q.1 op) ∧ AllSteps hs P s (ops++[op]) := by
  induction ops generalizing s values with
  | nil =>
    cases hrun
    exact ⟨by simp [run,hstep],hop,fun _ _ => trivial⟩
  | cons _ _ ih =>
    obtain ⟨r,hr,hrun⟩ := bind_eq_some_iff.mp hrun
    obtain ⟨hrun',-⟩ := ih hrun (hops.2 r hr)
    refine ⟨by simpa [run,hr] using hrun',hops.1,fun r' hr' => ?_⟩
    cases hr.symm.trans hr'
    exact (ih hrun (hops.2 r hr)).2

variable {Q : State → Op → Prop}

theorem AllSteps.mono (hPQ : ∀ s op, P s op → Q s op) (hops : AllSteps hs P s ops) : AllSteps hs Q s ops := by
  induction ops generalizing s with
  | nil => trivial
  | cons op _ ih => exact ⟨hPQ s op hops.1,fun r hr => ih (hops.2 r hr)⟩

theorem Reached.mono (hPQ : ∀ s op, P s op → Q s op) (hr : Reached hs P ops s values) : Reached hs Q ops s values :=
  ⟨hr.run_eq,hr.steps.mono hPQ⟩

theorem Reached.snoc {op : Op} {r : Bool × State}
    (hr : Reached hs P ops s values) (hop : P s op) (hstep : step hs s op = some r) :
    Reached hs P (ops++[op]) r.2 (refStep values r.1 op) :=
  ⟨(run_snoc hr.run_eq hr.steps hop hstep).1,(run_snoc hr.run_eq hr.steps hop hstep).2⟩

/-- A 32-byte string doubled `n` times. -/
def doublings : ℕ → List Op
  | 0 => [.fromBytes (List.replicate 32 0)]
  | n+1 => doublings n++[.concat n n]

theorem reached_doublings (hs : HashState) (n : ℕ) (hn : n ≤ 58) :
    ∃ s values, Reached hs (fun s op => Admissible s op ∧ NoWrap s op) (doublings n) s values ∧
      Grown hs s values (n+1) ∧ ∀ i ≤ n, (values.at i).length = 32*2 ^ i := by
  induction n with
  | zero =>
    have hnew : Grown hs State.new [] 0 := ⟨denotes_new hs,rfl,rfl⟩
    have hd := (denotes_new hs).push ((wf_nil hs).fromBytes (List.replicate 32 0))
    refine ⟨_,_,⟨rfl,⟨trivial,trivial⟩,fun _ _ => trivial⟩,hnew.push hd rfl rfl,?_⟩
    intro i hi
    obtain rfl : i = 0 := by omega
    rfl
  | succ n ih =>
    obtain ⟨s,values,hr,hg,hlen⟩ := ih (by omega)
    have hpow : 2 ^ n ≤ 2 ^ 57 := Nat.pow_le_pow_right (by decide) (by omega)
    have hself := hlen n (Nat.le_refl n)
    obtain ⟨t,ht,hg'⟩ := hg.concat (by omega) (Nat.lt_succ_self n) (Nat.lt_succ_self n) (by omega)
    have hadmissible := hg.admissible (Nat.lt_succ_self n) (Nat.lt_succ_self n)
    refine ⟨t,_,hr.snoc ⟨hadmissible,hg.noWrap_concat (by omega) (by omega)⟩ ht,hg',?_⟩
    intro i hi
    by_cases hin : i = n+1
    · subst hin
      have hat := Values.at_append_length values (values.at n++values.at n)
      rw [hg.length_values] at hat
      rw [refStep,hat,length_append,hself,Nat.pow_succ]
      omega
    · rw [refStep,Values.at_append_left (by rw [hg.length_values]; omega)]
      exact hlen i (by omega)

/-- A rope stores the wrapped sum of the lengths. -/
theorem concat_of_long {len : ℕ} (hlen : (h.len a+h.len b) % 2 ^ 64 = len)
    (hlong : eagerFlatLimit < len) : ∃ r, h.concat a b = some r ∧ r.2.len r.1 = len := by
  refine ⟨((h.retain a).retain b).alloc (.cons a b len),?_,?_⟩
  · simp only [concat,hlen,if_neg (Nat.not_le_of_lt hlong)]
  · simp [alloc,StringHeap.len,StringHeap.repr,node_append]

/-- Strings of `2 ^ 63` and `2 ^ 63 + 64` bytes, and their concatenation. -/
def wrapRun : List Op := doublings 58++[.concat 58 1]++[.concat 58 59]

/-- A rope whose length wraps: it reports 64 bytes and has `2 ^ 64 + 64`. -/
theorem reached_wrapRun (hs : HashState) : AllSteps hs Admissible State.new wrapRun ∧
    ∃ s values a bs, run hs State.new [] wrapRun = some (s,values) ∧ s.handle 60 = some a ∧
      values.getD 60 none = some bs ∧ bs.length = 2 ^ 64+64 ∧ s.heap.len a = 64 := by
  obtain ⟨s,values,hr,hg,hlen⟩ := reached_doublings hs 58 (Nat.le_refl 58)
  have h58 := hlen 58 (by decide)
  have h1 := hlen 1 (by decide)
  obtain ⟨t,ht,hg'⟩ := hg.concat (i := 58) (j := 1) (by decide) (by decide) (by decide) (by omega)
  have hr' := (hr.mono (fun _ _ h => h.1)).snoc (hg.admissible (by decide) (by decide)) ht
  have hv : values.length = 59 := hg.length_values
  have h58' : (Values.at (values++[some (values.at 58++values.at 1)]) 58).length = 2 ^ 63 := by
    rw [Values.at_append_left (by omega)]
    omega
  have h59 : (Values.at (values++[some (values.at 58++values.at 1)]) 59).length = 2 ^ 63+64 := by
    have hat := Values.at_append_length values (values.at 58++values.at 1)
    rw [hv] at hat
    rw [hat,length_append]
    omega
  have ha := hg'.handle_eq (i := 58) (by decide)
  have hb := hg'.handle_eq (i := 59) (by decide)
  have hd := hg'.denotes
  rw [hd.at_eq ha] at h58'
  rw [hd.at_eq hb] at h59
  -- the last step keeps the callers' promises, but its length does not fit
  have hsum : (t.heap.len 58+t.heap.len 59) % 2 ^ 64 = 64 := by
    rw [hd.wf.len_eq (hd.live ha),hd.wf.len_eq (hd.live hb)]
    omega
  obtain ⟨q,hq,hqlen⟩ := concat_of_long hsum (by decide)
  have hstep : step hs t (.concat 58 59) = some (true,t.push q) := by simp [step,ha,hb,hq]
  have hr'' := hr'.snoc (hg'.admissible (by decide) (by decide)) hstep
  refine ⟨hr''.steps,t.push q,_,q.1,t.heap.bytes 58++t.heap.bytes 59,hr''.run_eq,?_,?_,?_,hqlen⟩
  · simp [State.handle,State.push,hg'.handles]
  · have hlen' := hg'.length_values
    simp only [refStep] at hlen' ⊢
    rw [hd.at_eq ha,hd.at_eq hb,getD_eq_getElem?_getD,getElem?_append_right (by omega),hlen']
    rfl
  · rw [length_append]
    omega

theorem wrapRun_not_observes : AllSteps (HashState.new fun _ => 0) Admissible State.new wrapRun ∧
    ∃ s values, run (HashState.new fun _ => 0) State.new [] wrapRun = some (s,values) ∧
      ¬Observes (HashState.new fun _ => 0) s values := by
  obtain ⟨hadmissible,s,values,a,bs,hrun,ha,hbytes,hlen,hwrapped⟩ := reached_wrapRun (HashState.new fun _ => 0)
  refine ⟨hadmissible,s,values,hrun,?_⟩
  intro hobserves
  obtain ⟨bs',hbs',_,hlen',_⟩ := hobserves 60 a ha
  obtain rfl : bs = bs' := some_inj.mp (hbytes.symm.trans hbs')
  omega

/-- The 58 doublings wrap nothing, although the last rope has `2 ^ 63` bytes. -/
theorem run_new_observes_doublings :
    ∃ s values, run (HashState.new fun _ => 0) State.new [] (doublings 58) = some (s,values) ∧
      Observes (HashState.new fun _ => 0) s values := by
  obtain ⟨_,_,hr,_⟩ := reached_doublings (HashState.new fun _ => 0) 58 (Nat.le_refl 58)
  exact run_new_observes _ _ (hr.steps.mono fun _ _ h => h.1) (hr.steps.mono fun _ _ h => h.2)

end

end Whim.StringRuns
