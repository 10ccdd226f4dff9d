import Whim.DictOperations
import Whim.FoldedOperations

/-!
# Folding agrees with execution

A constant the optimizer computes for an instruction is the value the loop writes when it executes the instruction on
registers that the facts describe.
-/

namespace Whim

/-- The constants known for the registers of a literal are their values. -/
def Matches : List (Option ConstantValue) → List Value → Prop :=
  List.Forall₂ fun part v => ∀ c, part = some c → c.Is v

structure Fact.Describes (rt : Runtime) (fact : Fact) (v : Value) : Prop where
  isString : fact.isString = true → v.transparent.isString = true
  value : ∀ c, fact.value = some c → c.Is v
  textLength : ∀ n, fact.textLength = some n →
    ∃ bytes, v.transparent.asStringBytes = some bytes ∧ n = UInt64.ofNat bytes.length
  literal : ∀ kind parts, fact.literal = some (kind,parts) →
    ∃ operands, Matches parts operands ∧ Operations.newArray rt kind operands = .ok v

namespace ConstantFolding

open Arithmetic Operations Word Option List

variable {rt : Runtime} {a b c : ConstantValue} {v w : Value}

variable {operands : List Value} {parts : List (Option ConstantValue)} {entries : List (Key × Value)}
  {ps : List (Option ConstantValue × Option ConstantValue)}

section

open DictObject OrderedMap

/-- The entries a dictionary literal inserts, where its keys are keys. -/
def literalEntries : List Value → Option (List (Key × Value))
  | key::value::operands => do return (← Key.fromValue key,value)::(← literalEntries operands)
  | _ => some []

/-- A successful run of the loop of `NewArray` has inserted the entries in order. -/
theorem insertPairs_eq {d d' : DictObject Value} (hwf : WF rt.hashState d) (h : insertPairs rt operands d = .ok d') :
    ∃ entries, literalEntries operands = some entries ∧ WF rt.hashState d' ∧ d'.iter = insertAll d.iter entries := by
  induction operands using literalEntries.induct generalizing d with
  | case1 key value _ ih =>
    cases hkey : Key.fromValue key with
    | none => simp [insertPairs,dictKey,hkey] at h
    | some k =>
      simp only [insertPairs,dictKey,hkey,ok_bind] at h
      have hinserted := hwf.insert_eq (g := rt.growth) k value
      generalize hres : d.insert rt.hashState rt.growth k value = result at h hinserted
      cases hinserted with
      | full => cases h
      | appended hwf' e =>
        obtain ⟨entries,hentries,hwf'',hiter⟩ := ih hwf' h
        refine ⟨(k,value)::entries,by simp [literalEntries,hkey,hentries],hwf'',?_⟩
        rw [hiter,e.iter]
        rfl
      | overwritten hwf' e =>
        obtain ⟨entries,hentries,hwf'',hiter⟩ := ih hwf' h
        refine ⟨(k,value)::entries,by simp [literalEntries,hkey,hentries],hwf'',?_⟩
        rw [hiter,e.iter hwf]
        rfl
  | case2 operands hshort =>
    have hloop : insertPairs rt operands d = .ok d := by
      unfold insertPairs
      split
      · exact (hshort _ _ _ rfl).elim
      · rfl
    have hn : literalEntries operands = some [] := by
      unfold literalEntries
      split
      · exact (hshort _ _ _ rfl).elim
      · rfl
    cases hloop.symm.trans h
    exact ⟨[],hn,hwf,rfl⟩

/-- What a constant key denotes. -/
def keyContent : ConstantDictionaryKey → Key.Content
  | .bool value => .bool value
  | .int value => .int value
  | .uint value => .uint value
  | .string value => .string value.bytes

theorem keyContent_injective : Function.Injective keyContent := by
  intro x y h
  cases x <;> cases y <;> simp_all [keyContent]
  exact ByteString.ext_bytes h

variable {key : ConstantDictionaryKey}

theorem fromValue_injective (ha : ConstantDictionaryKey.fromValue a = some key)
    (hb : ConstantDictionaryKey.fromValue b = some key) : a = b := by
  cases a <;> cases b <;> simp_all [ConstantDictionaryKey.fromValue] <;> cases ha <;> simp_all

/-- A constant and its value are keys together, and then denote the same. -/
theorem key_of_fromValue {k : Key} (ha : a.Is v) (h : Key.fromValue v = some k) :
    ∃ key, ConstantDictionaryKey.fromValue a = some key ∧ k.denote = (keyContent key,none) := by
  cases a
  case string s =>
    rcases Is.string_cases ha with ⟨x,rfl,hx⟩ | ⟨x,rfl,hx⟩ <;> cases h <;>
      exact ⟨.string s,rfl,by simp [Key.denote,keyContent,hx]⟩
  all_goals
    cases ha
    cases h <;> exact ⟨_,rfl,rfl⟩

theorem exists_key (ha : a.Is v)
    (h : ConstantDictionaryKey.fromValue a = some key) : ∃ k, Key.fromValue v = some k := by
  cases a
  case string => rcases Is.string_cases ha with ⟨x,rfl,-⟩ | ⟨x,rfl,-⟩ <;> exact ⟨_,rfl⟩
  all_goals
    cases ha
    cases h <;> exact ⟨_,rfl⟩

theorem constantEquals_iff (ha : ConstantDictionaryKey.fromValue a = some key) :
    constantEquals a b ↔ a = b := by
  cases a <;> cases b <;> cases ha <;> simp [constantEquals]
  case string.string s t => exact ⟨ByteString.ext_bytes,congrArg _⟩

/-- What is known about a pair of a dictionary literal holds of the entry it inserts. -/
def PairMatches (pair : Option ConstantValue × Option ConstantValue) (e : Key × Value) : Prop :=
  (∀ c, pair.1 = some c → ∃ key, ConstantDictionaryKey.fromValue c = some key ∧
    e.1.denote = (keyContent key,none)) ∧ ∀ c, pair.2 = some c → c.Is e.2

theorem literalPairs_match (h : Matches parts operands) (hentries : literalEntries operands = some entries) :
    List.Forall₂ PairMatches (literalPairs parts) entries := by
  induction parts using literalPairs.induct generalizing operands entries with
  | case1 _ _ _ ih =>
    cases h with
    | cons hkey h =>
      cases h with
      | cons hv h =>
        obtain ⟨k,hk,hr⟩ := bind_eq_some_iff.mp hentries
        obtain ⟨rest,ht,heq⟩ := bind_eq_some_iff.mp hr
        cases heq
        exact .cons ⟨fun c hc => key_of_fromValue (hkey c hc) hk,hv⟩ (ih h ht)
  | case2 parts hshort =>
    have hn : literalPairs parts = [] := by
      unfold literalPairs
      split
      · exact (hshort _ _ _ rfl).elim
      · rfl
    rw [hn]
    cases h with
    | nil => cases hentries; exact .nil
    | cons _ h =>
      cases h with
      | nil => cases hentries; exact .nil
      | cons => exact (hshort _ _ _ rfl).elim

/-- The scan from the last pair finds the entry that a lookup finds. -/
theorem constantEntry_eq (hb : b.Is w) (hpairs : List.Forall₂ PairMatches ps entries)
    (h : constantEntry b ps = some c) :
    ∃ k e, Key.fromValue w = some k ∧ entries.find? (·.1 == k) = some e ∧ c.Is e.2 := by
  induction hpairs with
  | nil => cases h
  | @cons pair e _ _ hpair _ ih =>
    obtain ⟨candidate,value⟩ := pair
    cases candidate with
    | none => cases h
    | some candidate =>
      obtain ⟨key,hkey,hdenote⟩ := hpair.1 candidate rfl
      rw [constantEntry] at h
      split at h
      · next heq =>
        cases (constantEquals_iff hkey).mp heq
        obtain ⟨k,hk⟩ := exists_key hb hkey
        obtain ⟨key',hkey',hdenote'⟩ := key_of_fromValue hb hk
        cases hkey.symm.trans hkey'
        have hmatch : (e.1 == k) = true := Key.beq_iff_denote.mpr (hdenote.trans hdenote'.symm)
        exact ⟨k,e,hk,by simp [hmatch],hpair.2 c h⟩
      · next hne =>
        obtain ⟨k,f,hk,hf,hc⟩ := ih h
        obtain ⟨key',hkey',hdenote'⟩ := key_of_fromValue hb hk
        have hmiss : (e.1 == k) = false := by
          rw [Bool.eq_false_iff]
          intro hmatch
          have hsame := Key.beq_iff_denote.mp hmatch
          rw [hdenote,hdenote',Prod.mk.injEq] at hsame
          cases keyContent_injective hsame.1
          exact hne ((constantEquals_iff hkey).mpr (fromValue_injective hkey hkey'))
        exact ⟨k,f,hk,by simp [hmiss,hf],hc⟩

/-- A described dictionary literal is a dictionary with the entries of its pairs inserted in order. -/
theorem describes_dict (hmatch : Matches parts operands) (h : newArray rt .dict operands = .ok v) :
    ∃ d entries, v = .dict d ∧ WF rt.hashState d ∧ d.iter = insertAll [] entries ∧
      List.Forall₂ PairMatches (literalPairs parts) entries := by
  cases hinsert : insertPairs rt operands DictObject.new with
  | error => simp [newArray,hinsert] at h
  | ok d =>
    simp only [newArray,hinsert,ok_bind] at h
    cases h
    obtain ⟨entries,hentries,hwf,hiter⟩ := insertPairs_eq (wf_new rt.hashState) hinsert
    exact ⟨d,entries,rfl,hwf,hiter,literalPairs_match hmatch hentries⟩

end

variable {n : ℕ} {fact : Fact}

section

/-- What a folded read selects: a byte of a string, an element of a vector or tuple, a dictionary entry. -/
inductive Selected (rt : Runtime) (v : Value) (b : ConstantValue) (w : Value) (c : ConstantValue) : Prop
  | byte {bytes : List UInt8} {n : ℕ} {found : UInt8} (hv : v.transparent.asStringBytes = some bytes)
    (hn : b.position = some n) (hfound : bytes[n]? = some found) (hc : c = .string (ByteString.ofByte found))
  | element {elements : List Value} {n : ℕ} {u : Value}
    (hv : v = .vec (VecObject.withElements elements) ∨ v = .tuple elements) (hn : b.position = some n)
    (hu : elements[n]? = some u) (hc : c.Is u)
  | entry {d : DictObject Value} {k : Key} {u : Value} (hv : v = .dict d) (hk : Key.fromValue w = some k)
    (hu : d.getRef rt.hashState k = .ok (some u)) (hc : c.Is u)

theorem Matches.getElem?
    (h : Matches parts operands) (hn : (parts[n]?).join = some c) : ∃ u, operands[n]? = some u ∧ c.Is u := by
  obtain ⟨hlen,hall⟩ := forall₂_iff_get.mp h
  rw [join_eq_some_iff] at hn
  obtain ⟨hlt,hget⟩ := List.getElem?_eq_some_iff.mp hn
  have hlt' : n < operands.length := hlen ▸ hlt
  exact ⟨_,getElem?_eq_getElem hlt',hall n hlt hlt' c hget⟩

theorem selected (hfact : fact.Describes rt v) (hb : b.Is w) (h : constantIndex fact b = some c) :
    Selected rt v b w c := by
  unfold constantIndex at h
  split at h
  · split at h
    · next hv hn =>
      obtain ⟨f,hfound,rfl⟩ := map_eq_some_iff.mp h
      exact .byte (hfact.value _ hv).2 hn hfound rfl
    · cases h
  · split at h
    · next hliteral =>
      obtain ⟨operands,hmatch,hnew⟩ := hfact.literal _ _ hliteral
      obtain ⟨d,entries,rfl,hwf,hiter,hpairs⟩ := describes_dict hmatch hnew
      obtain ⟨k,e,hk,hf,hc⟩ := constantEntry_eq hb (rel_reverse hpairs) h
      refine .entry rfl hk ?_ hc
      rw [hwf.getRef_eq,hiter,OrderedMap.lookup_insertAll,hf]
      rfl
    · next kind _ hkind hliteral =>
      obtain ⟨operands,hmatch,hnew⟩ := hfact.literal _ _ hliteral
      obtain ⟨n,hn,hp⟩ := bind_eq_some_iff.mp h
      obtain ⟨u,hu,hc⟩ := Matches.getElem? hmatch hp
      refine .element ?_ hn hu hc
      cases kind with
      | vec => exact .inl (Except.ok.inj hnew).symm
      | tuple => exact .inr (Except.ok.inj hnew).symm
      | dict => exact (hkind rfl).elim
    · cases h

theorem position_eq {len : ℕ} (hb : b.Is w) (hn : b.position = some n) (hlt : n < len) :
    vecPosition w len = .ok n ∧ integerPosition w len = .ok n := by
  cases b <;> simp only [ConstantValue.position,reduceCtorEq] at hn
  case int =>
    obtain ⟨-,hn⟩ := ite_none_right_eq_some.mp hn
    cases hb
    cases hn
    exact ⟨if_pos hlt,if_pos hlt⟩
  case uint =>
    cases hb
    cases hn
    exact ⟨if_pos hlt,if_pos hlt⟩

theorem byteAt_agrees {bs : List UInt8} {f : UInt8} (h : bs[n]? = some f) :
    Agrees (byteAt bs n) (.string (ByteString.ofByte f)) := by
  rw [byteAt,h]
  exact .ok ⟨rfl,rfl⟩

theorem elementAt_eq {es : List Value} {u : Value} (h : es[n]? = some u) : elementAt es n = .ok u := by
  rw [elementAt,h]

theorem constantIndex_agrees (hb : b.Is w) (h : Selected rt v b w c) : Agrees (indexGet rt v w) c := by
  cases h with
  | @byte _ _ _ hv hn hfound hc =>
    subst hc
    have hlt := (List.getElem?_eq_some_iff.mp hfound).1
    cases htransparent : v.transparent <;> rw [htransparent] at hv <;> cases hv <;>
    · simp only [indexGet,htransparent,(position_eq hb hn hlt).1,ok_bind]
      exact byteAt_agrees hfound
  | @element _ _ _ hv hn hu hc =>
    have hlt := (List.getElem?_eq_some_iff.mp hu).1
    rcases hv with rfl | rfl
    · simpa [indexGet,Value.vec,VecObject.withElements,VecObject.len,(position_eq hb hn hlt).1,elementAt_eq hu]
        using .ok hc
    · simpa [indexGet,Value.tuple,(position_eq hb hn hlt).1,elementAt_eq hu] using .ok hc
  | entry hv hk hu hc =>
    subst hv
    simpa [indexGet,Value.dict,dictKey,hk,hu] using .ok hc

theorem stringIndexGet_agrees (hb : b.Is w) (h : Selected rt v b w c) : Agrees (stringIndexGet v w) c := by
  cases h with
  | byte hv hn hfound hc =>
    subst hc
    have hlt := (List.getElem?_eq_some_iff.mp hfound).1
    simpa [stringIndexGet,stringRegister,hv,(position_eq hb hn hlt).2] using byteAt_agrees hfound
  | element hv => rcases hv with rfl | rfl <;> exact .undefined
  | entry hv =>
    subst hv
    exact .undefined

theorem arrayValue_agrees (mode : ArrayValueMode) (hc : c.Is v) : Agrees (arrayValue v mode) c := by
  cases mode with
  | generic => exact .ok hc
  | float => exact .ok hc
  | int =>
    refine agrees_read (intRegister_cases v) fun x hx => ?_
    obtain ⟨rfl,rfl⟩ := Is.eq_int hc hx
    exact .ok rfl
  | uint =>
    refine agrees_read (uintRegister_cases v) fun x hx => ?_
    obtain ⟨rfl,rfl⟩ := Is.eq_uint hc hx
    exact .ok rfl

theorem vecIndexGet_agrees (mode : ArrayValueMode) (hb : b.Is w) (h : Selected rt v b w c) :
    Agrees (vecIndexGet v w mode) c := by
  cases h with
  | byte hv => cases htransparent : v.transparent <;> rw [htransparent] at hv <;> cases hv <;>
      exact .inl (by simp [vecIndexGet,htransparent])
  | @element _ _ _ hv hn hu hc =>
    have hlt := (List.getElem?_eq_some_iff.mp hu).1
    rcases hv with rfl | rfl
    · simpa [vecIndexGet,Value.vec,VecObject.withElements,VecObject.len,(position_eq hb hn hlt).2,
        elementAt_eq hu] using arrayValue_agrees mode hc
    · exact .undefined
  | entry hv =>
    subst hv
    exact .undefined

theorem elementGet_agrees {i : ImmediateInt} (h : Selected rt v (.int i.toInt64) w c) :
    Agrees (elementGet v i) c := by
  cases h with
  | byte hv => cases htransparent : v.transparent <;> rw [htransparent] at hv <;> cases hv <;>
      exact .inl (by simp [elementGet,htransparent])
  | element hv hn hu hc =>
    obtain ⟨-,hn⟩ := ite_none_right_eq_some.mp hn
    cases hn
    rcases hv with rfl | rfl <;>
      simpa [elementGet,Value.vec,Value.tuple,VecObject.withElements,elementAt_eq hu] using .ok hc
  | entry hv =>
    subst hv
    exact .undefined

end

section

open OrderedMap

section
variable {keys : List ConstantDictionaryKey} (hpairs : List.Forall₂ PairMatches ps entries)
    (h : constantKeys ps = some keys)
include hpairs h

theorem constantKeys_denote : entries.map (·.1.denote) = keys.map fun key => (keyContent key,none) := by
  induction hpairs generalizing keys with
  | nil => cases h; rfl
  | @cons pair _ _ _ hpair _ ih =>
    obtain ⟨candidate,value⟩ := pair
    cases candidate with
    | none => cases h
    | some candidate =>
      obtain ⟨key,hkey,hdenote⟩ := hpair.1 candidate rfl
      obtain ⟨key',hkey',h⟩ := bind_eq_some_iff.mp h
      obtain ⟨rest,hr,heq⟩ := bind_eq_some_iff.mp h
      cases heq
      cases hkey.symm.trans hkey'
      rw [map_cons,map_cons,ih hr,hdenote]

/-- The number of distinct constant keys is the number of entries. -/
theorem length_literal : (insertAll [] entries).length = keys.dedup.length := by
  have hinjective : Function.Injective fun key => (keyContent key,(none : Option NewtypeValueId)) :=
    fun x y hxy => keyContent_injective (congrArg Prod.fst hxy)
  rw [length_insertAll (f := Key.denote) (fun _ _ => Key.beq_iff_denote),constantKeys_denote hpairs h,
    dedup_map_of_injective hinjective,length_map]

end

theorem length_insertAll_short (h : entries.length ≤ 1) : (insertAll [] entries).length = entries.length := by
  rcases entries with - | ⟨e,- | ⟨e',entries⟩⟩
  · rfl
  · rfl
  · simp at h

theorem textLength_agrees {bs : List UInt8} (h : v.transparent.asStringBytes = some bs) :
    Agrees (arrayLength v) (.uint (UInt64.ofNat bs.length)) ∧
      Agrees (stringLength v) (.uint (UInt64.ofNat bs.length)) := by
  refine ⟨?_,?_⟩
  · cases hv : v.transparent <;> rw [hv] at h <;> cases h <;> simp only [arrayLength,hv] <;> exact .ok rfl
  · simp only [stringLength,stringRegister,h,ok_bind]
    exact .ok rfl

theorem dictLength_agrees {d : DictObject Value} (hwf : DictObject.WF rt.hashState d)
    (h : d.iter.length = n) : Agrees (arrayLength (.dict d)) (.uint (UInt64.ofNat n)) := by
  simp only [arrayLength,Value.dict,Value.transparent_mk,hwf.len_eq,h]
  exact .ok rfl

theorem constantLengthFact_agrees {n : UInt64} (hfact : fact.Describes rt v)
    (h : constantLengthFact fact = some n) : Agrees (arrayLength v) (.uint n) ∧ Agrees (stringLength v) (.uint n) := by
  unfold constantLengthFact at h
  split at h
  · next ht =>
    cases h
    obtain ⟨bs,hbytes,rfl⟩ := hfact.textLength _ ht
    exact textLength_agrees hbytes
  · next hliteral =>
    obtain ⟨operands,hmatch,hnew⟩ := hfact.literal _ _ hliteral
    obtain ⟨d,entries,rfl,hwf,hiter,hpairs⟩ := describes_dict hmatch hnew
    refine ⟨?_,.undefined⟩
    dsimp only at h
    split at h
    · next hshort =>
      cases h
      rw [hpairs.length_eq] at hshort ⊢
      exact dictLength_agrees hwf (by rw [hiter,length_insertAll_short hshort])
    · obtain ⟨keys,hk,rfl⟩ := map_eq_some_iff.mp h
      exact dictLength_agrees hwf (by rw [hiter,length_literal hpairs hk])
  · next kind _ hkind _ hliteral =>
    obtain ⟨operands,hmatch,hnew⟩ := hfact.literal _ _ hliteral
    cases h
    cases kind with
    | vec | tuple =>
      cases hnew
      rw [List.Forall₂.length_eq hmatch]
      exact ⟨.ok rfl,.undefined⟩
    | dict => exact (hkind rfl).elim
  · cases h

end

section

variable {chunk : Chunk} {facts : Register → Fact} {registers : Register → Value} {dst r : Register}

/-- A step that writes the destination agrees with the folded constant. -/
def StepAgrees (step : Option (Register × Outcome Value)) (r : Register) (c : ConstantValue) : Prop :=
  ∃ outcome, step = some (r,outcome) ∧ Agrees outcome c

theorem stepAgrees_known (h : some (dst,b) = some (r,c)) (hb : b.Is v) : StepAgrees (some (dst,.ok v)) r c := by
  cases h
  exact ⟨_,rfl,.ok hb⟩

variable {o : Outcome Value}

/-- A constant computed from what the folding reads. -/
theorem stepAgrees_map {α : Type} {x : Option α} {f : α → ConstantValue} (hagrees : ∀ n, x = some n → Agrees o (f n))
    (h : (do return (dst,f (← x))) = some (r,c)) : StepAgrees (some (dst,o)) r c := by
  obtain ⟨n,hn,h⟩ := bind_eq_some_iff.mp h
  cases h
  exact ⟨_,rfl,hagrees n hn⟩

/-- A fold of two operands that the folding reads. -/
theorem stepAgrees_fold {α β : Type} {x : Option α} {y : Option β} {fold : α → β → Option ConstantValue}
    (hagrees : ∀ {a b c}, x = some a → y = some b → fold a b = some c → Agrees o c)
    (h : (do return (dst,← fold (← x) (← y))) = some (r,c)) : StepAgrees (some (dst,o)) r c := by
  obtain ⟨a,ha,h⟩ := bind_eq_some_iff.mp h
  obtain ⟨b,hb,h⟩ := bind_eq_some_iff.mp h
  exact stepAgrees_map (fun n hn => hagrees ha hb hn) h

theorem stepAgrees_unary {fold : ConstantValue → Option ConstantValue}
    (hagrees : ∀ {a c}, a.Is v → fold a = some c → Agrees o c) (hfact : fact.Describes rt v)
    (h : (do return (dst,← fold (← fact.value))) = some (r,c)) : StepAgrees (some (dst,o)) r c := by
  obtain ⟨a,ha,h⟩ := bind_eq_some_iff.mp h
  exact stepAgrees_map (fun n hn => hagrees (hfact.value a ha) hn) h

variable {left right : Fact} (hl : left.Describes rt v) (hr : right.Describes rt w)
include hl hr

theorem stepAgrees_binary {fold : ConstantValue → ConstantValue → Option ConstantValue}
    (hagrees : ∀ {a b c}, a.Is v → b.Is w → fold a b = some c → Agrees o c)
    (h : (do return (dst,← fold (← left.value) (← right.value))) = some (r,c)) : StepAgrees (some (dst,o)) r c :=
  stepAgrees_fold (fun ha hb => hagrees (hl.value _ ha) (hr.value _ hb)) h

theorem stepAgrees_equality {negated : Bool} {f : Bool → Bool} (hf : ∀ equal, f equal = (equal != negated))
    (h : (do return (dst,.bool (f (constantEquals (← left.value) (← right.value))))) = some (r,c)) :
    StepAgrees (some (dst,equality rt negated v w)) r c := by
  obtain ⟨a,ha,h⟩ := bind_eq_some_iff.mp h
  refine stepAgrees_map (fun b hb => ?_) h
  rw [hf]
  exact equality_agrees negated (hl.value a ha) (hr.value b hb)

omit hl hr

theorem constantFromLiteral_is (l : Literal) : (constantFromLiteral l).Is (literalValue l) := by
  cases l <;> first
    | rfl
    | exact ⟨rfl,rfl⟩

variable {constant : ConstantIndex}

theorem constantString_eq_some (h : constantString chunk constant = some b) :
    ∃ x, b = .string x ∧ stringConstant chunk constant = .ok x := by
  unfold constantString at h
  split at h
  · next x hextra =>
    cases h
    exact ⟨x,rfl,by simp [stringConstant,constantOf,hextra]⟩
  · cases h

theorem floatMultiplyConstant_agrees (ha : a.Is v)
    (hb : constantLiteral chunk constant = some b) (h : constantMultiply rt a b = some c) : Agrees (do
      let value ← floatRegister v return .float (rt.floats.multiply value (← floatConstant chunk constant))) c := by
  obtain ⟨l,hliteral,rfl⟩ := map_eq_some_iff.mp hb
  refine agrees_read (floatRegister_cases v) fun x hx => ?_
  obtain ⟨rfl,-⟩ := Is.eq_float ha hx
  cases l <;> simp only [floatConstant,constantOf,hliteral,ok_bind,error_bind,Agrees.undefined]
  cases h
  exact .ok rfl

/-- An operand that is a string constant of the chunk. -/
theorem rightConstant_agrees (ha : a.Is v) (hb : constantString chunk constant = some b)
    (h : constantConcatenate rt a b = some c) :
    Agrees (do concatenateRightConstant rt dst r v (← stringConstant chunk constant)) c := by
  obtain ⟨extra,rfl,hextra⟩ := constantString_eq_some hb
  rw [hextra,ok_bind]
  exact concatenateRightConstant_agrees _ _ ha h

theorem leftConstant_agrees (ha : a.Is v) (hb : constantString chunk constant = some b)
    (h : constantConcatenate rt b a = some c) :
    Agrees (do concatenateLeftConstant rt (← stringConstant chunk constant) v) c := by
  obtain ⟨extra,rfl,hextra⟩ := constantString_eq_some hb
  rw [hextra,ok_bind]
  exact concatenateLeftConstant_agrees ha h

theorem loadConstant_agrees (h : constantLiteral chunk constant = some c) :
    Agrees ((constantOf chunk constant).map literalValue) c := by
  obtain ⟨l,hliteral,rfl⟩ := map_eq_some_iff.mp h
  simpa [constantOf,hliteral,Except.map] using .ok (constantFromLiteral_is l)

/-- The immediate is subtracted by adding its negation, and floats are not folded. -/
theorem subtractImmediate_agrees {immediate : ImmediateInteger} {kind : Option IntegerKind} (ha : a.Is v)
    (hfloat : ∀ f, a ≠ .float f) (h : constantSubtract rt a (integerConstant immediate (kind.getD .i64)) = some c) :
    Agrees (immediateStep rt (-asInt immediate) unsignedSubtract "-" kind v immediate) c := by
  refine immediateStep_agrees (fun x z h => ?_) (fun _ _ _ => okOr_of_eq_some) (fun x hx => (hfloat x hx).elim) ha h
  rw [checkedAdd_neg_asInt,h]

/-- The constant that is folded from the operands of an instruction is what a step computes of them. -/
theorem constantResult_agrees {i : Instruction} (hfacts : ∀ r, (facts r).Describes rt (registers r))
    (hops : ∀ r f, (facts r).value ≠ some (.float f)) (h : constantResult rt chunk facts i = some (r,c)) :
    StepAgrees (execute rt chunk registers i) r c := by
  have hvalue (r : Register) (a : ConstantValue) (ha : (facts r).value = some a) : a.Is (registers r) :=
    (hfacts r).value a ha
  cases i
  -- loads and moves
  case move src | moveOwned src => exact stepAgrees_map (fun a ha => .ok (hvalue src a ha)) h
  case loadConstant => exact stepAgrees_map (fun _ => loadConstant_agrees) h
  case loadNull | loadTrue | loadFalse => exact stepAgrees_known h rfl
  case loadInteger kind => cases kind <;> exact stepAgrees_known h rfl
  -- arithmetic
  case add left right _ | subtract left right _ | multiply left right _ =>
    exact stepAgrees_binary (hfacts left) (hfacts right)
      (constantTable_agrees (fun _ _ _ => okOr_of_eq_some) fun _ _ _ => okOr_of_eq_some) h
  case floatAdd left right | floatSubtract left right | floatMultiply left right =>
    exact stepAgrees_binary (hfacts left) (hfacts right) floatArithmetic_agrees h
  case floatMultiplyConstant src _ =>
    exact stepAgrees_fold (fun ha => floatMultiplyConstant_agrees (hvalue src _ ha)) h
  case modulo left right _ => exact stepAgrees_binary (hfacts left) (hfacts right) constantModulo_agrees h
  case divide left right => exact stepAgrees_binary (hfacts left) (hfacts right) constantDivide_agrees h
  case power left right => exact stepAgrees_binary (hfacts left) (hfacts right) constantPower_agrees h
  case negate src => exact stepAgrees_unary constantNegate_agrees (hfacts src) h
  case unaryPlus src => exact stepAgrees_unary constantUnaryPlus_agrees (hfacts src) h
  case step src _ _ => exact stepAgrees_unary constantStep_agrees (hfacts src) h
  -- immediates
  case addImmediate src _ _ =>
    exact stepAgrees_unary (immediateStep_agrees (fun _ _ h => h) (fun _ _ _ => okOr_of_eq_some) fun _ _ => rfl)
      (hfacts src) h
  case subtractImmediate src _ _ =>
    obtain ⟨a,ha,h⟩ := bind_eq_some_iff.mp h
    have hfloat : ∀ f, a ≠ .float f := fun f heq => hops src f (heq ▸ ha)
    exact stepAgrees_map (fun _ => subtractImmediate_agrees (hvalue src a ha) hfloat) h
  case integerMultiplyImmediate src _ _ => exact stepAgrees_unary constantMultiply_immediate_agrees (hfacts src) h
  case integerModuloImmediate src _ _ => exact stepAgrees_unary constantModulo_immediate_agrees (hfacts src) h
  -- bits and comparisons
  case bitwiseAnd left right _ | bitwiseOr left right _ | bitwiseXor left right _ =>
    exact stepAgrees_binary (hfacts left) (hfacts right) (constantIntBinary_agrees fun _ _ => rfl) h
  case bitwiseNot src _ => exact stepAgrees_unary constantBitwiseNot_agrees (hfacts src) h
  case shiftLeft left right _ =>
    exact stepAgrees_binary (hfacts left) (hfacts right) (fun ha hb => (constantShift_agrees ha hb).1) h
  case shiftRight left right _ =>
    exact stepAgrees_binary (hfacts left) (hfacts right) (fun ha hb => (constantShift_agrees ha hb).2) h
  case equal left right => exact stepAgrees_equality (hfacts left) (hfacts right) (fun e => (Bool.bne_false e).symm) h
  case notEqual left right => exact stepAgrees_equality (hfacts left) (hfacts right) (fun e => (Bool.bne_true e).symm) h
  case lessThan left right | lessThanOrEqual left right | greaterThan left right | greaterThanOrEqual left right =>
    exact stepAgrees_binary (hfacts left) (hfacts right) constantOrdered_agrees h
  case compare left right => exact stepAgrees_binary (hfacts left) (hfacts right) constantSpaceship_agrees h
  case not src => exact stepAgrees_unary constantNot_agrees (hfacts src) h
  -- strings and elements
  case concatenate dst left right =>
    exact stepAgrees_binary (hfacts left) (hfacts right) (constantConcatenate_agrees dst left right) h
  case concatenateRightConstant src _ =>
    exact stepAgrees_fold (fun ha => rightConstant_agrees (hvalue src _ ha)) h
  case concatenateLeftConstant src _ =>
    exact stepAgrees_fold (fun hb ha => leftConstant_agrees (hvalue src _ ha) hb) h
  case length src => exact stepAgrees_map (fun _ hn => (constantLengthFact_agrees (hfacts src) hn).1) h
  case stringLength src => exact stepAgrees_map (fun _ hn => (constantLengthFact_agrees (hfacts src) hn).2) h
  case indexGet container index =>
    exact stepAgrees_unary (fun hb h => constantIndex_agrees hb (selected (hfacts container) hb h)) (hfacts index) h
  case vecIndexGet container index mode =>
    exact stepAgrees_unary (fun hb h => vecIndexGet_agrees mode hb (selected (hfacts container) hb h)) (hfacts index) h
  case stringIndexGet container index =>
    exact stepAgrees_unary (fun hb h => stringIndexGet_agrees hb (selected (hfacts container) hb h)) (hfacts index) h
  case elementGet subject index =>
    refine stepAgrees_map (fun _ hres => ?_) h
    exact elementGet_agrees (selected (w := .int index.toInt64) (hfacts subject) rfl hres)
  all_goals cases h

/-- No operand is read as another kind than it has, which type flow proves before it picks a typed form. -/
def Defined (rt : Runtime) (chunk : Chunk) (registers : Register → Value) (instruction : Instruction) : Prop :=
  ∀ r, execute rt chunk registers instruction ≠ some (r,.error .undefined)

/-- Folding agrees with execution: where the facts describe the registers, no operand is a float constant and
the typed forms meet their kinds, the loop writes the folded constant to the same register. -/
theorem constant_folding_agrees (rt : Runtime) (chunk : Chunk) (facts : Register → Fact)
    (registers : Register → Value) (instruction : Instruction) (r : Register) (c : ConstantValue)
    (hfacts : ∀ r, (facts r).Describes rt (registers r))
    (hoperands : ∀ r f, (facts r).value ≠ some (.float f)) (hdefined : Defined rt chunk registers instruction)
    (h : constantResult rt chunk facts instruction = some (r,c)) :
    ∃ v, execute rt chunk registers instruction = some (r,.ok v) ∧ c.Is v := by
  obtain ⟨outcome,hstep,rfl | ⟨v,rfl,hc⟩⟩ := constantResult_agrees hfacts hoperands h
  · exact (hdefined r hstep).elim
  · exact ⟨v,hstep,hc⟩

/-- The facts and registers of two integer operands. -/
def integerFacts (left : Int64) (right : Int64) (r : Register) : Fact :=
  ⟨false,some (.int (if r = 0 then left else right)),none,none⟩

def integerRegisters (left : Int64) (right : Int64) (r : Register) : Value := .int (if r = 0 then left else right)

theorem integerFacts_describe (left right : Int64) (r : Register) :
    (integerFacts left right r).Describes default (integerRegisters left right r) where
  isString := by simp [integerFacts]
  value c hc := by cases hc; rfl
  textLength := by simp [integerFacts]
  literal := by simp [integerFacts]

theorem constant_folding_agrees_add :
    ∃ v, execute default (chunkOf [] (by decide)) (integerRegisters 1 2) (.add 2 0 1 none) = some (2,.ok v) ∧
      (ConstantValue.int 3).Is v :=
  constant_folding_agrees default _ (integerFacts 1 2) _ _ _ _ (integerFacts_describe 1 2) (by simp [integerFacts])
    (fun _ h => by cases h) rfl

/-- The float forms are folded on integers too, which the loop would read as floats. -/
theorem float_add_folds_integers : (∀ r, (integerFacts 1 2 r).Describes default (integerRegisters 1 2 r)) ∧
    (∀ r f, (integerFacts 1 2 r).value ≠ some (.float f)) ∧
    constantResult default (chunkOf [] (by decide)) (integerFacts 1 2) (.floatAdd 2 0 1) = some (2,.int 3) ∧
    ¬ ∃ v, execute default (chunkOf [] (by decide)) (integerRegisters 1 2) (.floatAdd 2 0 1) = some (2,.ok v) ∧
      (ConstantValue.int 3).Is v :=
  ⟨integerFacts_describe 1 2,by simp [integerFacts],rfl,fun ⟨_,h,_⟩ => by cases h⟩

end

end ConstantFolding
end Whim
