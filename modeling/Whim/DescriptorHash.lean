import Whim.DescriptorEquality

/-!
# Hashing of descriptors

Equality of descriptors is an equivalence, and equal descriptors write the same to a hasher: without an order, members
are written as their number and the sum of their digests.
-/

namespace Whim.TypeDescriptor

open List Bool

def boolWrite (value : Bool) : HashWrite := .u8 (if value then 1 else 0)

def intBoundWrites : Option Int64 → List HashWrite
  | none => [.usize 0]
  | some value => [.usize 1,.u64 value.toUInt64]

def uintBoundWrites : Option UInt64 → List HashWrite
  | none => [.usize 0]
  | some value => [.usize 1,.u64 value]

section

variable (digest : List HashWrite → UInt64) (address : Atom → ℕ) (ordered : Bool)

def keyWrites : ShapeKey → List HashWrite
  | .bool key => [.u8 2,boolWrite key]
  | .int key => [.u8 0,.u64 key.toUInt64]
  | .uint key => [.u8 3,.u64 key]
  | .string key => [.u8 1,.usize (address key)]

mutual

/-- `hash_descriptor`: what is written to the hasher, the place of the constructor in the enumeration first. An atom
writes its address. -/
def hashDescriptor : TypeDescriptor → List HashWrite
  | wildcard => [.usize 0]
  | mixed => [.usize 1]
  | void => [.usize 2]
  | never => [.usize 3]
  | null => [.usize 4]
  | bool => [.usize 5]
  | int => [.usize 6]
  | uint => [.usize 7]
  | fresh => [.usize 38]
  | float => [.usize 8]
  | string => [.usize 9]
  | object => [.usize 11]
  | trueLiteral => [.usize 12]
  | falseLiteral => [.usize 13]
  | staticClass => [.usize 23]
  | tupleAny => [.usize 33]
  | intLiteral value => [.usize 14,.u64 value.toUInt64]
  | uintLiteral value => [.usize 15,.u64 value]
  | uintRange min max => .usize 16::(uintBoundWrites min++uintBoundWrites max)
  | intRange min max => .usize 17::(intBoundWrites min++intBoundWrites max)
  | stringLength min max => .usize 10::.u64 min.toUInt64::intBoundWrites max
  | floatLiteral value => [.usize 18,.u64 value.bits]
  | stringLiteral value => [.usize 19,.usize (address value)]
  | parameter name => [.usize 22,.usize (address name)]
  | named name none _ => [.usize 20,.usize (address name),boolWrite false]
  | named name (some arguments) _ =>
    .usize 20::.usize (address name)::boolWrite true::.usize arguments.length::hashElements arguments
  | member owner none name none =>
    [.usize 21,.usize (address owner),boolWrite false,.usize (address name),
      boolWrite false]
  | member owner none name (some arguments) =>
    .usize 21::.usize (address owner)::boolWrite false::
      .usize (address name)::boolWrite true::.usize arguments.length::hashElements arguments
  | member owner (some ownerArguments) name none =>
    .usize 21::.usize (address owner)::boolWrite true::
      .usize ownerArguments.length::(hashElements ownerArguments++[.usize (address name),boolWrite false])
  | member owner (some ownerArguments) name (some arguments) =>
    .usize 21::.usize (address owner)::boolWrite true::
      .usize ownerArguments.length::(hashElements ownerArguments ++
        .usize (address name)::boolWrite true::.usize arguments.length::hashElements arguments)
  | array none => [.usize 24,boolWrite false]
  | array (some (key,value)) => .usize 24::boolWrite true::(hashDescriptor key++hashDescriptor value)
  | dictionary none => [.usize 27,boolWrite false]
  | dictionary (some (key,value)) => .usize 27::boolWrite true::(hashDescriptor key++hashDescriptor value)
  | vector none => [.usize 25,boolWrite false]
  | vector (some element) => .usize 25::boolWrite true::hashDescriptor element
  | vectorShape elements none => .usize 26::.usize elements.length::(hashElements elements++[boolWrite false])
  | vectorShape elements (some rest) =>
    .usize 26::.usize elements.length::(hashElements elements++boolWrite true::hashDescriptor rest)
  | objectShape entries isOpen => .usize 37::.usize entries.length::boolWrite isOpen::hashSlots entries
  | dictionaryShape entries none => .usize 28::.usize entries.length::(hashEntries entries++[boolWrite false])
  | dictionaryShape entries (some (key,value)) =>
    .usize 28::.usize entries.length::
      (hashEntries entries++boolWrite true::(hashDescriptor key++hashDescriptor value))
  | callable none => [.usize 29,boolWrite false]
  | callable (some (parameters,result)) =>
    .usize 29::boolWrite true::.usize parameters.length::(hashParameters parameters++hashDescriptor result)
  | classname inner => .usize 30::hashDescriptor inner
  | negated inner => .usize 36::hashDescriptor inner
  | union members =>
    .usize 34::.usize members.length:: if ordered then hashElements members else [.u64 (sumDigests members 0)]
  | intersection members =>
    .usize 35::.usize members.length:: if ordered then hashElements members else [.u64 (sumDigests members 0)]
  | tuple members => .usize 31::.usize members.length::hashElements members
  | tupleRest elements rest => .usize 32::.usize elements.length::(hashElements elements++hashDescriptor rest)

def hashElements : List TypeDescriptor → List HashWrite
  | [] => []
  | d::ds => hashDescriptor d++hashElements ds

def hashEntries : List (ShapeKey × TypeDescriptor) → List HashWrite
  | [] => []
  | (key,d)::entries => keyWrites address key++(hashDescriptor d++hashEntries entries)

def hashSlots : List (Atom × TypeDescriptor) → List HashWrite
  | [] => []
  | (name,d)::entries => .usize (address name)::(hashDescriptor d++hashSlots entries)

def hashParameters : List (TypeDescriptor × Bool) → List HashWrite
  | [] => []
  | (d,optional)::parameters => boolWrite optional::(hashDescriptor d++hashParameters parameters)

/-- The wrapping sum of the digests of members, each with a hasher of its own. -/
def sumDigests : List TypeDescriptor → UInt64 → UInt64
  | [] => fun sum => sum
  | d::ds => fun sum => sumDigests ds (sum+digest (hashDescriptor d))

end

end

section

variable {digest : List HashWrite → UInt64} {address : Atom → ℕ} {ordered : Bool} {left right : List TypeDescriptor}

theorem hashElements_eq (es : List TypeDescriptor) :
    hashElements digest address ordered es = es.flatMap (hashDescriptor digest address ordered) := by
  induction es with
  | nil => rfl
  | cons _ _ ih => rw [hashElements,ih,flatMap_cons]

theorem hashEntries_eq (es : List (ShapeKey × TypeDescriptor)) : hashEntries digest address ordered es =
    es.flatMap fun e => keyWrites address e.1++hashDescriptor digest address ordered e.2 := by
  induction es with
  | nil => rfl
  | cons _ _ ih => rw [hashEntries,ih,flatMap_cons,append_assoc]

theorem hashSlots_eq (es : List (Atom × TypeDescriptor)) : hashSlots digest address ordered es =
    es.flatMap fun e => [.usize (address e.1)]++hashDescriptor digest address ordered e.2 := by
  induction es with
  | nil => rfl
  | cons _ _ ih => rw [hashSlots,ih,flatMap_cons,append_assoc,singleton_append]

theorem hashParameters_eq (params : List (TypeDescriptor × Bool)) : hashParameters digest address ordered params =
    params.flatMap fun e => [boolWrite e.2]++hashDescriptor digest address ordered e.1 := by
  induction params with
  | nil => rfl
  | cons _ _ ih => rw [hashParameters,ih,flatMap_cons,append_assoc,singleton_append]

theorem sumDigests_eq (ms : List TypeDescriptor) (sum : UInt64) : sumDigests digest address ordered ms sum =
    (ms.map (hashDescriptor digest address ordered)).foldl (fun sum writes => sum+digest writes) sum := by
  induction ms generalizing sum with
  | nil => rfl
  | cons _ _ ih => exact ih _

/-- A sum of digests does not depend on the order of the members. -/
theorem sumDigests_perm
    (h : (left.map (hashDescriptor digest address ordered)).Perm (right.map (hashDescriptor digest address ordered))) :
    sumDigests digest address ordered left 0 = sumDigests digest address ordered right 0 := by
  rw [sumDigests_eq,sumDigests_eq]
  refine h.foldl_eq' (fun x _ y _ sum => ?_) 0
  rw [UInt64.add_assoc,UInt64.add_assoc,UInt64.add_comm (digest y)]

end

section

variable {ordered : Bool} {left right : List TypeDescriptor}

/-- The descriptors that are equal to `d` write what `d` writes. -/
def HashesAlike (digest : List HashWrite → UInt64) (address : Atom → ℕ) (ordered : Bool) (d : TypeDescriptor) : Prop :=
  ∀ b, descriptorEqual ordered d b = true → hashDescriptor digest address ordered d =
    hashDescriptor digest address ordered b

/-- What is equal to `d` is equal to the same descriptors and writes the same. -/
def Indistinct (ordered : Bool) (d : TypeDescriptor) : Prop :=
  ∀ b, descriptorEqual ordered d b = true → descriptorEqual ordered d = descriptorEqual ordered b ∧
    ∀ digest address, hashDescriptor digest address ordered d = hashDescriptor digest address ordered b

theorem Indistinct.classOf {d : TypeDescriptor} (h : Indistinct ordered d) : ClassOf ordered d :=
  fun b hb => (h b hb).1

/-- Lists that agree in the keys and in the classes of the descriptors are of one class and write the same. -/
theorem isEqv_indistinct {α κ : Type} (key : α → κ) (v : α → TypeDescriptor) {same : α → α → Bool}
    {listSame : List α → List α → Bool} {hash : (List HashWrite → UInt64) → (Atom → ℕ) → List α → List HashWrite}
    (writes : (Atom → ℕ) → κ → List HashWrite) (hlistSame : ∀ l r, listSame l r = l.isEqv r same)
    (hh : ∀ digest address l, hash digest address l =
      l.flatMap fun e => writes address (key e)++hashDescriptor digest address ordered (v e))
    (hkey : ∀ e f, same e f → key e = key f ∧ descriptorEqual ordered (v e) (v f))
    (hsame : ∀ e f, key e = key f → descriptorEqual ordered (v e) = descriptorEqual ordered (v f) →
      same e = same f)
    {left right : List α} (h : ∀ e ∈ left, Indistinct ordered (v e)) (heqv : listSame left right) :
    listSame left = listSame right ∧ left.length = right.length ∧
      ∀ digest address, hash digest address left = hash digest address right := by
  rw [hlistSame] at heqv
  refine ⟨funext fun s => ?_,?_⟩
  · rw [hlistSame,hlistSame]
    refine Counting.isEqv_class (fun e he f hf => ?_) heqv s
    obtain ⟨hk,hvalues⟩ := hkey e f hf
    exact hsame e f hk (h e he _ hvalues).1
  · simp only [hh]
    rw [Counting.isEqv_iff] at heqv
    induction heqv with
    | nil => exact ⟨rfl,fun _ _ => rfl⟩
    | @cons e f _ _ hd _ ih =>
      obtain ⟨hhead,ht⟩ := forall_mem_cons.mp h
      obtain ⟨hk,hvalues⟩ := hkey e f hd
      refine ⟨congrArg (· + 1) (ih ht).1,fun digest address => ?_⟩
      rw [flatMap_cons,flatMap_cons,hk,(hhead _ hvalues).2,(ih ht).2]

theorem descriptorsSame_indistinct (h : ∀ d ∈ left, Indistinct ordered d)
    (hsame : descriptorsSame ordered left right) :
    descriptorsSame ordered left = descriptorsSame ordered right ∧ left.length = right.length ∧
      ∀ digest address, hashElements digest address ordered left = hashElements digest address ordered right :=
  isEqv_indistinct (fun _ => ()) id (fun _ _ => []) descriptorsSame_eq (fun _ _ => hashElements_eq)
    (fun _ _ h => ⟨rfl,h⟩) (fun _ _ _ h => h) h hsame

theorem entriesSame_indistinct {left right : List (ShapeKey × TypeDescriptor)}
    (h : ∀ e ∈ left, Indistinct ordered e.2) (hsame : entriesSame ordered left right) :
    entriesSame ordered left = entriesSame ordered right ∧ left.length = right.length ∧
      ∀ digest address, hashEntries digest address ordered left = hashEntries digest address ordered right :=
  isEqv_indistinct Prod.fst Prod.snd keyWrites entriesSame_eq (fun _ _ => hashEntries_eq)
    (fun e f hf => by rwa [and_eq_true,ShapeKey.same_iff] at hf)
    (fun e f hkey hv => by simp only [hkey,hv]) h hsame

theorem slotsSame_indistinct {left right : List (Atom × TypeDescriptor)}
    (h : ∀ e ∈ left, Indistinct ordered e.2) (hsame : slotsSame ordered left right) :
    slotsSame ordered left = slotsSame ordered right ∧ left.length = right.length ∧
      ∀ digest address, hashSlots digest address ordered left = hashSlots digest address ordered right :=
  isEqv_indistinct Prod.fst Prod.snd (fun address name => [.usize (address name)]) slotsSame_eq
    (fun _ _ => hashSlots_eq) (fun e f hf => by rwa [and_eq_true,beq_iff_eq] at hf)
    (fun e f hkey hv => by simp only [hkey,hv]) h hsame

theorem parametersSame_indistinct {left right : List (TypeDescriptor × Bool)}
    (h : ∀ e ∈ left, Indistinct ordered e.1) (hsame : parametersSame ordered left right) :
    parametersSame ordered left = parametersSame ordered right ∧ left.length = right.length ∧
      ∀ digest address, hashParameters digest address ordered left = hashParameters digest address ordered right :=
  isEqv_indistinct Prod.snd Prod.fst (fun _ optional => [boolWrite optional]) parametersSame_eq
    (fun _ _ => hashParameters_eq) (fun e f hf => by rwa [and_eq_true,beq_iff_eq] at hf)
    (fun e f hkey hv => by simp only [hkey,hv]) h hsame

theorem members_indistinct (h : ∀ d ∈ left, Indistinct ordered d) (hsame : (descriptorsSame ordered left right ||
      !ordered && left.length == right.length && countsSame ordered left left right)) :
    (∀ ms, (descriptorsSame ordered left ms ||
        !ordered && left.length == ms.length && countsSame ordered left left ms) = (descriptorsSame ordered right ms ||
        !ordered && right.length == ms.length && countsSame ordered right right ms)) ∧
      left.length = right.length ∧ ∀ digest address, (if ordered then hashElements digest address ordered left
        else [.u64 (sumDigests digest address ordered left 0)]) =
      if ordered then hashElements digest address ordered right
      else [.u64 (sumDigests digest address ordered right 0)] := by
  cases ordered with
  | true =>
    simp only [Bool.not_true,Bool.false_and,Bool.or_false] at hsame ⊢
    obtain ⟨hclass,hrest⟩ := descriptorsSame_indistinct h hsame
    exact ⟨congrFun hclass,hrest⟩
  | false =>
    have hclass : ∀ d ∈ left, ClassOf false d := fun d hd => (h d hd).classOf
    have hp := (unordered_iff hclass).mp hsame
    refine ⟨fun ms => ?_,by simpa using hp.length_eq,fun digest address => ?_⟩
    · have hr : ∀ e ∈ right, ClassOf false e := by
        intro e he
        obtain ⟨d,hd,heq⟩ := mem_map.mp (hp.mem_iff.mpr (mem_map_of_mem he))
        exact (hclass d hd).congr heq
      rw [Bool.eq_iff_iff,unordered_iff hclass,unordered_iff hr]
      exact ⟨hp.symm.trans,hp.trans⟩
    · have hh := Counting.perm_map_of_perm hp fun d hd e he =>
        (h d hd e (((hclass d hd).equal_iff e).mpr he)).2 digest address
      rw [if_neg (by decide),if_neg (by decide),sumDigests_perm hh]

attribute [local simp] descriptorEqual hashDescriptor

section

variable {elements : List TypeDescriptor}

theorem indistinct_named {name : Atom} {args : Option (List TypeDescriptor)} {recursive : Bool}
    (ih : ∀ c ∈ children (.named name args recursive), Indistinct ordered c) :
    Indistinct ordered (.named name args recursive) := by
  intro b hb
  cases args with
  | none =>
    simp only [descriptorEqual] at hb
    split at hb <;> simp_all
  | some args =>
    simp only [descriptorEqual] at hb
    split at hb
    · rw [and_eq_true,beq_iff_eq] at hb
      have harguments := descriptorsSame_indistinct (show ∀ c ∈ args, _ from ih) hb.2
      simp [hb.1,harguments]
    · cases hb

theorem indistinct_member {owner name : Atom} {ownerArguments memberArguments : Option (List TypeDescriptor)}
    (ih : ∀ c ∈ children (.member owner ownerArguments name memberArguments), Indistinct ordered c) :
    Indistinct ordered (.member owner ownerArguments name memberArguments) := by
  intro b hb
  cases ownerArguments <;> cases memberArguments <;>
    simp only [children,mem_append,or_imp,forall_and,Option.getD_some,Option.getD_none] at ih <;>
    simp only [descriptorEqual] at hb <;> split at hb <;>
    simp only [and_eq_true,beq_iff_eq,reduceCtorEq] at hb
  · simp [hb]
  · have harguments := descriptorsSame_indistinct ih.2 hb.2
    simp [hb.1,harguments]
  · have howner := descriptorsSame_indistinct ih.1 hb.1.2
    simp [hb.1.1,hb.2,howner]
  · have howner := descriptorsSame_indistinct ih.1 hb.1.1.2
    have harguments := descriptorsSame_indistinct ih.2 hb.2
    simp [hb.1.1.1,hb.1.2,howner,harguments]

theorem indistinct_vector {element : Option TypeDescriptor}
    (ih : ∀ c ∈ children (.vector element), Indistinct ordered c) :
    Indistinct ordered (.vector element) := by
  intro b hb
  cases element with
  | none =>
    simp only [descriptorEqual] at hb
    split at hb <;> simp_all
  | some element =>
    simp only [descriptorEqual] at hb
    split at hb
    · have helement := ih element (by simp [children]) _ hb
      simp [helement]
    · cases hb

theorem indistinct_vectorShape {rest : Option TypeDescriptor}
    (ih : ∀ c ∈ children (.vectorShape elements rest), Indistinct ordered c) :
    Indistinct ordered (.vectorShape elements rest) := by
  intro b hb
  simp only [children,mem_append,or_imp,forall_and] at ih
  cases rest with
  | none =>
    simp only [descriptorEqual] at hb
    split at hb
    · have helements := descriptorsSame_indistinct ih.1 hb
      simp [helements]
    · cases hb
  | some rest =>
    simp only [descriptorEqual] at hb
    split at hb
    · rw [and_eq_true] at hb
      have helements := descriptorsSame_indistinct ih.1 hb.1
      have hrest := ih.2 rest (by simp) _ hb.2
      simp [helements,hrest]
    · cases hb

theorem indistinct_tupleRest {rest : TypeDescriptor}
    (ih : ∀ c ∈ children (.tupleRest elements rest), Indistinct ordered c) :
    Indistinct ordered (.tupleRest elements rest) := by
  intro b hb
  simp only [children,mem_append,or_imp,forall_and] at ih
  simp only [descriptorEqual] at hb
  split at hb
  · rw [and_eq_true] at hb
    have helements := descriptorsSame_indistinct ih.1 hb.1
    have hrest := ih.2 rest (by simp) _ hb.2
    simp [helements,hrest]
  · cases hb

theorem indistinct_dictionaryShape {entries : List (ShapeKey × TypeDescriptor)}
    {rest : Option (TypeDescriptor × TypeDescriptor)}
    (ih : ∀ c ∈ children (.dictionaryShape entries rest), Indistinct ordered c) :
    Indistinct ordered (.dictionaryShape entries rest) := by
  intro b hb
  have hentries : ∀ e ∈ entries, Indistinct ordered e.2 := fun e he => ih e.2 (mem_append_left _ (mem_map_of_mem he))
  rcases rest with - | ⟨key,value⟩
  · simp only [descriptorEqual] at hb
    split at hb
    · have hsame := entriesSame_indistinct hentries hb
      simp [hsame]
    · cases hb
  · simp only [descriptorEqual] at hb
    split at hb
    · simp only [and_eq_true] at hb
      have hsame := entriesSame_indistinct hentries hb.1
      have hkey := ih key (by simp [children,pairChildren]) _ hb.2.1
      have hvalue := ih value (by simp [children,pairChildren]) _ hb.2.2
      simp [hsame,hkey,hvalue]
    · cases hb

theorem indistinct_callable {signature : Option (List (TypeDescriptor × Bool) × TypeDescriptor)}
    (ih : ∀ c ∈ children (.callable signature), Indistinct ordered c) : Indistinct ordered (.callable signature) := by
  intro b hb
  rcases signature with - | ⟨params,result⟩
  · simp only [descriptorEqual] at hb
    split at hb <;> simp_all
  simp only [descriptorEqual] at hb
  split at hb
  · rw [and_eq_true] at hb
    have hparameters := parametersSame_indistinct
      (fun e he => ih e.1 (mem_append_left _ (mem_map_of_mem he))) hb.1
    have hresult := ih result (by simp [children]) _ hb.2
    simp [hparameters,hresult]
  · cases hb

end

/-- By induction over the members: equal descriptors are of one class and write the same. -/
theorem indistinct (d : TypeDescriptor) : Indistinct ordered d := by
  induction d using TypeDescriptor.induction with
  | h d ih =>
    cases d with
    | named => exact indistinct_named ih
    | member => exact indistinct_member ih
    | vector => exact indistinct_vector ih
    | vectorShape => exact indistinct_vectorShape ih
    | tupleRest => exact indistinct_tupleRest ih
    | dictionaryShape => exact indistinct_dictionaryShape ih
    | callable => exact indistinct_callable ih
    | array args | dictionary args =>
      intro b hb
      rcases args with - | ⟨key,value⟩
      · simp only [descriptorEqual] at hb
        split at hb <;> simp_all
      simp only [descriptorEqual] at hb
      split at hb
      · rw [and_eq_true] at hb
        have hkey := ih key (by simp [children,pairChildren]) _ hb.1
        have hvalue := ih value (by simp [children,pairChildren]) _ hb.2
        simp [hkey,hvalue]
      · cases hb
    | objectShape =>
      intro b hb
      simp only [descriptorEqual] at hb
      split at hb
      · rw [and_eq_true,beq_iff_eq] at hb
        have hslots := slotsSame_indistinct (fun e he => ih e.2 (mem_map_of_mem he)) hb.2
        simp [hb.1,hslots]
      · cases hb
    | tuple members =>
      intro b hb
      simp only [descriptorEqual] at hb
      split at hb
      · have hmembers := descriptorsSame_indistinct (show ∀ c ∈ members, _ from ih) hb
        simp [hmembers]
      · cases hb
    | union members | intersection members =>
      intro b hb
      simp only [descriptorEqual] at hb
      split at hb
      · obtain ⟨hclass,hlen,hh⟩ := members_indistinct (show ∀ c ∈ members, _ from ih) hb
        refine ⟨by simp only [descriptorEqual,hclass],fun digest address => ?_⟩
        simp only [hashDescriptor,hlen,hh]
      · cases hb
    | classname inner | negated inner =>
      intro b hb
      simp only [descriptorEqual] at hb
      split at hb
      · have hinner := ih inner (by simp [children]) _ hb
        simp [hinner]
      · cases hb
    | _ =>
      intro b hb
      simp only [descriptorEqual] at hb
      split at hb <;> simp_all

/-- Equal descriptors write the same. -/
theorem hashesAlike {digest : List HashWrite → UInt64} {address : Atom → ℕ} (d : TypeDescriptor) :
    HashesAlike digest address ordered d :=
  fun b hb => (indistinct d b hb).2 digest address

theorem descriptorEqual_iff {a b : TypeDescriptor} : descriptorEqual ordered a b ↔
    descriptorEqual ordered a = descriptorEqual ordered b := (indistinct a).classOf.equal_iff b

theorem descriptorEqual_equivalence : Equivalence fun a b => descriptorEqual ordered a b where
  refl := descriptorEqual_refl
  symm h := descriptorEqual_iff.mpr (descriptorEqual_iff.mp h).symm
  trans h h' := descriptorEqual_iff.mpr ((descriptorEqual_iff.mp h).trans (descriptorEqual_iff.mp h'))

end
end Whim.TypeDescriptor
