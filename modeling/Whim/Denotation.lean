import Whim.Shape
import Whim.TypeCheck

/-!
# What types mean

A type denotes a set of values: those with the shape it names. What a class or alias denotes is up to the tables.
-/

namespace Whim

open OrderedMap Shape TypeCheck List

/-- The entries of an array: the positions of a vec or tuple are its keys. -/
def Value.arrayEntries (v : Value) : Option (List (Value × Value)) :=
  match v.asVec, v.asDict, v.asTuple with
  | some xs, _, _ => some (xs.zipIdx.map fun (x,i) => (.uint (UInt64.ofNat i),x))
  | _, some d, _ => some (d.map fun (k,x) => (k.toValue,x))
  | _, _, some xs => some (xs.zipIdx.map fun (x,i) => (.uint (UInt64.ofNat i),x))
  | _, _, _ => none

/-- A string whose length is no `i64`. -/
def longString : Value := .mk (.string ⟨List.replicate (2 ^ 63) 0,by rw [length_replicate]; decide⟩) none

theorem longString_len : longString.asStringLen = some (2 ^ 63) := congrArg some length_replicate

namespace TypeDescriptor

section

variable (tables : Tables)

mutual

def Denotes : TypeDescriptor → Value → Prop
  | wildcard | mixed => fun _ => True
  | void | never => fun _ => False
  | null => fun v => v.isNull
  | bool => fun v => v.asBool.isSome
  | int => fun v => v.asInt.isSome
  | uint => fun v => v.asUint.isSome
  | fresh => fun v => v.isFresh
  | float => fun v => v.asFloat.isSome
  | string => fun v => v.asStringBytes.isSome
  | stringLength min max => fun v => ∃ n, v.asStringLen = some n ∧ stringLengthMatches n min max
  | object => fun v => v.asObject.isSome
  | trueLiteral => fun v => v.asBool = some true
  | falseLiteral => fun v => v.asBool = some false
  | intLiteral value => fun v => v.asInt = some value
  | intRange min max => fun v => ∃ n, v.asInt = some n ∧ inRange n min max
  | uintLiteral value => fun v => v.asUint = some value
  | uintRange min max => fun v => ∃ n, v.asUint = some n ∧ inRange n min max
  | floatLiteral value => fun v => ∃ x, v.asFloat = some x ∧ x.eq value
  | stringLiteral value => fun v => v.asStringBytes = some value.bytes
  | array none => fun v => v.arrayEntries.isSome
  | array (some (key,element)) => fun v =>
    ∃ entries, v.arrayEntries = some entries ∧ ∀ e ∈ entries, Denotes key e.1 ∧ Denotes element e.2
  | vector none => fun v => v.asVec.isSome
  | vector (some element) => fun v => ∃ xs, v.asVec = some xs ∧ ∀ x ∈ xs, Denotes element x
  | vectorShape elements none => fun v => ∃ xs, v.asVec = some xs ∧ Fits (denotations elements) none xs
  | vectorShape elements (some rest) => fun v =>
    ∃ xs, v.asVec = some xs ∧ Fits (denotations elements) (some (Denotes rest)) xs
  | dictionary none => fun v => v.asDict.isSome
  | dictionary (some (key,element)) => fun v =>
    ∃ d, v.asDict = some d ∧ ∀ e ∈ d, Denotes key e.1.toValue ∧ Denotes element e.2
  | dictionaryShape entries none => fun v => ∃ d, v.asDict = some d ∧ FitsKeys (entryDenotations entries) none d
  | dictionaryShape entries (some (key,element)) => fun v =>
    ∃ d, v.asDict = some d ∧
      FitsKeys (entryDenotations entries) (some (fun k => Denotes key k.toValue,Denotes element)) d
  | callable none => fun v => v.isFunction
  | tuple elements => fun v => ∃ xs, v.asTuple = some xs ∧ Fits (denotations elements) none xs
  | tupleRest elements rest => fun v =>
    ∃ xs, v.asTuple = some xs ∧ Fits (denotations elements) (some (Denotes rest)) xs
  | tupleAny => fun v => v.asTuple.isSome
  | union members => fun v => ∃ P ∈ denotations members, P v
  | intersection members => fun v => ∀ P ∈ denotations members, P v
  | negated inner => fun v => ¬Denotes inner v
  | objectShape entries isOpen => fun v =>
    ∃ address, v.asObject = some address ∧
      (isOpen = false → (tables.objects address).publicCount = entries.length) ∧
      ∀ f ∈ slotDenotations entries, ∃ x, (tables.objects address).publicSlot f.1 = some x ∧
        x.isUninitialized = false ∧ f.2 x
  | named name arguments recursive => fun v => tables.checkNominal (named name arguments recursive) v 0
  | member owner ownerArguments name memberArguments => fun v =>
    tables.checkNominal (member owner ownerArguments name memberArguments) v 0
  | parameter name => fun v => tables.checkNominal (parameter name) v 0
  | staticClass => fun v => tables.checkNominal staticClass v 0
  | callable (some signature) => fun v => tables.checkNominal (callable (some signature)) v 0
  | classname target => fun v => tables.checkNominal (classname target) v 0

def denotations : List TypeDescriptor → List (Value → Prop)
  | [] => []
  | d::ds => Denotes d::denotations ds

def entryDenotations : List (ShapeKey × TypeDescriptor) → List (Key × (Value → Prop))
  | [] => []
  | (key,d)::entries => (key.toKey,Denotes d)::entryDenotations entries

def slotDenotations : List (Atom × TypeDescriptor) → List (Atom × (Value → Prop))
  | [] => []
  | (name,d)::entries => (name,Denotes d)::slotDenotations entries

end

variable {tables}

attribute [local simp] Denotes

theorem denotations_eq (ds : List TypeDescriptor) : denotations tables ds = ds.map (Denotes tables) := by
  induction ds with
  | nil => rw [denotations,map_nil]
  | cons _ _ ih => rw [denotations,ih,map_cons]

theorem entryDenotations_eq (es : List (ShapeKey × TypeDescriptor)) :
    entryDenotations tables es = es.map fun e => (e.1.toKey,Denotes tables e.2) := by
  induction es with
  | nil => rw [entryDenotations,map_nil]
  | cons _ _ ih => rw [entryDenotations,ih,map_cons]

theorem slotDenotations_eq (es : List (Atom × TypeDescriptor)) :
    slotDenotations tables es = es.map fun e => (e.1,Denotes tables e.2) := by
  induction es with
  | nil => rw [slotDenotations,map_nil]
  | cons _ _ ih => rw [slotDenotations,ih,map_cons]

section

variable {v : Value} {members elements : List TypeDescriptor} {pair : TypeDescriptor × TypeDescriptor}
  {rest : Option TypeDescriptor}

theorem denotes_union : Denotes tables (union members) v ↔ ∃ d ∈ members, Denotes tables d v := by
  simp [denotations_eq]

theorem denotes_intersection : Denotes tables (intersection members) v ↔ ∀ d ∈ members, Denotes tables d v := by
  simp [denotations_eq]

theorem denotes_array : Denotes tables (array (some pair)) v ↔ ∃ es, v.arrayEntries = some es ∧
    ∀ e ∈ es, Denotes tables pair.1 e.1 ∧ Denotes tables pair.2 e.2 := by
  simp

theorem denotes_dictionary : Denotes tables (dictionary (some pair)) v ↔ ∃ d, v.asDict = some d ∧
    ∀ e ∈ d, Denotes tables pair.1 e.1.toValue ∧ Denotes tables pair.2 e.2 := by
  simp

theorem denotes_vectorShape : Denotes tables (vectorShape elements rest) v ↔ ∃ xs, v.asVec = some xs ∧
    Fits (elements.map (Denotes tables)) (rest.map (Denotes tables)) xs := by
  cases rest <;> simp [denotations_eq]

end

end

end TypeDescriptor
end Whim
