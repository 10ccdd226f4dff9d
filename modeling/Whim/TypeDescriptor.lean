import Whim.Value

/-!
# Type descriptors

The runtime form of types, and which of them are checked without looking at the class tables.
-/

namespace Whim

open List

/-- An interned string. Atoms of one heap are equal exactly when their bytes are. -/
abbrev Atom := ByteString

inductive ShapeKey
  | int (value : Int64)
  | uint (value : UInt64)
  | string (value : Atom)
  | bool (value : Bool)
  deriving DecidableEq

/-- A signature is its parameters, each with its `optional` flag, and the return type. -/
inductive TypeDescriptor
  | wildcard | mixed | void | never | null | bool | int | uint | float | string
  | stringLength (min : Int64) (max : Option Int64)
  | object | trueLiteral | falseLiteral
  | intLiteral (value : Int64)
  | uintLiteral (value : UInt64)
  | uintRange (min max : Option UInt64)
  | intRange (min max : Option Int64)
  | floatLiteral (value : F64)
  | stringLiteral (value : Atom)
  | named (name : Atom) (arguments : Option (List TypeDescriptor)) (recursive : Bool)
  | member (owner : Atom) (ownerArguments : Option (List TypeDescriptor)) (name : Atom)
      (memberArguments : Option (List TypeDescriptor))
  | parameter (name : Atom)
  | staticClass
  | array (arguments : Option (TypeDescriptor × TypeDescriptor))
  | vector (element : Option TypeDescriptor)
  | vectorShape (elements : List TypeDescriptor) (rest : Option TypeDescriptor)
  | dictionary (arguments : Option (TypeDescriptor × TypeDescriptor))
  | dictionaryShape (entries : List (ShapeKey × TypeDescriptor))
      (rest : Option (TypeDescriptor × TypeDescriptor))
  | callable (signature : Option (List (TypeDescriptor × Bool) × TypeDescriptor))
  | classname (target : TypeDescriptor)
  | tuple (elements : List TypeDescriptor)
  | tupleRest (elements : List TypeDescriptor) (rest : TypeDescriptor)
  | tupleAny
  | union (members : List TypeDescriptor)
  | intersection (members : List TypeDescriptor)
  | negated (element : TypeDescriptor)
  | objectShape (entries : List (Atom × TypeDescriptor)) (isOpen : Bool)
  | fresh

namespace TypeDescriptor

def isWildcard : TypeDescriptor → Bool
  | wildcard => true
  | _ => false

mutual

/-- `descriptor_is_trivial`. -/
def isTrivial : TypeDescriptor → Bool
  | wildcard | mixed | void | never | null | bool | int | uint | fresh | float | string => true
  | stringLength _ _ | object | trueLiteral | falseLiteral => true
  | intLiteral _ | intRange _ _ | uintLiteral _ | uintRange _ _ | floatLiteral _ | stringLiteral _ => true
  | array none | vector none | dictionary none | callable none | tupleAny => true
  | array (some (key,value)) | dictionary (some (key,value)) => key.isWildcard && value.isWildcard
  | vector (some element) => element.isWildcard
  | negated element => element.isTrivial
  | vectorShape elements none => allTrivial elements
  | vectorShape elements (some rest) => allTrivial elements && rest.isTrivial
  | dictionaryShape entries none => entriesTrivial entries
  | dictionaryShape entries (some (key,value)) => entriesTrivial entries && (key.isTrivial && value.isTrivial)
  | tuple elements | union elements | intersection elements => allTrivial elements
  | tupleRest elements rest => allTrivial elements && rest.isTrivial
  | named _ _ _ | member _ _ _ _ | parameter _ | staticClass | callable (some _) | classname _ => false
  | objectShape entries isOpen => isOpen && entries.isEmpty

def allTrivial : List TypeDescriptor → Bool
  | [] => true
  | descriptor::rest => descriptor.isTrivial && allTrivial rest

def entriesTrivial : List (ShapeKey × TypeDescriptor) → Bool
  | [] => true
  | (_,descriptor)::rest => descriptor.isTrivial && entriesTrivial rest

end

section

def pairChildren : Option (TypeDescriptor × TypeDescriptor) → List TypeDescriptor
  | some (key,value) => [key,value]
  | none => []

/-- The descriptors directly inside a descriptor. -/
def children : TypeDescriptor → List TypeDescriptor
  | named _ arguments _ => arguments.getD []
  | member _ ownerArguments _ memberArguments => ownerArguments.getD []++memberArguments.getD []
  | array arguments | dictionary arguments => pairChildren arguments
  | vector element => element.toList
  | vectorShape elements rest => elements++rest.toList
  | dictionaryShape entries rest => entries.map (·.2)++pairChildren rest
  | callable (some (parameters,result)) => parameters.map (·.1)++[result]
  | classname inner | negated inner => [inner]
  | tuple elements | union elements | intersection elements => elements
  | tupleRest elements rest => elements++[rest]
  | objectShape entries _ => entries.map (·.2)
  | _ => []

theorem sizeOf_lt_of_mem_pairs {α β : Type} [SizeOf α] [SizeOf β] {ps : List (α × β)} {b : β}
    (h : b ∈ ps.map (·.2)) : sizeOf b < sizeOf ps := by
  obtain ⟨pair,hpair,rfl⟩ := mem_map.mp h
  have hlt := sizeOf_lt_of_mem hpair
  cases pair
  simp at hlt ⊢
  omega

theorem sizeOf_lt_of_mem_firsts {α β : Type} [SizeOf α] [SizeOf β] {ps : List (α × β)} {a : α}
    (h : a ∈ ps.map (·.1)) : sizeOf a < sizeOf ps := by
  obtain ⟨pair,hpair,rfl⟩ := mem_map.mp h
  have hlt := sizeOf_lt_of_mem hpair
  cases pair
  simp at hlt ⊢
  omega

variable {c : TypeDescriptor}

theorem sizeOf_lt_of_mem_pairChildren {pair : Option (TypeDescriptor × TypeDescriptor)}
    (h : c ∈ pairChildren pair) : sizeOf c < sizeOf pair := by
  cases pair with
  | none => cases h
  | some pair =>
    simp only [pairChildren,mem_cons,not_mem_nil,or_false] at h
    cases pair
    obtain rfl | rfl := h <;> (simp; omega)

theorem sizeOf_lt_of_mem_getD {args : Option (List TypeDescriptor)}
    (h : c ∈ args.getD []) : sizeOf c < sizeOf args := by
  cases args with
  | none => cases h
  | some args =>
    have hlt := sizeOf_lt_of_mem (show c ∈ args from h)
    simp
    omega

theorem sizeOf_lt_of_mem_children {d : TypeDescriptor} (h : c ∈ d.children) : sizeOf c < sizeOf d := by
  cases d <;> simp only [children,mem_append,mem_singleton,Option.mem_toList,not_mem_nil] at h
  case array | dictionary =>
    have hlt := sizeOf_lt_of_mem_pairChildren h
    simp
    omega
  case vector =>
    simp [h]
    omega
  case vectorShape =>
    obtain h | h := h
    · have hlt := sizeOf_lt_of_mem h
      simp
      omega
    · simp [h]
      omega
  case dictionaryShape =>
    obtain h | h := h
    · have hlt := sizeOf_lt_of_mem_pairs h
      simp
      omega
    · have hlt := sizeOf_lt_of_mem_pairChildren h
      simp
      omega
  case named =>
    have hlt := sizeOf_lt_of_mem_getD h
    simp
    omega
  case member =>
    obtain h | h := h <;> (have hlt := sizeOf_lt_of_mem_getD h; simp; omega)
  case callable signature =>
    cases signature with
    | none => cases h
    | some signature =>
      obtain ⟨parameters,r⟩ := signature
      simp only [mem_append,mem_singleton] at h
      obtain h | h := h
      · have hlt := sizeOf_lt_of_mem_firsts h
        simp
        omega
      · simp [h]
        omega
  case classname | negated => simp [h]
  case tuple | union | intersection =>
    have hlt := sizeOf_lt_of_mem h
    simp
    omega
  case tupleRest =>
    obtain h | h := h
    · have hlt := sizeOf_lt_of_mem h
      simp
      omega
    · simp [h]
  case objectShape =>
    have hlt := sizeOf_lt_of_mem_pairs h
    simp
    omega

/-- Induction over the descriptors inside a descriptor. -/
theorem induction {P : TypeDescriptor → Prop} (h : ∀ d, (∀ c ∈ d.children, P c) → P d) (d : TypeDescriptor) : P d :=
  h d fun c _ => induction h c
termination_by sizeOf d
decreasing_by exact sizeOf_lt_of_mem_children (by assumption)

end

end TypeDescriptor
end Whim
