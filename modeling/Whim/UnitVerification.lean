import Whim.Verify
import Whim.Validation

/-!
# Verification of a compiled unit

The walk of `verify_unit` does not reach the defaults and attributes of parameters, nor any attribute below a file or a
class.
-/

namespace Whim.Verify

open Validation List

inductive ConstantInitializer
  | literal (value : Literal)
  | thunk (chunk : Chunk)

structure CompiledAttribute where
  arguments : List ConstantInitializer
  namedArguments : List (Atom × ConstantInitializer)

structure CompiledParameter where
  default : Option ConstantInitializer
  attributes : List CompiledAttribute

structure CompiledFunction where
  parameters : List CompiledParameter
  attributes : List CompiledAttribute
  chunk : Chunk

structure CompiledClassConstant where
  initializer : ConstantInitializer
  attributes : List CompiledAttribute

structure CompiledProperty where
  default : Option ConstantInitializer
  attributes : List CompiledAttribute

structure CompiledMethod where
  function : CompiledFunction

structure CompiledEnumCase where
  value : Option ConstantInitializer
  attributes : List CompiledAttribute

structure CompiledClassLike where
  constants : List CompiledClassConstant
  properties : List CompiledProperty
  methods : List CompiledMethod
  cases : List CompiledEnumCase
  attributes : List CompiledAttribute

structure CompiledConstant where
  attributes : List CompiledAttribute
  initializer : ConstantInitializer

structure CompiledTypeAlias where
  attributes : List CompiledAttribute

structure CompiledNewtype where
  attributes : List CompiledAttribute

structure CompiledFile where
  attributes : List CompiledAttribute

structure CompiledUnit where
  files : List CompiledFile
  main : Chunk
  functions : List CompiledFunction
  classes : List CompiledClassLike
  constants : List CompiledConstant
  typeAliases : List CompiledTypeAlias
  newtypes : List CompiledNewtype

/-! ## Verification -/

section

variable (xxh3 : List UInt8 → UInt64)

def verifyInitializer : ConstantInitializer → Result Unit
  | .literal _ => .ok ()
  | .thunk chunk => verify xxh3 chunk

/-- The loop over the arguments of attributes, which the source has once for files and once for classes. -/
def verifyAttributes (attributes : List CompiledAttribute) : Result Unit :=
  attributes.forM fun entry => do
    entry.arguments.forM (verifyInitializer xxh3)
    entry.namedArguments.forM fun (_,argument) => verifyInitializer xxh3 argument

def verifyFunction (function : CompiledFunction) : Result Unit := verify xxh3 function.chunk

def verifyClass (class_ : CompiledClassLike) : Result Unit := do
  class_.constants.forM fun constant => verifyInitializer xxh3 constant.initializer
  class_.properties.forM fun property => property.default.forM (verifyInitializer xxh3)
  class_.methods.forM fun method => verifyFunction xxh3 method.function
  class_.cases.forM fun case_ => case_.value.forM (verifyInitializer xxh3)
  verifyAttributes xxh3 class_.attributes

def verifyUnit (unit : CompiledUnit) : Result Unit := do
  unit.files.forM fun file => verifyAttributes xxh3 file.attributes
  verify xxh3 unit.main
  unit.functions.forM (verifyFunction xxh3)
  unit.classes.forM (verifyClass xxh3)
  unit.constants.forM fun constant => verifyInitializer xxh3 constant.initializer

end

/-! ## The chunks of a unit -/

def ConstantInitializer.chunks : ConstantInitializer → List Chunk
  | .literal _ => []
  | .thunk chunk => [chunk]

def attributeChunks (attributes : List CompiledAttribute) : List Chunk :=
  attributes.flatMap fun entry =>
    (entry.arguments++entry.namedArguments.map Prod.snd).flatMap ConstantInitializer.chunks

def CompiledParameter.chunks (parameter : CompiledParameter) : List Chunk :=
  parameter.default.toList.flatMap ConstantInitializer.chunks++attributeChunks parameter.attributes

/-- What stands around the body of a function. -/
def CompiledFunction.headChunks (function : CompiledFunction) : List Chunk :=
  function.parameters.flatMap CompiledParameter.chunks++attributeChunks function.attributes

def CompiledClassLike.chunks (class_ : CompiledClassLike) : List Chunk :=
  class_.constants.flatMap (fun constant => constant.initializer.chunks++attributeChunks constant.attributes) ++
  class_.properties.flatMap (fun property =>
    property.default.toList.flatMap ConstantInitializer.chunks++attributeChunks property.attributes) ++
  class_.methods.flatMap (fun method => method.function.chunk::method.function.headChunks) ++
  class_.cases.flatMap (fun case_ =>
    case_.value.toList.flatMap ConstantInitializer.chunks++attributeChunks case_.attributes) ++
  attributeChunks class_.attributes

/-- Every chunk contained anywhere in the unit. -/
def CompiledUnit.chunks (unit : CompiledUnit) : List Chunk :=
  unit.files.flatMap (fun file => attributeChunks file.attributes)++unit.main::
  (unit.functions.flatMap (fun function => function.chunk::function.headChunks) ++
  unit.classes.flatMap CompiledClassLike.chunks ++
  unit.constants.flatMap (fun constant => constant.initializer.chunks++attributeChunks constant.attributes) ++
  unit.typeAliases.flatMap (fun declared => attributeChunks declared.attributes) ++
  unit.newtypes.flatMap (fun newtype => attributeChunks newtype.attributes))

/-- The chunks of a class that `verify_class` does not reach. -/
def CompiledClassLike.unvisited (class_ : CompiledClassLike) : List Chunk :=
  class_.constants.flatMap (fun constant => attributeChunks constant.attributes) ++
  class_.properties.flatMap (fun property => attributeChunks property.attributes) ++
  class_.methods.flatMap (fun method => method.function.headChunks) ++
  class_.cases.flatMap (fun case_ => attributeChunks case_.attributes)

/-- The chunks that `verify_unit` does not reach: defaults and attributes of parameters, attributes of functions,
methods, class constants, properties, enum cases, global constants, type aliases and newtypes. -/
def CompiledUnit.unvisited (unit : CompiledUnit) : List Chunk :=
  unit.functions.flatMap CompiledFunction.headChunks++unit.classes.flatMap CompiledClassLike.unvisited ++
  unit.constants.flatMap (fun constant => attributeChunks constant.attributes) ++
  unit.typeAliases.flatMap (fun declared => attributeChunks declared.attributes) ++
  unit.newtypes.flatMap (fun newtype => attributeChunks newtype.attributes)

/-! ## What the walk covers -/

section

variable (xxh3 : List UInt8 → UInt64)

/-- Every chunk of the list is accepted. -/
def Accepted (chunks : List Chunk) : Prop := ∀ chunk ∈ chunks, verify xxh3 chunk = .ok ()

variable {xxh3} {α : Type} {as bs : List Chunk}

@[simp] theorem accepted_nil : Accepted xxh3 [] := forall_mem_nil _

@[simp] theorem accepted_cons {c : Chunk} :
    Accepted xxh3 (c::as) ↔ verify xxh3 c = .ok () ∧ Accepted xxh3 as := forall_mem_cons

@[simp] theorem accepted_append : Accepted xxh3 (as++bs) ↔ Accepted xxh3 as ∧ Accepted xxh3 bs := forall_mem_append

@[simp] theorem accepted_flatMap {xs : List α} {f : α → List Chunk} :
    Accepted xxh3 (xs.flatMap f) ↔ ∀ x ∈ xs, Accepted xxh3 (f x) := forall_mem_flatMap

@[simp] theorem verifyInitializer_ok {i : ConstantInitializer} :
    verifyInitializer xxh3 i = .ok () ↔ Accepted xxh3 i.chunks := by
  cases i <;> simp [verifyInitializer,ConstantInitializer.chunks]

@[simp] theorem verifyDefault_ok {initializer : Option ConstantInitializer} :
    initializer.forM (verifyInitializer xxh3) = .ok () ↔ ∀ i ∈ initializer, Accepted xxh3 i.chunks := by
  cases initializer with
  | none => simp [Option.forM,pure,Except.pure]
  | some => simp [Option.forM]

@[simp] theorem verifyAttributes_ok {attributes : List CompiledAttribute} :
    verifyAttributes xxh3 attributes = .ok () ↔ Accepted xxh3 (attributeChunks attributes) := by
  simp only [verifyAttributes,attributeChunks,forM_eq_forM,forM_eq_ok,bind_eq_ok,
    exists_unit_eq_ok,exists_and_right,verifyInitializer_ok,accepted_flatMap,forall_mem_append,
    forall_mem_map]

theorem verifyClass_covers {class_ : CompiledClassLike} (h : verifyClass xxh3 class_ = .ok ()) :
    Accepted xxh3 class_.chunks ↔ Accepted xxh3 class_.unvisited := by
  simp only [verifyClass,verifyFunction,forM_eq_forM,forM_eq_ok,bind_eq_ok,
    exists_unit_eq_ok,exists_and_right,verifyInitializer_ok,verifyDefault_ok,verifyAttributes_ok] at h
  obtain ⟨hconstants,hproperties,hmethods,hcases,hattributes⟩ := h
  simp only [CompiledClassLike.chunks,CompiledClassLike.unvisited,accepted_append,accepted_flatMap,accepted_cons,
    Option.mem_toList,forall_and,hattributes,and_true]
  tauto

/-- On an accepted unit every chunk is accepted exactly when those are that the walk does not reach. -/
theorem verifyUnit_covers_iff (xxh3 : List UInt8 → UInt64) (unit : CompiledUnit) (h : verifyUnit xxh3 unit = .ok ()) :
    (∀ chunk ∈ unit.chunks, verify xxh3 chunk = .ok ()) ↔ ∀ chunk ∈ unit.unvisited, verify xxh3 chunk = .ok () := by
  simp only [verifyUnit,verifyFunction,forM_eq_forM,forM_eq_ok,bind_eq_ok,
    exists_unit_eq_ok,exists_and_right,verifyInitializer_ok,verifyAttributes_ok] at h
  obtain ⟨hfiles,hmain,hfunctions,hclasses,hconstants⟩ := h
  show Accepted xxh3 unit.chunks ↔ Accepted xxh3 unit.unvisited
  have hcovers : (∀ class_ ∈ unit.classes, Accepted xxh3 class_.chunks) ↔
      ∀ class_ ∈ unit.classes, Accepted xxh3 class_.unvisited :=
    forall₂_congr fun class_ hclass => verifyClass_covers (hclasses class_ hclass)
  simp only [CompiledUnit.chunks,CompiledUnit.unvisited,accepted_append,accepted_flatMap,accepted_cons,
    forall_and,hmain,hcovers,true_and]
  tauto

/-- An attribute of a global constant with a thunk that is no code. -/
def unitWithAttribute (thunk : Chunk) : CompiledUnit where
  files := []
  main := chunkOf [.returnNull] (by decide)
  functions := []
  classes := []
  constants := [⟨[⟨[.thunk thunk],[]⟩],.literal .null⟩]
  typeAliases := []
  newtypes := []

theorem verifyUnit_covers_iff_attribute :
    verifyUnit (fun _ => 0) (unitWithAttribute (chunkOf [.returnNull] (by decide))) = .ok () ∧
    ∀ chunk ∈ (unitWithAttribute (chunkOf [.returnNull] (by decide))).chunks, verify (fun _ => 0) chunk = .ok () :=
  ⟨rfl,(verifyUnit_covers_iff (fun _ => 0) _ rfl).mpr fun _ hchunk => by
    cases mem_singleton.mp hchunk
    rfl⟩

/-- The unit is accepted whatever the thunk is. -/
theorem unit_accepted_with_empty_thunk :
    verifyUnit (fun _ => 0) (unitWithAttribute (chunkOf [] (by decide))) = .ok () ∧
    ¬∀ chunk ∈ (unitWithAttribute (chunkOf [] (by decide))).chunks, verify (fun _ => 0) chunk = .ok () := by
  refine ⟨rfl,fun h => ?_⟩
  cases h (chunkOf [] (by decide)) (.tail _ (.head _))

end

end Whim.Verify
