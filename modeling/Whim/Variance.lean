import Whim.Substitution

/-!
# Declared variance

`incompatible_parameter` walks a descriptor with a worklist of positions and returns a parameter that stands where its
declared variance does not allow it.
-/

namespace Whim

open List

inductive Variance
  | invariant | covariant | contravariant
  deriving DecidableEq

def Variance.nestedPolarity (polarity : ℤ) : Variance → ℤ
  | .invariant => 0
  | .covariant => polarity
  | .contravariant => -polarity

structure CompiledTypeParameter where
  name : Atom
  variance : Variance
  deriving DecidableEq

def CompiledTypeParameter.validAt (parameter : CompiledTypeParameter) (position : ℤ) : Bool :=
  match parameter.variance with
  | .invariant => true
  | .covariant => position == 1
  | .contravariant => position == -1

namespace TypeDescriptor

/-- The number of descriptors in a descriptor, itself included. -/
def nodes (d : TypeDescriptor) : ℕ := 1+(d.children.attach.map fun c => nodes c.1).sum
termination_by sizeOf d
decreasing_by exact sizeOf_lt_of_mem_children c.2

theorem nodes_eq (d : TypeDescriptor) : d.nodes = 1+(d.children.map nodes).sum := by
  rw [nodes,attach_map_val]

end TypeDescriptor

namespace Variance

open TypeDescriptor (children pairChildren nodes nodes_eq)

variable (namedVariance : Atom → ℕ → Option Variance) (parameters : List CompiledTypeParameter)

/-- The positions that a descriptor adds to the worklist. -/
def pushes (position : ℤ) : TypeDescriptor → List (TypeDescriptor × ℤ)
  | .named name (some arguments) _ =>
    arguments.zipIdx.filterMap fun argument =>
      (namedVariance name argument.2).map fun variance => (argument.1,variance.nestedPolarity position)
  | .array (some (key,value)) | .dictionary (some (key,value)) => [(key,position),(value,position)]
  | .vector (some element) => [(element,position)]
  | .vectorShape elements rest => (elements++rest.toList).map fun d => (d,position)
  | .objectShape entries _ => (entries.map (·.2)).map fun d => (d,position)
  | .dictionaryShape entries rest => (entries.map (·.2)++pairChildren rest).map fun d => (d,position)
  | .callable (some (parameters,result)) =>
    (result,position)::(parameters.map (·.1)).map fun d => (d,-position)
  | .classname inner => [(inner,position)]
  | .negated inner => [(inner,-position)]
  | .tupleRest elements rest => (elements++[rest]).map fun d => (d,position)
  | .tuple members | .union members | .intersection members => members.map fun d => (d,position)
  | _ => []

theorem sum_filterMap_zipIdx_le {args : List TypeDescriptor} {f : ℕ → Option Variance} {p : ℤ} (k : ℕ) :
    (((args.zipIdx k).filterMap fun a => (f a.2).map fun v =>
      (a.1,v.nestedPolarity p)).map fun e => e.1.nodes).sum ≤ (args.map nodes).sum := by
  induction args generalizing k with
  | nil => simp
  | cons _ _ ih =>
    have := ih (k+1)
    cases h : f k <;> simp [h] <;> omega

/-- The worklist gets smaller with every step. -/
theorem sum_pushes_lt (p : ℤ) (d : TypeDescriptor) :
    ((pushes namedVariance p d).map fun e => e.1.nodes).sum < d.nodes := by
  rw [nodes_eq d]
  unfold pushes
  split
  case h_1 => exact Nat.lt_one_add_iff.mpr (sum_filterMap_zipIdx_le 0)
  all_goals simp [children,pairChildren,Function.comp_def]
  omega

/-- The parameter at a position that its variance does not allow. -/
def rejected (position : ℤ) : TypeDescriptor → Option CompiledTypeParameter
  | .parameter name =>
    (parameters.find? fun parameter => parameter.name = name).filter fun parameter => !parameter.validAt position
  | _ => none

/-- The loop over the worklist, whose last entry is taken first. -/
def incompatibleLoop : List (TypeDescriptor × ℤ) → Option CompiledTypeParameter
  | [] => none
  | (current,position)::pending =>
    match rejected parameters position current with
    | some parameter => some parameter
    | none => incompatibleLoop ((pushes namedVariance position current).reverse++pending)
termination_by pending => (pending.map fun e => e.1.nodes).sum
decreasing_by
  have := sum_pushes_lt namedVariance position current
  simp
  omega

def incompatibleParameter (descriptor : TypeDescriptor) (polarity : ℤ) : Option CompiledTypeParameter :=
  incompatibleLoop namedVariance parameters [(descriptor,polarity)]

variable {namedVariance parameters}

theorem incompatibleLoop_append (ps rest : List (TypeDescriptor × ℤ)) :
    incompatibleLoop namedVariance parameters (ps++rest) = none ↔
      incompatibleLoop namedVariance parameters ps = none ∧
        incompatibleLoop namedVariance parameters rest = none := by
  fun_induction incompatibleLoop namedVariance parameters ps with
  | case1 => simp
  | case2 _ _ _ _ h =>
    rw [cons_append,incompatibleLoop,h]
    simp
  | case3 _ _ _ h ih =>
    rw [cons_append,incompatibleLoop,h]
    simpa using ih

/-- Nothing is rejected on a worklist exactly when nothing is on each of its entries. -/
theorem incompatibleLoop_eq_none (ps : List (TypeDescriptor × ℤ)) :
    incompatibleLoop namedVariance parameters ps = none ↔
      ∀ e ∈ ps, incompatibleParameter namedVariance parameters e.1 e.2 = none := by
  induction ps with
  | nil => simp [incompatibleLoop]
  | cons _ _ ih =>
    rw [← singleton_append,incompatibleLoop_append,ih,singleton_append,forall_mem_cons]
    rfl

theorem incompatibleParameter_eq_none (d : TypeDescriptor) (p : ℤ) :
    incompatibleParameter namedVariance parameters d p = none ↔
      rejected parameters p d = none ∧ ∀ e ∈ pushes namedVariance p d,
        incompatibleParameter namedVariance parameters e.1 e.2 = none := by
  rw [incompatibleParameter,incompatibleLoop]
  cases rejected parameters p d with
  | none => simp [incompatibleLoop_eq_none]
  | some => simp

end Variance
end Whim
