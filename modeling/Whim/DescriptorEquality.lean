import Whim.Counting
import Whim.TypeDescriptor

/-!
# Equality of descriptors

`descriptorEqual` ignores the order of union and intersection members, unless `ordered` is set.
-/

namespace Whim

open Counting List

/-- `shape_keys_same`. -/
def ShapeKey.same : ShapeKey → ShapeKey → Bool
  | .bool left, .bool right => left == right
  | .int left, .int right => left == right
  | .uint left, .uint right => left == right
  | .string left, .string right => left == right
  | _, _ => false

theorem ShapeKey.same_iff {left right : ShapeKey} : left.same right ↔ left = right := by
  cases left <;> cases right <;> simp [same]

namespace TypeDescriptor

section

variable (ordered : Bool)

mutual

/-- `descriptor_equal`. -/
def descriptorEqual : TypeDescriptor → TypeDescriptor → Bool
  | wildcard => fun right => (right matches wildcard)
  | mixed => fun right => (right matches mixed)
  | void => fun right => (right matches void)
  | never => fun right => (right matches never)
  | null => fun right => (right matches null)
  | bool => fun right => (right matches bool)
  | int => fun right => (right matches int)
  | uint => fun right => (right matches uint)
  | fresh => fun right => (right matches fresh)
  | float => fun right => (right matches float)
  | string => fun right => (right matches string)
  | object => fun right => (right matches object)
  | trueLiteral => fun right => (right matches trueLiteral)
  | falseLiteral => fun right => (right matches falseLiteral)
  | staticClass => fun right => (right matches staticClass)
  | tupleAny => fun right => (right matches tupleAny)
  | intLiteral left => fun
    | intLiteral right => left == right
    | _ => false
  | uintLiteral left => fun
    | uintLiteral right => left == right
    | _ => false
  | uintRange leftMin leftMax => fun
    | uintRange rightMin rightMax => leftMin == rightMin && leftMax == rightMax
    | _ => false
  | stringLength leftMin leftMax => fun
    | stringLength rightMin rightMax => leftMin == rightMin && leftMax == rightMax
    | _ => false
  | intRange leftMin leftMax => fun
    | intRange rightMin rightMax => leftMin == rightMin && leftMax == rightMax
    | _ => false
  | floatLiteral left => fun
    | floatLiteral right => left.bits == right.bits
    | _ => false
  | stringLiteral left => fun
    | stringLiteral right => left == right
    | _ => false
  | parameter left => fun
    | parameter right => left == right
    | _ => false
  | named leftName none _ => fun
    | named rightName none _ => leftName == rightName
    | _ => false
  | named leftName (some left) _ => fun
    | named rightName (some right) _ => leftName == rightName && descriptorsSame left right
    | _ => false
  | member leftOwner none leftName none => fun
    | member rightOwner none rightName none => leftOwner == rightOwner && leftName == rightName
    | _ => false
  | member leftOwner (some left) leftName none => fun
    | member rightOwner (some right) rightName none =>
      leftOwner == rightOwner && descriptorsSame left right && leftName == rightName
    | _ => false
  | member leftOwner none leftName (some left) => fun
    | member rightOwner none rightName (some right) =>
      leftOwner == rightOwner && leftName == rightName && descriptorsSame left right
    | _ => false
  | member leftOwner (some leftOwnerArguments) leftName (some left) => fun
    | member rightOwner (some rightOwnerArguments) rightName (some right) =>
      leftOwner == rightOwner && descriptorsSame leftOwnerArguments rightOwnerArguments &&
        leftName == rightName && descriptorsSame left right
    | _ => false
  | vector none => fun right => (right matches vector none)
  | vector (some left) => fun
    | vector (some right) => descriptorEqual left right
    | _ => false
  | array none => fun right => (right matches array none)
  | array (some (leftKey,leftValue)) => fun
    | array (some (rightKey,rightValue)) =>
      descriptorEqual leftKey rightKey && descriptorEqual leftValue rightValue
    | _ => false
  | vectorShape left none => fun
    | vectorShape right none => descriptorsSame left right
    | _ => false
  | vectorShape left (some leftRest) => fun
    | vectorShape right (some rightRest) => descriptorsSame left right && descriptorEqual leftRest rightRest
    | _ => false
  | dictionary none => fun right => (right matches dictionary none)
  | dictionary (some (leftKey,leftValue)) => fun
    | dictionary (some (rightKey,rightValue)) =>
      descriptorEqual leftKey rightKey && descriptorEqual leftValue rightValue
    | _ => false
  | dictionaryShape left none => fun
    | dictionaryShape right none => entriesSame left right
    | _ => false
  | dictionaryShape left (some (leftKey,leftValue)) => fun
    | dictionaryShape right (some (rightKey,rightValue)) =>
      entriesSame left right && (descriptorEqual leftKey rightKey && descriptorEqual leftValue rightValue)
    | _ => false
  | objectShape left leftOpen => fun
    | objectShape right rightOpen => leftOpen == rightOpen && slotsSame left right
    | _ => false
  | callable none => fun right => (right matches callable none)
  | callable (some (left,leftReturn)) => fun
    | callable (some (right,rightReturn)) => parametersSame left right && descriptorEqual leftReturn rightReturn
    | _ => false
  | classname left => fun
    | classname right => descriptorEqual left right
    | _ => false
  | negated left => fun
    | negated right => descriptorEqual left right
    | _ => false
  | union left => fun
    | union right =>
      descriptorsSame left right || !ordered && left.length == right.length && countsSame left left right
    | _ => false
  | intersection left => fun
    | intersection right =>
      descriptorsSame left right || !ordered && left.length == right.length && countsSame left left right
    | _ => false
  | tuple left => fun
    | tuple right => descriptorsSame left right
    | _ => false
  | tupleRest left leftRest => fun
    | tupleRest right rightRest => descriptorsSame left right && descriptorEqual leftRest rightRest
    | _ => false

/-- `descriptors_same`. -/
def descriptorsSame : List TypeDescriptor → List TypeDescriptor → Bool
  | [] => fun right => right.isEmpty
  | left::lefts => fun
    | right::rights => descriptorEqual left right && descriptorsSame lefts rights
    | [] => false

def entriesSame : List (ShapeKey × TypeDescriptor) → List (ShapeKey × TypeDescriptor) → Bool
  | [] => fun right => right.isEmpty
  | (leftKey,left)::lefts => fun
    | (rightKey,right)::rights => (leftKey.same rightKey && descriptorEqual left right) && entriesSame lefts rights
    | [] => false

def slotsSame : List (Atom × TypeDescriptor) → List (Atom × TypeDescriptor) → Bool
  | [] => fun right => right.isEmpty
  | (leftName,left)::lefts => fun
    | (rightName,right)::rights => (leftName == rightName && descriptorEqual left right) && slotsSame lefts rights
    | [] => false

def parametersSame : List (TypeDescriptor × Bool) → List (TypeDescriptor × Bool) → Bool
  | [] => fun right => right.isEmpty
  | (left,leftOptional)::lefts => fun
    | (right,rightOptional)::rights =>
      (leftOptional == rightOptional && descriptorEqual left right) && parametersSame lefts rights
    | [] => false

/-- The counting loop of `unordered_descriptors_same`, over the members still to be counted. -/
def countsSame : List TypeDescriptor → List TypeDescriptor → List TypeDescriptor → Bool
  | [] => fun _ _ => true
  | first::members => fun left right =>
    left.countP (descriptorEqual first) == right.countP (descriptorEqual first) && countsSame members left right

end

end

/-- `descriptor_same`. -/
def descriptorSame : TypeDescriptor → TypeDescriptor → Bool := descriptorEqual false

variable {ordered : Bool}

variable {left right : List TypeDescriptor}

section

theorem descriptorsSame_eq (left right : List TypeDescriptor) :
    descriptorsSame ordered left right = left.isEqv right (descriptorEqual ordered) := by
  induction left generalizing right with
  | nil => cases right <;> rfl
  | cons _ _ ih => cases right <;> simp [descriptorsSame,isEqv_cons_cons,ih]

theorem entriesSame_eq (left right : List (ShapeKey × TypeDescriptor)) :
    entriesSame ordered left right = left.isEqv right fun e f => e.1.same f.1 && descriptorEqual ordered e.2 f.2 := by
  induction left generalizing right with
  | nil => cases right <;> rfl
  | cons _ _ ih => cases right <;> simp [entriesSame,isEqv_cons_cons,ih]

theorem slotsSame_eq (left right : List (Atom × TypeDescriptor)) :
    slotsSame ordered left right = left.isEqv right fun e f => e.1 == f.1 && descriptorEqual ordered e.2 f.2 := by
  induction left generalizing right with
  | nil => cases right <;> rfl
  | cons _ _ ih => cases right <;> simp [slotsSame,isEqv_cons_cons,ih]

theorem parametersSame_eq (left right : List (TypeDescriptor × Bool)) : parametersSame ordered left right =
    left.isEqv right fun e f => e.2 == f.2 && descriptorEqual ordered e.1 f.1 := by
  induction left generalizing right with
  | nil => cases right <;> rfl
  | cons _ _ ih => cases right <;> simp [parametersSame,isEqv_cons_cons,ih]

theorem countsSame_iff {ms : List TypeDescriptor} : countsSame ordered ms left right ↔
    ∀ d ∈ ms, left.countP (descriptorEqual ordered d) = right.countP (descriptorEqual ordered d) := by
  induction ms with
  | nil => simp [countsSame]
  | cons _ _ ih => simp only [countsSame,Bool.and_eq_true,beq_iff_eq,ih,forall_mem_cons]

end

attribute [local simp] descriptorEqual children

theorem descriptorEqual_refl (d : TypeDescriptor) : descriptorEqual ordered d d := by
  induction d using TypeDescriptor.induction with
  | h d ih =>
    have hlist : ∀ {ds : List TypeDescriptor}, (∀ c ∈ ds, descriptorEqual ordered c c = true) →
        descriptorsSame ordered ds ds = true := fun h => by rw [descriptorsSame_eq]; exact isEqv_refl h
    cases d with
    | named _ args =>
      cases args with
      | none => simp
      | some args => simp [hlist (show ∀ c ∈ args, _ from ih)]
    | member _ ownerArguments _ memberArguments =>
      simp only [children,mem_append,or_imp,forall_and] at ih
      cases ownerArguments <;> cases memberArguments <;> simp_all
    | array args | dictionary args =>
      cases args with
      | none => rfl
      | some => simp_all [pairChildren]
    | vector element => cases element <;> simp_all
    | vectorShape _ rest =>
      simp only [children,mem_append,or_imp,forall_and] at ih
      cases rest <;> simp_all
    | dictionaryShape es rest =>
      have hentries : entriesSame ordered es es = true := by
        rw [entriesSame_eq]
        refine isEqv_refl fun e he => ?_
        rw [ShapeKey.same_iff.mpr rfl,Bool.true_and]
        exact ih e.2 (mem_append_left _ (mem_map_of_mem he))
      cases rest with
      | none => exact hentries
      | some => simp_all [pairChildren]
    | callable signature =>
      cases signature with
      | none => rfl
      | some signature =>
        have hparameters : parametersSame ordered signature.1 signature.1 = true := by
          rw [parametersSame_eq]
          refine isEqv_refl fun e he => ?_
          rw [beq_self_eq_true,Bool.true_and]
          exact ih e.1 (mem_append_left _ (mem_map_of_mem he))
        simp_all
    | objectShape es =>
      have hentries : slotsSame ordered es es = true := by
        rw [slotsSame_eq]
        refine isEqv_refl fun e he => ?_
        rw [beq_self_eq_true,Bool.true_and]
        exact ih e.2 (mem_map_of_mem he)
      simp [hentries]
    | tuple ms | union ms | intersection ms =>
      simp [hlist (show ∀ c ∈ ms, _ from ih)]
    | tupleRest => simp_all
    | classname inner | negated inner => exact ih inner (mem_singleton.mpr rfl)
    | _ => simp

section

/-- Descriptors that are equal to `d` are equal to the same descriptors. -/
def ClassOf (ordered : Bool) (d : TypeDescriptor) : Prop :=
  ∀ b, descriptorEqual ordered d b = true → descriptorEqual ordered d = descriptorEqual ordered b

theorem ClassOf.equal_iff {d : TypeDescriptor} (h : ClassOf ordered d) (b : TypeDescriptor) :
    descriptorEqual ordered d b ↔ descriptorEqual ordered d = descriptorEqual ordered b :=
  ⟨h b,fun heq => heq ▸ descriptorEqual_refl b⟩

theorem ClassOf.congr {d e : TypeDescriptor} (h : ClassOf ordered d)
    (heq : descriptorEqual ordered d = descriptorEqual ordered e) : ClassOf ordered e := by
  intro b hb
  rw [← heq] at hb ⊢
  exact h b hb

theorem map_eq_of_same (h : ∀ d ∈ left, ClassOf ordered d) (hsame : descriptorsSame ordered left right) :
    left.map (descriptorEqual ordered) = right.map (descriptorEqual ordered) := by
  rw [descriptorsSame_eq,isEqv_iff] at hsame
  induction hsame with
  | nil => rfl
  | cons hd _ ih =>
    obtain ⟨hclass,hr⟩ := forall_mem_cons.mp h
    rw [map_cons,map_cons,hclass _ hd,ih hr]

/-- Without an order, members are compared as bags of classes. -/
theorem unordered_iff (h : ∀ d ∈ left, ClassOf false d) :
    (descriptorsSame false left right || !false && left.length == right.length && countsSame false left left right)
      ↔ (left.map (descriptorEqual false)).Perm (right.map (descriptorEqual false)) := by
  have hclass : ∀ d ∈ left, ∀ e, descriptorEqual false d e = true ↔ descriptorEqual false d = descriptorEqual false e :=
    fun d hd e => (h d hd).equal_iff e
  have hcounts := sameCounts_iff_perm (fun d hd e _ => hclass d hd e) (fun d hd e (_ : e ∈ right) => hclass d hd e)
  simp only [Bool.not_false,Bool.true_and,Bool.or_eq_true,Bool.and_eq_true,beq_iff_eq,countsSame_iff]
  constructor
  · rintro (hsame | hsame)
    · rw [map_eq_of_same h hsame]
    · exact hcounts.mp hsame
  · exact fun hp => .inr (hcounts.mpr hp)

end

end TypeDescriptor
end Whim
