import Mathlib.Algebra.Order.Ring.Nat

/-!
# Licences of dependencies

A dependency is reported when terms that are not copyleft do not satisfy its licence expression and its requirements
do not satisfy that of the root. The `spdx` crate, which parses and evaluates expressions, is a parameter.
-/

namespace Whim.License

open List

/-- A licence: one of the crate's list, or a reference. -/
inductive LicenseItem (L : Type)
  | spdx (id : L)
  | other

/-- The crate, with its expressions, their requirements and the licences on its list. -/
structure Spdx (E Q L : Type) where
  parse : String → Option E
  evaluate : E → (Q → Bool) → Bool
  requirements : E → List Q
  license : Q → LicenseItem L
  /-- The equality of requirements. -/
  same : Q → Q → Bool
  isCopyleft : L → Bool

variable {E Q L : Type}

/-- What is assumed of the crate: an expression holds once enough of its requirements are allowed, and the text of a
requirement is an expression of its own. -/
structure Spdx.Laws (spdx : Spdx E Q L) : Prop where
  monotone {e : E} {allowed allowed' : Q → Bool} :
    (∀ req ∈ spdx.requirements e, allowed req = true → allowed' req = true) →
    spdx.evaluate e allowed = true → spdx.evaluate e allowed' = true
  all {e : E} {allowed : Q → Bool} : (∀ req ∈ spdx.requirements e, allowed req = true) → spdx.evaluate e allowed = true
  none (e : E) : spdx.evaluate e (fun _ => false) = false
  equality : Equivalence fun req other => spdx.same req other = true
  requirement {text : String} {e : E} : spdx.parse text = some e → ∀ req ∈ spdx.requirements e,
    ∃ part e', spdx.parse part = some e' ∧ spdx.requirements e' = [req]

variable (spdx : Spdx E Q L)

/-- Whether the requirement is a known licence that is not copyleft. -/
def permissive (req : Q) : Bool :=
  match spdx.license req with
  | .spdx id => !spdx.isCopyleft id
  | .other => false

def requiresCopyleft (license : String) : Bool := (spdx.parse license).any fun e => !spdx.evaluate e (permissive spdx)

def offersDependencyTerms (root dependency : String) : Bool :=
  match spdx.parse root, spdx.parse dependency with
  | some root, some dependency => spdx.evaluate root fun req => (spdx.requirements dependency).any (spdx.same · req)
  | _, _ => false

def licensesMayConflict : Option String → Option String → Bool
  | _, none => true
  | none, some dependency => requiresCopyleft spdx dependency
  | some root, some dependency => requiresCopyleft spdx dependency && !offersDependencyTerms spdx root dependency

/-- The terms a root has for a dependency: permissive ones, and its own. -/
def usable (root : E) (req : Q) : Bool := permissive spdx req || (spdx.requirements root).any (spdx.same · req)

/-- The root names a licence of the dependency. -/
def Shares (root dependency : E) : Prop :=
  ∃ req ∈ spdx.requirements root, ∃ other ∈ spdx.requirements dependency, spdx.same other req = true

variable {spdx} (laws : spdx.Laws)
include laws

/-- What is satisfied names a requirement that is allowed. -/
theorem exists_allowed {e : E} {allowed : Q → Bool} (h : spdx.evaluate e allowed = true) :
    ∃ req ∈ spdx.requirements e, allowed req = true := by
  by_contra hnone
  have hfalse : spdx.evaluate e (fun _ => false) = true :=
    laws.monotone (fun req hreq hallowed => absurd ⟨req,hreq,hallowed⟩ hnone) h
  rw [laws.none e] at hfalse
  cases hfalse

variable {root text : String} {e dependency : E}

/-- A silent check means that permissive terms are enough, or that the root names a licence of the dependency. -/
theorem permissive_or_shares (hroot : spdx.parse root = some e) (hparse : spdx.parse text = some dependency)
    (hsilent : licensesMayConflict spdx (some root) (some text) = false) :
    spdx.evaluate dependency (permissive spdx) = true ∨ Shares spdx e dependency := by
  by_cases hcopyleft : requiresCopyleft spdx text = true
  · right
    have hoffers : offersDependencyTerms spdx root text = true := by
      simpa [licensesMayConflict,hcopyleft] using hsilent
    rw [offersDependencyTerms,hroot,hparse] at hoffers
    obtain ⟨req,hreq,hshared⟩ := exists_allowed laws hoffers
    exact ⟨req,hreq,any_eq_true.mp hshared⟩
  · left
    simpa [requiresCopyleft,hparse] using hcopyleft

/-- A root that is a licence of the dependency is never reported. -/
theorem silent_of_requirement {part : String} {req : Q} (hpart : spdx.parse part = some e)
    (honly : spdx.requirements e = [req]) (hparse : spdx.parse text = some dependency)
    (hreq : req ∈ spdx.requirements dependency) : licensesMayConflict spdx (some part) (some text) = false := by
  have hoffers : offersDependencyTerms spdx part text = true := by
    rw [offersDependencyTerms,hpart,hparse]
    refine laws.all fun other hother => ?_
    rw [honly,mem_singleton] at hother
    rw [hother]
    exact any_eq_true.mpr ⟨req,hreq,laws.equality.refl req⟩
  rw [licensesMayConflict,hoffers,Bool.not_true,Bool.and_false]

omit laws in
/-- A silent check means that permissive terms are enough or that the root names a licence of the dependency. It means
usable terms, whatever the root is, exactly when each requirement of the dependency satisfies it together with the
permissive ones. -/
theorem silent_check_usable_iff (spdx : Spdx E Q L) (laws : spdx.Laws) (text : String) (dependency : E)
    (hparse : spdx.parse text = some dependency) :
    (∀ root e, spdx.parse root = some e → licensesMayConflict spdx (some root) (some text) = false →
      spdx.evaluate dependency (permissive spdx) = true ∨ Shares spdx e dependency) ∧
    ((∀ root e, spdx.parse root = some e → licensesMayConflict spdx (some root) (some text) = false →
      spdx.evaluate dependency (usable spdx e) = true) ↔
    ∀ req ∈ spdx.requirements dependency,
      spdx.evaluate dependency (fun other => permissive spdx other || spdx.same other req) = true) := by
  refine ⟨fun root e hroot => permissive_or_shares laws hroot hparse,fun h req hreq => ?_,
    fun h root e hroot hsilent => ?_⟩
  · obtain ⟨part,e,hpart,honly⟩ := laws.requirement hparse req hreq
    refine laws.monotone (fun other _ hother => ?_)
      (h part e hpart (silent_of_requirement laws hpart honly hparse hreq))
    simp only [usable,honly,any_cons,any_nil,Bool.or_false,Bool.or_eq_true] at hother ⊢
    exact hother.imp_right laws.equality.symm
  · rcases permissive_or_shares laws hroot hparse hsilent with hpermissive | ⟨req,hreq,shared,hshared,hsame⟩
    · refine laws.monotone (fun other _ hother => ?_) hpermissive
      simp [usable,hother]
    · refine laws.monotone (fun other _ hother => ?_) (h shared hshared)
      simp only [usable,Bool.or_eq_true,any_eq_true] at hother ⊢
      exact hother.imp_right fun heq => ⟨req,hreq,laws.equality.symm (laws.equality.trans heq hsame)⟩

omit laws

/-! ## Expressions as trees -/

inductive Expression (Q : Type)
  | requirement (req : Q)
  | and (left right : Expression Q)
  | or (left right : Expression Q)

namespace Expression

def evaluate : Expression Q → (Q → Bool) → Bool
  | requirement req, allowed => allowed req
  | and left right, allowed => left.evaluate allowed && right.evaluate allowed
  | or left right, allowed => left.evaluate allowed || right.evaluate allowed

def requirements : Expression Q → List Q
  | requirement req => [req]
  | and left right | or left right => left.requirements++right.requirements

variable {e : Expression Q} {allowed allowed' : Q → Bool}

theorem evaluate_mono (h : ∀ req ∈ e.requirements, allowed req → allowed' req) :
    e.evaluate allowed → e.evaluate allowed' := by
  induction e with
  | requirement req => exact h req (mem_singleton.mpr rfl)
  | and _ _ ihl ihr | or _ _ ihl ihr =>
    have hleft := ihl fun req hreq => h req (mem_append_left _ hreq)
    have hright := ihr fun req hreq => h req (mem_append_right _ hreq)
    simp only [evaluate,Bool.and_eq_true,Bool.or_eq_true]
    tauto

theorem evaluate_all (h : ∀ req ∈ e.requirements, allowed req) : e.evaluate allowed := by
  induction e with
  | requirement req => exact h req (mem_singleton.mpr rfl)
  | and _ _ ihl ihr | or _ _ ihl ihr =>
    have hleft := ihl fun req hreq => h req (mem_append_left _ hreq)
    have hright := ihr fun req hreq => h req (mem_append_right _ hreq)
    simp [evaluate,hleft,hright]

theorem evaluate_none (e : Expression Q) : e.evaluate (fun _ => false) = false := by
  induction e with
  | requirement => rfl
  | and _ _ ihl ihr | or _ _ ihl ihr => simp [evaluate,ihl,ihr]

end Expression

/-- A crate that knows two copyleft licences. -/
def sample : Spdx (Expression Bool) Bool Bool where
  parse text :=
    if text = "GPL-3.0-only" then some (.requirement true)
    else if text = "AGPL-3.0-only" then some (.requirement false)
    else if text = "GPL-3.0-only AND AGPL-3.0-only" then some (.and (.requirement true) (.requirement false))
    else none
  evaluate := Expression.evaluate
  requirements := Expression.requirements
  license := .spdx
  same := (· == ·)
  isCopyleft _ := true

theorem sampleLaws : sample.Laws where
  monotone := Expression.evaluate_mono
  all := Expression.evaluate_all
  none := Expression.evaluate_none
  equality := ⟨fun _ => beq_self_eq_true _,fun h => beq_iff_eq.mpr (beq_iff_eq.mp h).symm,
    fun h h' => beq_iff_eq.mpr ((beq_iff_eq.mp h).trans (beq_iff_eq.mp h'))⟩
  requirement _ req _ := by
    cases req with
    | true => exact ⟨"GPL-3.0-only",.requirement true,rfl,rfl⟩
    | false => exact ⟨"AGPL-3.0-only",.requirement false,rfl,rfl⟩

theorem silent_check_usable_iff_gpl : licensesMayConflict sample (some "GPL-3.0-only") (some "GPL-3.0-only") = false ∧
    sample.evaluate (.requirement true) (usable sample (.requirement true)) = true :=
  ⟨by decide,(silent_check_usable_iff sample sampleLaws "GPL-3.0-only" _ rfl).2.mpr
    (by simp [sample,Expression.requirements,Expression.evaluate]) "GPL-3.0-only" _ rfl (by decide)⟩

/-- The check is silent about a dependency under two copyleft licences, of which the root has one. -/
theorem silent_about_conjunction :
    sample.parse "GPL-3.0-only" = some (.requirement true) ∧
    sample.parse "GPL-3.0-only AND AGPL-3.0-only" = some (.and (.requirement true) (.requirement false)) ∧
    licensesMayConflict sample (some "GPL-3.0-only") (some "GPL-3.0-only AND AGPL-3.0-only") = false ∧
    sample.evaluate (.and (.requirement true) (.requirement false)) (usable sample (.requirement true)) = false := by
  refine ⟨rfl,rfl,?_,?_⟩ <;> decide

end Whim.License
