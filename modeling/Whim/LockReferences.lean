import Mathlib.Algebra.Order.BigOperators.Group.List
import Whim.DepthFirst
import Whim.OrderedMap
import Whim.Source

/-!
# The references of a lockfile

Validation looks up every name that a lockfile refers to and walks the dependencies from the roots, which may meet no
cycle and must meet all packages.
-/

namespace Whim.Lock

open Relation List OrderedMap

/-- What `validate_references` rejects. -/
inductive ReferenceError
  | missingReference (source : Text)
  | dependencyCycle (source : Text)
  | unreachablePackage (source : Text)
  deriving DecidableEq

def isUniquelySorted (sources : List Text) :
    Bool := sources.zip sources.tail |>.all fun pair => decide (pair.1 < pair.2)

/-- The packages by their names: of two with one name the later counts. -/
def LockFile.packageMap (lock : LockFile) : List (Text × LockedPackage) :=
  insertAll [] (lock.packages.map fun package => (package.source,package))

def LockFile.roots (lock : LockFile) : List Text := lock.runtime++lock.development

/-- The entries that the packages not yet entered will push. -/
def remaining (packages : List (Text × LockedPackage)) (active complete : Finset Text) : ℕ :=
  ((packages.filter fun e => e.1 ∉ active ∧ e.1 ∉ complete).map fun e => e.2.dependencies.length+1).sum

theorem sum_filter_le {α : Type} {p q : α → Bool} (f : α → ℕ) (l : List α) (h : ∀ x, q x → p x) :
    ((l.filter q).map f).sum ≤ ((l.filter p).map f).sum :=
  ((monotone_filter_right l h).map f).sum_le_sum fun _ _ => Nat.zero_le _

theorem sum_filter_add_le {α : Type} {p q : α → Bool} (f : α → ℕ) {l : List α} {x : α}
    (h : ∀ x, q x → p x) (hx : x ∈ l) (hp : p x) (hq : ¬q x) :
    ((l.filter q).map f).sum+f x ≤ ((l.filter p).map f).sum := by
  obtain ⟨b,a,rfl⟩ := append_of_mem hx
  have hbefore := sum_filter_le f b h
  have hafter := sum_filter_le f a h
  simp only [filter_append,filter_cons,hp,hq,if_true,if_false,map_append,map_cons,
    sum_append,sum_cons,Bool.false_eq_true]
  omega

variable {packages : List (Text × LockedPackage)} {active complete : Finset Text} {source : Text}
  {package : LockedPackage}

/-- A finished package has been entered before. -/
theorem remaining_finish (packages : List (Text × LockedPackage)) (active complete : Finset Text) (source : Text) :
    remaining packages (active.erase source) (insert source complete) ≤ remaining packages active complete := by
  refine sum_filter_le _ packages fun e he => ?_
  simp only [Finset.mem_erase,Finset.mem_insert,decide_eq_true_eq] at he ⊢
  tauto

theorem remaining_enter (hactive : source ∉ active) (hcomplete : source ∉ complete)
    (hlookup : lookup packages source = some package) :
    remaining packages (insert source active) complete+(package.dependencies.length+1) ≤
      remaining packages active complete := by
  obtain ⟨name,hmem,heq⟩ := lookup_some hlookup
  cases eq_of_beq heq
  refine sum_filter_add_le (fun e : Text × LockedPackage => e.2.dependencies.length+1) (fun e he => ?_) hmem ?_ ?_
  · simp only [Finset.mem_insert,decide_eq_true_eq] at he ⊢
    tauto
  · simp [hactive,hcomplete]
  · simp

/-- The loop over the stack, its top first. An entry is a package to enter, or the mark that it is finished. -/
def walk (packages : List (Text × LockedPackage)) (active complete : Finset Text) :
    List (Text × Bool) → Except ReferenceError (Finset Text)
  | [] => .ok complete
  | (source,true)::pending => walk packages (active.erase source) (insert source complete) pending
  | (source,false)::pending =>
    if source ∈ complete then walk packages active complete pending
    else if source ∈ active then .error (.dependencyCycle source)
    else
      match _ : lookup packages source with
      | none => .error (.missingReference source)
      | some package =>
        walk packages (insert source active) complete (package.dependencies.map (·,false)++(source,true)::pending)
termination_by pending => remaining packages active complete+pending.length
decreasing_by
  · have hfinish := remaining_finish packages active complete source
    simp only [length_cons]
    omega
  · simp only [length_cons]
    omega
  · next hcomplete hactive hlookup =>
    have henter := remaining_enter hactive hcomplete hlookup
    simp only [length_append,length_map,length_cons]
    omega

/-- The check behind the loop, over the names in their order. -/
def requireReached (packages : List (Text × LockedPackage)) (complete : Finset Text) : Except ReferenceError Unit :=
  match (sorted (packages.map Prod.fst)).find? (· ∉ complete) with
  | some source => .error (.unreachablePackage source)
  | none => .ok ()

def validateReferences (lock : LockFile) : Except ReferenceError Unit :=
  match (lock.roots++lock.packages.flatMap LockedPackage.dependencies).find? fun source =>
      (lookup lock.packageMap source).isNone with
  | some source => .error (.missingReference source)
  | none => do
    let complete ← walk lock.packageMap ∅ ∅ (lock.roots.map (·,false))
    requireReached lock.packageMap complete

/-- A package lists the other as a dependency. -/
def LockFile.Depends (lock : LockFile) (source dependency : Text) : Prop :=
  ∃ package ∈ lock.packages, package.source = source ∧ dependency ∈ package.dependencies

/-- A chain of dependencies leads to the package from a root of the runtime or of the development. -/
def LockFile.Reachable (lock : LockFile) : Text → Prop := DepthFirst.Reachable (· ∈ lock.roots) lock.Depends

/-- What the loop ends with. -/
inductive Walked (root : Text → Prop) (succ : Text → Text → Prop) (packages : List (Text × LockedPackage)) :
    Except ReferenceError (Finset Text) → Prop
  | ended {active complete : Finset Text} (h : DepthFirst.Searching root succ [] active complete) :
    Walked root succ packages (.ok complete)
  | cycled {source : Text} (hreachable : DepthFirst.Reachable root succ source) (hcycle : TransGen succ source source) :
    Walked root succ packages (.error (.dependencyCycle source))
  | missed {source : Text} (hreachable : DepthFirst.Reachable root succ source)
    (hmissing : lookup packages source = none) :
    Walked root succ packages (.error (.missingReference source))

theorem walk_walked {root : Text → Prop} {succ : Text → Text → Prop}
    (hsucc : ∀ source package, lookup packages source = some package →
      ∀ c, succ source c ↔ c ∈ package.dependencies) {ps : List (Text × Bool)}
    (h : DepthFirst.Searching root succ ps active complete) :
    Walked root succ packages (walk packages active complete ps) := by
  fun_induction walk packages active complete ps with
  | case1 => exact .ended h
  | case2 _ _ _ _ ih => exact ih h.finish
  | case3 _ _ _ _ hcomplete ih => exact ih (h.skip hcomplete)
  | case4 _ _ _ _ _ hactive => exact .cycled h.reachable (h.cycle hactive)
  | case5 _ _ _ _ _ _ hlookup => exact .missed h.reachable hlookup
  | case6 _ _ source _ hcomplete hactive package hlookup ih =>
    exact ih (h.enter hactive hcomplete (hsucc source package hlookup))

section

variable {lock : LockFile}

theorem nodup_of_isUniquelySorted {sources : List Text} (h : isUniquelySorted sources) : sources.Nodup := by
  have hchain : sources.IsChain (· < ·) := by
    induction sources with
    | nil => exact .nil
    | cons f sources ih =>
      cases sources with
      | nil => exact .singleton f
      | cons =>
        simp only [isUniquelySorted,tail_cons,zip_cons_cons,all_cons,Bool.and_eq_true,
          decide_eq_true_eq] at h
        exact .cons_cons h.1 (ih h.2)
  exact (isChain_iff_pairwise.mp hchain).imp fun hlt => ne_of_lt hlt

theorem lookup_packageMap_eq (source : Text) : lookup lock.packageMap source =
    lock.packages.reverse.find? fun package => package.source == source := by
  rw [LockFile.packageMap,lookup_insertAll,← map_reverse,find?_map,Option.map_map]
  exact (Option.or_none).trans Option.map_id_apply

variable {source : Text}

/-- In a file with distinct names, the map finds each package under its name. -/
theorem lookup_packageMap (hnd : (lock.packages.map LockedPackage.source).Nodup)
    {package : LockedPackage} : lookup lock.packageMap source = some package ↔
      package ∈ lock.packages ∧ package.source = source := by
  have hfound : ∀ f, lookup lock.packageMap source = some f →
      f ∈ lock.packages ∧ f.source = source := by
    intro f hlookup
    rw [lookup_packageMap_eq] at hlookup
    have hbeq := find?_some hlookup
    exact ⟨mem_reverse.mp (mem_of_find?_eq_some hlookup),eq_of_beq hbeq⟩
  refine ⟨hfound package,?_⟩
  rintro ⟨hmem,rfl⟩
  cases hlookup : lookup lock.packageMap package.source with
  | none =>
    rw [lookup_packageMap_eq,find?_eq_none] at hlookup
    exact absurd (beq_self_eq_true package.source) (hlookup package (mem_reverse.mpr hmem))
  | some f =>
    obtain ⟨hmem',heq⟩ := hfound f hlookup
    rw [inj_on_of_nodup_map hnd hmem' hmem heq]

theorem isNone_lookup_packageMap :
    (lookup lock.packageMap source).isNone ↔ source ∉ lock.packages.map LockedPackage.source := by
  rw [lookup_packageMap_eq,Option.isNone_iff_eq_none,find?_eq_none]
  simp

theorem mem_keys_packageMap :
    source ∈ lock.packageMap.map Prod.fst ↔ source ∈ lock.packages.map LockedPackage.source := by
  have hk := (keys_insertAll (m := ([] : List (Text × LockedPackage))) (f := id) (fun _ _ => beq_iff_eq)
    (lock.packages.map fun package => (package.source,package)) nodup_nil).2 source
  simpa [LockFile.packageMap] using hk

/-- Every name that the file refers to is the name of a package. -/
def LockFile.Closed (lock : LockFile) : Prop :=
  (∀ source ∈ lock.roots, source ∈ lock.packages.map LockedPackage.source) ∧
    ∀ package ∈ lock.packages, ∀ source ∈ package.dependencies, source ∈ lock.packages.map LockedPackage.source

theorem closed_iff : lock.Closed ↔ ((lock.roots++lock.packages.flatMap LockedPackage.dependencies).find? fun source =>
    (lookup lock.packageMap source).isNone) = none := by
  simp only [find?_eq_none,isNone_lookup_packageMap,not_not,forall_mem_append,LockFile.Closed,
    forall_mem_flatMap]

theorem requireReached_ok :
    requireReached packages complete = .ok () ↔ ∀ source ∈ packages.map Prod.fst, source ∈ complete := by
  unfold requireReached
  cases hunreached : (sorted (packages.map Prod.fst)).find? (· ∉ complete) with
  | some source =>
    have hmem := mem_of_find?_eq_some hunreached
    have hnot := find?_some hunreached
    rw [sorted,mem_mergeSort] at hmem
    exact ⟨nofun,fun h => absurd (h source hmem) (by simpa using hnot)⟩
  | none =>
    simpa [sorted,find?_eq_none] using hunreached

theorem Closed.reachable (h : lock.Closed) (hreachable : lock.Reachable source) :
    source ∈ lock.packages.map LockedPackage.source := by
  obtain ⟨root,hroot,hp⟩ := hreachable
  induction hp with
  | refl => exact h.1 root hroot
  | tail _ hstep =>
    obtain ⟨package,hpackage,-,hdependency⟩ := hstep
    exact h.2 package hpackage _ hdependency

/-- The references are valid exactly if they are closed, without a cycle among the packages that the roots reach, and
reach every package. -/
theorem validateReferences_iff (lock : LockFile)
    (hsorted : isUniquelySorted (lock.packages.map LockedPackage.source) = true) :
    validateReferences lock = .ok () ↔ lock.Closed ∧
      (∀ source, lock.Reachable source → ¬TransGen lock.Depends source source) ∧
      ∀ package ∈ lock.packages, lock.Reachable package.source := by
  have hnodup := nodup_of_isUniquelySorted hsorted
  have hwalked : Walked (· ∈ lock.roots) lock.Depends lock.packageMap
      (walk lock.packageMap ∅ ∅ (lock.roots.map (·,false))) := by
    refine walk_walked (fun source package hlookup c => ?_) (.start fun _ => Iff.rfl)
    obtain ⟨hpackage,rfl⟩ := (lookup_packageMap hnodup).mp hlookup
    constructor
    · rintro ⟨other,hother,heq,hc⟩
      rwa [← inj_on_of_nodup_map hnodup hother hpackage heq]
    · exact fun hc => ⟨package,hpackage,rfl,hc⟩
  unfold validateReferences
  cases hfind : (lock.roots++lock.packages.flatMap LockedPackage.dependencies).find? fun source =>
      (lookup lock.packageMap source).isNone with
  | some =>
    refine ⟨nofun,fun h => ?_⟩
    rw [closed_iff.mp h.1] at hfind
    cases hfind
  | none =>
    have hclosed := closed_iff.mpr hfind
    generalize walk lock.packageMap ∅ ∅ (lock.roots.map (·,false)) = walked at hwalked
    cases hwalked with
    | cycled hreachable hcycle => exact ⟨nofun,fun h => absurd hcycle (h.2.1 _ hreachable)⟩
    | missed hreachable hmissing =>
      have hnone := isNone_lookup_packageMap.mp (Option.isNone_iff_eq_none.mpr hmissing)
      exact absurd (Closed.reachable hclosed hreachable) hnone
    | @ended _ complete hsearching =>
      have hcomplete : ∀ source, source ∈ complete ↔ lock.Reachable source := fun source => (hsearching.done source).1
      refine requireReached_ok.trans ?_
      simp only [mem_keys_packageMap,forall_mem_map,hcomplete]
      exact ⟨fun h => ⟨hclosed,fun source => (hsearching.done source).2,h⟩,fun h => h.2.2⟩

/-- A file with these dependencies and no other data. -/
def fileOf (runtime : List Text) (packages : List (Text × List Text)) : LockFile :=
  ⟨1,[],runtime,[],packages.map fun e => ⟨e.1,none,[],[],[],[],[],[],e.2,none,none,[]⟩⟩

/-- Two packages that share a dependency. -/
def sharedFile : LockFile := fileOf [['a'],['b']] [(['a'],[['c']]),(['b'],[['c']]),(['c'],[])]

theorem validateReferences_iff_shared : validateReferences sharedFile = .ok () := by
  have hdepends : ∀ {a b : Text}, sharedFile.Depends a b → a < b := by
    rintro a b ⟨package,hpackage,rfl,hb⟩
    simp only [sharedFile,fileOf,map_cons,map_nil,mem_cons,not_mem_nil,or_false] at hpackage
    rcases hpackage with rfl | rfl | rfl
    · rw [mem_singleton.mp hb]; decide
    · rw [mem_singleton.mp hb]; decide
    · cases hb
  have hroot : ∀ {root : Text}, root ∈ sharedFile.roots → sharedFile.Reachable root := fun h => ⟨_,h,.refl⟩
  refine (validateReferences_iff sharedFile (by decide)).mpr ⟨?_,fun source _ hcycle => ?_,?_⟩
  · simp [LockFile.Closed,LockFile.roots,sharedFile,fileOf]
  · refine lt_irrefl source ?_
    exact TransGen.trans_induction_on (motive := fun {a b} _ => a < b) hcycle hdepends fun _ _ h h' => lt_trans h h'
  · simp only [sharedFile,fileOf,map_cons,map_nil,forall_mem_cons]
    refine ⟨hroot (by decide),hroot (by decide),⟨['a'],by decide,.single ⟨_,mem_cons_self,rfl,by decide⟩⟩,
      forall_mem_nil _⟩

end
end Whim.Lock
