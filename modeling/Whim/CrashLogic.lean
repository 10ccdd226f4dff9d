import Mathlib.Data.List.Basic

/-!
# Operations that fail or are cut short

Every operation on a disk takes effect, fails without effect, or is never reached because the process dies. A triple
says what holds in each of the three ends.
-/

namespace Whim.Crash

inductive Fate
  | takes | fails | dies
  deriving DecidableEq

/-- The disk, the operations so far with whether they took effect, and what becomes of the others. -/
structure World (D L : Type) where
  disk : D
  log : List (L × Bool)
  fate : ℕ → Fate

inductive Outcome (E A : Type)
  | returned (value : A)
  | failed (error : E)
  | dead
  deriving DecidableEq

def Act (D L E A : Type) := World D L → Outcome E A × World D L

variable {D L E A B : Type}

def Act.ret (value : A) : Act D L E A := fun w => (.returned value,w)

def Act.andThen (x : Act D L E A) (f : A → Act D L E B) : Act D L E B := fun w =>
  match x w with
  | (.returned value,w) => f value w
  | (.failed error,w) => (.failed error,w)
  | (.dead,w) => (.dead,w)

instance : Monad (Act D L E) where
  pure := Act.ret
  bind := Act.andThen

def fail (error : E) : Act D L E A := fun w => (.failed error,w)

/-- The error of a program as a value; a dead process stays dead. -/
def attempt (x : Act D L E A) : Act D L E (Except E A) := fun w =>
  match x w with
  | (.returned value,w) => (.returned (.ok value),w)
  | (.failed error,w) => (.returned (.error error),w)
  | (.dead,w) => (.dead,w)

/-- One operation. Where the disk refuses it, it fails like one that fails for another reason. -/
def perform (label : L) (refused : E) (effect : D → Option (A × D)) : Act D L E A := fun w =>
  match w.fate w.log.length with
  | .takes =>
    match effect w.disk with
    | some (value,disk) => (.returned value,{ w with disk := disk, log := w.log++[(label,true)] })
    | none => (.failed refused,{ w with log := w.log++[(label,false)] })
  | .fails => (.failed refused,{ w with log := w.log++[(label,false)] })
  | .dies => (.dead,w)

def forEach (f : A → Act D L E Unit) : List A → Act D L E Unit
  | [] => pure ()
  | x::xs => do f x; forEach f xs

/-! ## Triples -/

/-- What holds in each of the three ends. -/
structure Post (D L E A : Type) where
  returns : A → D → List (L × Bool) → Prop
  fails : E → D → List (L × Bool) → Prop
  dies : D → Prop

def Post.Holds (post : Post D L E A) : Outcome E A × World D L → Prop
  | (.returned value,w) => post.returns value w.disk w.log
  | (.failed error,w) => post.fails error w.disk w.log
  | (.dead,w) => post.dies w.disk

def Triple (pre : D → List (L × Bool) → Prop) (x : Act D L E A) (post : Post D L E A) : Prop :=
  ∀ w, pre w.disk w.log → post.Holds (x w)

variable {pre pre' : D → List (L × Bool) → Prop} {x : Act D L E A} {f : A → Act D L E B}
  {returns returns' : A → D → List (L × Bool) → Prop} {fails : E → D → List (L × Bool) → Prop} {dies : D → Prop}

variable {post : Post D L E A}

theorem Triple.weaken (h : Triple pre x post) (hpre : ∀ d log, pre' d log → pre d log) :
    Triple pre' x post := fun w hw => h w (hpre _ _ hw)

variable {fails' : E → D → List (L × Bool) → Prop}

section
variable (h : Triple pre x ⟨returns,fails,dies⟩) (hreturns : ∀ value d log, returns value d log → returns' value d log)
include h hreturns

theorem Triple.imp {dies' : D → Prop}
    (hfails : ∀ e d log, fails e d log → fails' e d log) (hdies : ∀ d, dies d → dies' d) :
    Triple pre x ⟨returns',fails',dies'⟩ := by
  intro w hw
  have hend := h w hw
  cases hx : x w with
  | mk o =>
    rw [hx] at hend
    cases o with
    | returned value => exact hreturns value _ _ hend
    | failed e => exact hfails e _ _ hend
    | dead => exact hdies _ hend

theorem Triple.ensure : Triple pre x ⟨returns',fails,dies⟩ := h.imp hreturns (fun _ _ _ hd => hd) fun _ hd => hd

end

/-- A fact that the precondition gives, whatever the disk. -/
theorem triple_of_fact {fact : Prop} (hfact : ∀ d log, pre d log → fact)
    (h : fact → Triple pre x post) : Triple pre x post := fun w hw => h (hfact _ _ hw) w hw

theorem triple_pure {value : A} (h : ∀ d log, pre d log → returns value d log) :
    Triple pre (pure value : Act D L E A) ⟨returns,fails,dies⟩ := fun w hw => h w.disk w.log hw

theorem triple_fail {e : E} (h : ∀ d log, pre d log → fails e d log) :
    Triple pre (fail e : Act D L E A) ⟨returns,fails,dies⟩ := fun w hw => h w.disk w.log hw

/-- The rule of composition: only a program that returns is continued. -/
theorem Triple.bind {post : B → D → List (L × Bool) → Prop} (h : Triple pre x ⟨returns,fails,dies⟩)
    (hf : ∀ value, Triple (returns value) (f value) ⟨post,fails,dies⟩) : Triple pre (x >>= f) ⟨post,fails,dies⟩ := by
  intro w hw
  have hend := h w hw
  show Post.Holds _ (Act.andThen x f w)
  unfold Act.andThen
  cases hx : x w with
  | mk o next =>
    rw [hx] at hend
    cases o with
    | returned value => exact hf value next hend
    | failed => exact hend
    | dead => exact hend

/-- What a caught program leaves. -/
def Caught (returns : A → D → List (L × Bool) → Prop) (fails : E → D → List (L × Bool) → Prop) :
    Except E A → D → List (L × Bool) → Prop
  | .ok value => returns value
  | .error error => fails error

theorem Triple.attempt (h : Triple pre x ⟨returns,fails,dies⟩) :
    Triple pre (Crash.attempt x) ⟨Caught returns fails,fails',dies⟩ := by
  intro w hw
  have hend := h w hw
  unfold Crash.attempt
  cases hx : x w with
  | mk o =>
    rw [hx] at hend
    cases o with
    | returned => exact hend
    | failed => exact hend
    | dead => exact hend

variable {effect : D → Option (A × D)}

theorem triple_perform {l : L} {refused : E}
    (hdone : ∀ d log value d', pre d log → effect d = some (value,d') → returns value d' (log++[(l,true)]))
    (hrefused : ∀ d log, pre d log → fails refused d (log++[(l,false)])) (hdies : ∀ d log, pre d log → dies d) :
    Triple pre (perform l refused effect) ⟨returns,fails,dies⟩ := by
  intro w hw
  unfold perform
  cases w.fate w.log.length with
  | takes =>
    cases heffect : effect w.disk with
    | none => exact hrefused _ _ hw
    | some next => exact hdone _ _ next.1 next.2 hw heffect
  | fails => exact hrefused _ _ hw
  | dies => exact hdies _ _ hw

variable {f : A → Act D L E Unit}

/-- The rule of loops: the invariant speaks of the elements that are done. -/
theorem triple_forEach (inv : List A → D → List (L × Bool) → Prop) (xs : List A)
    (h : ∀ done x rest, xs = done++x::rest → Triple (inv done) (f x) ⟨fun _ => inv (done++[x]),fails,dies⟩) :
    Triple (inv []) (forEach f xs) ⟨fun _ => inv xs,fails,dies⟩ := by
  suffices hgen : ∀ done rest, xs = done++rest → Triple (inv done) (forEach f rest) ⟨fun _ => inv xs,fails,dies⟩ from
    hgen [] xs rfl
  intro done rest
  induction rest generalizing done with
  | nil =>
    intro heq
    rw [heq,List.append_nil]
    exact triple_pure fun _ _ hd => hd
  | cons x rest ih =>
    intro heq
    exact (h done x rest heq).bind fun _ => ih (done++[x]) (by simp [heq])

/-- None of these operations has failed. -/
def Quiet (watched : L → Prop) (log : List (L × Bool)) : Prop := ∀ label, (label,false) ∈ log → ¬watched label

variable {log : List (L × Bool)} {w : L → Prop}

theorem quiet_iff : Quiet w log ↔ ∀ e ∈ log, e.2 = false → ¬w e.1 := by
  constructor
  · rintro h ⟨l,b⟩ hmem rfl
    exact h l hmem
  · exact fun h l hmem => h (l,false) hmem rfl

instance {watched : L → Prop} [DecidablePred watched] {log : List (L × Bool)} : Decidable (Quiet watched log) :=
  decidable_of_iff _ quiet_iff.symm

theorem quiet_snoc {l : L} {b : Bool} (h : Quiet w log)
    (hlabel : b = false → ¬w l) : Quiet w (log++[(l,b)]) := by
  intro o hmem
  rcases List.mem_append.mp hmem with hmem | hmem
  · exact h o hmem
  have heq := List.mem_singleton.mp hmem
  injection heq with ho hb
  rw [ho]
  exact hlabel hb.symm

/-! ## Runs without failures -/

/-- A program that returns when every operation takes effect. -/
def Succeeds (x : Act D L E A) : Prop :=
  ∀ w, (∀ n, w.fate n = .takes) → ∃ value w', x w = (.returned value,w') ∧ ∀ n, w'.fate n = .takes

theorem succeeds_pure (value : A) : Succeeds (pure value : Act D L E A) := fun w hw => ⟨value,w,rfl,hw⟩

theorem Succeeds.bind (h : Succeeds x) (hf : ∀ value, Succeeds (f value)) : Succeeds (x >>= f) := by
  intro w hw
  obtain ⟨value,next,hx,hnext⟩ := h w hw
  obtain ⟨r,last,hl,htakes⟩ := hf value next hnext
  refine ⟨r,last,?_,htakes⟩
  show Act.andThen x f w = _
  unfold Act.andThen
  rw [hx]
  exact hl

theorem succeeds_perform {l : L} {refused : E} (h : ∀ d, (effect d).isSome) : Succeeds (perform l refused effect) := by
  intro w hw
  obtain ⟨next,hnext⟩ := Option.isSome_iff_exists.mp (h w.disk)
  refine ⟨next.1,{ w with disk := next.2, log := w.log++[(l,true)] },?_,hw⟩
  unfold perform
  rw [hw,hnext]

theorem succeeds_forEach (h : ∀ x, Succeeds (f x)) (xs : List A) : Succeeds (forEach f xs) := by
  induction xs with
  | nil => exact succeeds_pure ()
  | cons x _ ih => exact (h x).bind fun _ => ih

end Whim.Crash
