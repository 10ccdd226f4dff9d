import Whim.Tally

/-!
# Calls that wait

Calls that are suspended until someone resumes them or throws into them, with cancellation tokens. A call stays in the
table until it runs again.
-/

namespace Whim.Waiting

open Option List

variable {K V E : Type}

inductive Outcome (V E : Type)
  | resume (value : V)
  | throw (error : E)
  deriving DecidableEq

def Outcome.value? : Outcome V E → Option V
  | .resume value => some value
  | .throw _ => none

structure Wait (K V E : Type) where
  kind : K
  token : Option ℕ
  guarded : Bool
  active : Bool
  outcome : Option (Outcome V E)

namespace Wait

def resolve (outcome : Outcome V E) (x : Wait K V E) : Wait K V E :=
  { x with active := false, outcome := x.outcome.or (some outcome) }

/-- Whether cancelling the token resolves the wait: a guard that has been taken keeps it from doing so. -/
def hears (token : ℕ) (x : Wait K V E) : Bool := x.token = some token && (x.active || !x.guarded)

/-- Resumed with a value that passes a test for its kind, but not run again yet. -/
def resumed (due : K → V → Bool) (x : Wait K V E) : Bool := x.outcome.any (·.value?.any (due x.kind))

end Wait

/-- Waits are numbered in the order in which they begin; `faults` counts the resolutions of resolved waits. -/
structure Waits (K V E : Type) where
  table : AList fun _ : ℕ => Wait K V E
  next : ℕ
  cancelled : List ℕ
  faults : ℕ

namespace Waits

def new : Waits K V E := ⟨∅,0,[],0⟩

section

variable (w : Waits K V E)

def park (kind : K) (token : Option ℕ) (guarded : Bool) : Waits K V E :=
  { w with table := w.table.insert w.next ⟨kind,token,guarded,true,none⟩, next := w.next+1 }

def isActive (id : ℕ) : Bool := (w.table.lookup id).any (·.active)

def isCancelled (token : Option ℕ) : Bool := token.any (w.cancelled.contains ·)

/-- The number of waits that pass a test. -/
def count (p : Wait K V E → Bool) : ℕ := Tally.count p w.table

/-- A wait that is over counts as resolved. -/
def resolve (id : ℕ) (outcome : Outcome V E) : Waits K V E :=
  match w.table.lookup id with
  | some x => { w with table := w.table.insert id (x.resolve outcome), faults := w.faults+x.outcome.isSome.toNat }
  | none => { w with faults := w.faults+1 }

/-- The callbacks of a token run when it is cancelled for the first time. -/
def cancel (token : ℕ) (error : E) : Waits K V E :=
  if w.cancelled.contains token then w
  else
    { w with
      table := Tally.mapValues (fun x => if x.hears token then x.resolve (.throw error) else x) w.table
      cancelled := token::w.cancelled
      faults := w.faults+w.count fun x => x.hears token && x.outcome.isSome }

/-- The call runs again. -/
def leave (id : ℕ) : Waits K V E := { w with table := w.table.erase id }

/-- A call that begins to wait and is thrown into at once. -/
def refuse (kind : K) (token : Option ℕ) (error : E) : Waits K V E :=
  ((w.park kind token true).resolve w.next (.throw error)).leave w.next

/-- A call begins to wait behind a guard; the answer is whether it is suspended. Where its token has been cancelled, or
expires just when the callback is registered, the callback runs at once and the call throws without having been
suspended. -/
def enter (kind : K) (token : Option ℕ) (expires : Bool) (error : E) : Bool × Waits K V E :=
  if w.isCancelled token then (false,w.refuse kind token error)
  else
    match token, expires with
    | some token, true => (false,((w.park kind (some token) true).cancel token error).leave w.next)
    | token, _ => (true,w.park kind token true)

/-- The first active wait of a queue is resolved; the inactive ones before it leave the queue. -/
def wakeFirst (outcome : Outcome V E) : List ℕ → Waits K V E × List ℕ
  | [] => (w,[])
  | id::queue => if w.isActive id then (w.resolve id outcome,queue) else wakeFirst outcome queue

end

/-- All active waits of a queue are resolved. -/
def wakeAll (outcome : Outcome V E) (w : Waits K V E) : List ℕ → Waits K V E
  | [] => w
  | id::queue => wakeAll outcome (if w.isActive id then w.resolve id outcome else w) queue

/-! ## Lookups -/

variable {w : Waits K V E} {x : Wait K V E} {id : ℕ} {outcome : Outcome V E}

theorem isActive_iff : w.isActive id ↔ ∃ x, w.table.lookup id = some x ∧ x.active := by
  rw [isActive]
  cases w.table.lookup id with
  | none => exact iff_of_false Bool.false_ne_true (by simp)
  | some => simp

theorem lookup_park (kind : K) (token : Option ℕ) (g : Bool) (id : ℕ) : (w.park kind token g).table.lookup id =
      if id = w.next then some ⟨kind,token,g,true,none⟩ else w.table.lookup id := by
  rw [park]
  split
  next h => rw [h,AList.lookup_insert]
  next h => rw [AList.lookup_insert_ne h]

theorem lookup_parked (kind : K) (token : Option ℕ) (g : Bool) :
    (w.park kind token g).table.lookup w.next = some ⟨kind,token,g,true,none⟩ := by
  rw [lookup_park,if_pos rfl]

theorem resolve_eq (h : w.table.lookup id = some x) : w.resolve id outcome =
    { w with table := w.table.insert id (x.resolve outcome), faults := w.faults+x.outcome.isSome.toNat } := by
  rw [resolve,h]

theorem lookup_resolve (h : w.table.lookup id = some x) (o : ℕ) : (w.resolve id outcome).table.lookup o =
    if o = id then some (x.resolve outcome) else w.table.lookup o := by
  rw [resolve_eq h]
  split
  next heq => rw [heq,AList.lookup_insert]
  next hne => rw [AList.lookup_insert_ne hne]

theorem next_cancel (token : ℕ) (e : E) : (w.cancel token e).next = w.next := by
  rw [cancel]
  split <;> rfl

variable {token : ℕ} {e : E}

theorem mem_cancelled {t : ℕ} : t ∈ (w.cancel token e).cancelled ↔ t = token ∨ t ∈ w.cancelled := by
  rw [cancel]
  split
  next hcontains =>
    have hmem := contains_iff_mem.mp hcontains
    exact ⟨.inr,fun h => h.elim (fun heq => heq ▸ hmem) (fun h => h)⟩
  next => exact mem_cons

theorem next_resolve : (w.resolve id outcome).next = w.next := by
  rw [resolve]
  split <;> rfl

theorem cancelled_resolve : (w.resolve id outcome).cancelled = w.cancelled := by
  rw [resolve]
  split <;> rfl

theorem lookup_cancel (token : ℕ) (e : E) (h : w.cancelled.contains token = false) (id : ℕ) :
    (w.cancel token e).table.lookup id =
      (w.table.lookup id).map fun x => if x.hears token then x.resolve (.throw e) else x := by
  rw [cancel,if_neg (by rw [h]; decide)]
  exact Tally.lookup_mapValues _ _ _

/-- A token that is cancelled just when a call begins to wait. -/
theorem lookup_expired (h : w.isCancelled (some token) = false) (kind : K) (g : Bool) (e : E) :
    ((w.park kind (some token) g).cancel token e).table.lookup w.next =
      some ⟨kind,some token,g,false,some (.throw e)⟩ := by
  have hcontains : (w.park kind (some token) g).cancelled.contains token = false := h
  rw [lookup_cancel token e hcontains,lookup_parked,map_some,if_pos (by simp [Wait.hears])]
  rfl

theorem lookup_leave (id o : ℕ) : (w.leave id).table.lookup o = if o = id then none else w.table.lookup o := by
  rw [leave]
  split
  next h => rw [h,AList.lookup_erase]
  next h => rw [AList.lookup_erase_ne h]

/-! ## Where an entry comes from -/

theorem of_lookup_park {kind : K} {token : Option ℕ} {g : Bool} (h : (w.park kind token g).table.lookup id = some x) :
    id = w.next ∧ x = ⟨kind,token,g,true,none⟩ ∨ w.table.lookup id = some x := by
  rw [lookup_park] at h
  split at h
  next heq => exact .inl ⟨heq,(some.inj h).symm⟩
  next => exact .inr h

variable {o : ℕ} {y : Wait K V E}

theorem of_lookup_resolve (hx : w.table.lookup id = some x)
    (h : (w.resolve id outcome).table.lookup o = some y) :
    o = id ∧ y = x.resolve outcome ∨ w.table.lookup o = some y := by
  rw [lookup_resolve hx] at h
  split at h
  next heq => exact .inl ⟨heq,(some.inj h).symm⟩
  next => exact .inr h

theorem of_lookup_cancel (h : (w.cancel token e).table.lookup id = some y) :
    ∃ x, w.table.lookup id = some x ∧ (x.hears token ∧ y = x.resolve (.throw e) ∨
      (x.hears token → w.cancelled.contains token) ∧ y = x) := by
  cases hcontains : w.cancelled.contains token with
  | true =>
    rw [cancel,if_pos hcontains] at h
    exact ⟨y,h,.inr ⟨fun _ => rfl,rfl⟩⟩
  | false =>
    rw [lookup_cancel token e hcontains] at h
    obtain ⟨x,hx,rfl⟩ := map_eq_some_iff.mp h
    refine ⟨x,hx,?_⟩
    split
    next hhears => exact .inl ⟨hhears,rfl⟩
    next hhears => exact .inr ⟨fun hyes => absurd hyes hhears,rfl⟩

theorem of_lookup_leave (h : (w.leave id).table.lookup o = some x) : w.table.lookup o = some x := by
  rw [lookup_leave] at h
  split at h
  · cases h
  · exact h

/-- What every resolution of an active wait keeps, waking a queue keeps. -/
theorem wakeAll_induction {P : Waits K V E → Prop} (h : P w)
    (hresolve : ∀ w id, P w → w.isActive id → P (w.resolve id outcome)) (queue : List ℕ) :
    P (w.wakeAll outcome queue) := by
  induction queue generalizing w with
  | nil => exact h
  | cons id _ ih =>
    refine ih ?_
    split
    next hactive => exact hresolve w id h hactive
    next => exact h

/-! ## Waking -/

/-- Which wait of a queue wakes up: none is active, or the first that is. -/
theorem wakeFirst_cases (w : Waits K V E) (outcome : Outcome V E) (queue : List ℕ) :
    (queue.find? w.isActive = none ∧ w.wakeFirst outcome queue = (w,[])) ∨
    ∃ b id a, queue = b++id::a ∧ queue.find? w.isActive = some id ∧ w.isActive id ∧
      w.wakeFirst outcome queue = (w.resolve id outcome,a) := by
  induction queue with
  | nil => exact .inl ⟨rfl,rfl⟩
  | cons f queue ih =>
    rw [wakeFirst,find?_cons]
    cases hfirst : w.isActive f with
    | true => exact .inr ⟨[],f,queue,rfl,rfl,hfirst,rfl⟩
    | false =>
      rw [if_neg Bool.false_ne_true]
      rcases ih with h | ⟨b,id,a,rfl,h⟩
      · exact .inl h
      · exact .inr ⟨f::b,id,a,rfl,h⟩

theorem isActive_of_resolve (h : w.table.lookup id = some x)
    (hactive : (w.resolve id outcome).isActive o) : w.isActive o := by
  obtain ⟨y,hy,hyactive⟩ := isActive_iff.mp hactive
  rcases of_lookup_resolve h hy with ⟨_,rfl⟩ | hy
  · cases hyactive
  · exact isActive_iff.mpr ⟨y,hy,hyactive⟩

theorem isActive_of_park {kind : K} {token : Option ℕ} {g : Bool} (hne : id ≠ w.next)
    (hactive : (w.park kind token g).isActive id) : w.isActive id := by
  rw [isActive,lookup_park,if_neg hne] at hactive
  exact hactive

theorem isActive_of_cancel (hactive : (w.cancel token e).isActive id) : w.isActive id := by
  obtain ⟨y,hy,hyactive⟩ := isActive_iff.mp hactive
  obtain ⟨x,hx,⟨_,rfl⟩ | ⟨_,rfl⟩⟩ := of_lookup_cancel hy
  · cases hyactive
  · exact isActive_iff.mpr ⟨y,hx,hyactive⟩

theorem isActive_of_leave (hactive : (w.leave id).isActive o) : w.isActive o := by
  obtain ⟨y,hy,hyactive⟩ := isActive_iff.mp hactive
  exact isActive_iff.mpr ⟨y,of_lookup_leave hy,hyactive⟩

/-! ## Counts -/

variable {p : Wait K V E → Bool}

theorem count_resolve (h : w.table.lookup id = some x) :
    (w.resolve id outcome).count p+(p x).toNat = w.count p+(p (x.resolve outcome)).toNat := by
  rw [resolve_eq h]
  exact Tally.count_insert h

theorem count_leave (h : w.table.lookup id = some x) : (w.leave id).count p+(p x).toNat = w.count p :=
  Tally.count_erase h

theorem count_cancel (token : ℕ) (e : E) (h : ∀ x, p (x.resolve (.throw e)) = p x) :
    (w.cancel token e).count p = w.count p := by
  rw [cancel]
  split
  · rfl
  refine Tally.count_mapValues fun x => ?_
  split
  · exact h x
  · rfl

/-- The number of waits that are resumed with values that pass a test. -/
def resumed (w : Waits K V E) (due : K → V → Bool) : ℕ := w.count (·.resumed due)

section
variable (due : K → V → Bool)
include due

theorem resumed_throw (x : Wait K V E) (e : E) : (x.resolve (.throw e)).resumed due = x.resumed due := by
  rw [Wait.resumed,Wait.resumed,Wait.resolve]
  cases x.outcome <;> rfl

theorem resumed_cancel (token : ℕ) (e : E) : (w.cancel token e).resumed due = w.resumed due :=
  count_cancel token e fun x => resumed_throw due x e

theorem resumed_resolve_throw (h : w.table.lookup id = some x) (e : E) :
    (w.resolve id (.throw e)).resumed due = w.resumed due := by
  have hresolve := @count_resolve _ _ _ w x id (.throw e) (·.resumed due) h
  rw [resumed_throw] at hresolve
  exact Nat.add_right_cancel hresolve

theorem resumed_leave (h : w.table.lookup id = some x) :
    (w.leave id).resumed due+(x.resumed due).toNat = w.resumed due := count_leave h

theorem resumed_eq_zero (h : w.count (·.outcome.isSome) = 0) : w.resumed due = 0 := by
  rw [resumed,count,Tally.count_eq_zero]
  intro id x hx
  have hn : x.outcome = none := not_isSome_iff_eq_none.mp (by simp [Tally.count_eq_zero.mp h id x hx])
  rw [Wait.resumed,hn]
  rfl

end

theorem enter_cases (w : Waits K V E) (kind : K) (token : Option ℕ) (expires : Bool) (e : E) :
    (w.isCancelled token ∧ w.enter kind token expires e = (false,w.refuse kind token e)) ∨
    w.isCancelled token = false ∧ (w.enter kind token expires e = (true,w.park kind token true) ∨
      ∃ t, token = some t ∧ expires ∧
        w.enter kind token expires e = (false,((w.park kind (some t) true).cancel t e).leave w.next)) := by
  unfold enter
  cases htoken : w.isCancelled token with
  | true => exact .inl ⟨rfl,rfl⟩
  | false =>
    refine .inr ⟨rfl,?_⟩
    rw [if_neg Bool.false_ne_true]
    split
    next t => exact .inr ⟨t,rfl,rfl,rfl⟩
    next => exact .inl rfl

/-! ## Invariants -/

variable {due : K → V → Bool}

/-- Every wait has a guard, and a guard that is not taken means that the wait is not resolved. -/
structure Sound (w : Waits K V E) : Prop where
  fresh : ∀ id x, w.table.lookup id = some x → id < w.next
  guarded : ∀ id x, w.table.lookup id = some x → x.guarded = true
  unresolved : ∀ id x, w.table.lookup id = some x → x.active = true → x.outcome = none
  faultless : w.faults = 0

/-- The tokens of waits that are active, or resumed with a value that passes a test, have not been cancelled. -/
def Live (w : Waits K V E) (due : K → V → Bool) : Prop := ∀ id x token, w.table.lookup id = some x →
  x.token = some token → x.active = true ∨ x.resumed due = true → w.cancelled.contains token = false

/-- No wait with the token is resumed with such a value and has not run yet. -/
def Unclaimed (w : Waits K V E) (due : K → V → Bool) (token : ℕ) : Prop :=
  ∀ id x, w.table.lookup id = some x → x.token = some token → x.resumed due = false

theorem unclaimed_iff : w.Unclaimed due token ↔ w.count (fun x => x.token = some token && x.resumed due) = 0 := by
  rw [count,Tally.count_eq_zero]
  refine forall₃_congr fun id x _ => ?_
  rw [Bool.and_eq_false_imp,decide_eq_true_iff]

instance (token : ℕ) : Decidable (w.Unclaimed due token) := decidable_of_iff _ unclaimed_iff.symm

theorem sound_iff : w.Sound ↔ (∀ id x, w.table.lookup id = some x →
    id < w.next ∧ x.guarded ∧ (x.active → x.outcome = none)) ∧ w.faults = 0 where
  mp h := ⟨fun id x hx => ⟨h.fresh id x hx,h.guarded id x hx,h.unresolved id x hx⟩,h.faultless⟩
  mpr h := ⟨fun id x hx => (h.1 id x hx).1,fun id x hx => (h.1 id x hx).2.1,fun id x hx => (h.1 id x hx).2.2,h.2⟩

theorem Sound.new : (Waits.new : Waits K V E).Sound := ⟨nofun,nofun,nofun,rfl⟩

theorem Live.new : (Waits.new : Waits K V E).Live due := nofun

theorem Sound.park (h : w.Sound) (kind : K) (token : Option ℕ) : (w.park kind token true).Sound := by
  rw [sound_iff] at h ⊢
  refine ⟨fun id x hx => ?_,h.2⟩
  rcases of_lookup_park hx with ⟨rfl,rfl⟩ | hx
  · exact ⟨Nat.lt_succ_self _,rfl,fun _ => rfl⟩
  · exact (h.1 id x hx).imp_left Nat.lt_succ_of_lt

theorem Sound.lookup_next (h : w.Sound) : w.table.lookup w.next = none := by
  cases hx : w.table.lookup w.next with
  | none => rfl
  | some x => exact absurd (h.fresh w.next x hx) (Nat.lt_irrefl _)

theorem Sound.count_park (h : w.Sound) (kind : K) (token : Option ℕ) (g : Bool) :
    (w.park kind token g).count p = w.count p+(p ⟨kind,token,g,true,none⟩).toNat :=
  Tally.count_insert_new h.lookup_next

theorem Live.park (h : w.Live due) (kind : K) (token : Option ℕ) (g : Bool)
    (htoken : w.isCancelled token = false) : (w.park kind token g).Live due := by
  intro id x t hx ht hactive
  rcases of_lookup_park hx with ⟨_,rfl⟩ | hx
  · cases ht
    exact htoken
  · exact h id x t hx ht hactive

/-- An active wait is resolved without a fault. -/
theorem Sound.resolve (h : w.Sound) (hactive : w.isActive id) : (w.resolve id outcome).Sound := by
  obtain ⟨x,hx,hactive⟩ := isActive_iff.mp hactive
  refine sound_iff.mpr ⟨fun o y hy => ?_,?_⟩
  · rw [next_resolve]
    rcases of_lookup_resolve hx hy with ⟨rfl,rfl⟩ | hy
    · exact ⟨h.fresh o x hx,h.guarded o x hx,nofun⟩
    · exact (sound_iff.mp h).1 o y hy
  · rw [resolve_eq hx,h.unresolved id x hx hactive]
    exact h.faultless

theorem Live.resolve (h : w.Live due) (hactive : w.isActive id) : (w.resolve id outcome).Live due := by
  obtain ⟨x,hx,hactive⟩ := isActive_iff.mp hactive
  intro o y t hy ht hyactive
  rw [cancelled_resolve]
  rcases of_lookup_resolve hx hy with ⟨_,rfl⟩ | hy
  · exact h id x t hx ht (.inl hactive)
  · exact h o y t hy ht hyactive

theorem hears_active (h : w.Sound) (hx : w.table.lookup id = some x) (hhears : x.hears token) :
    x.active := by
  rw [Wait.hears,h.guarded id x hx] at hhears
  simpa using (Bool.and_eq_true_iff.mp hhears).2

theorem Sound.resumed_park (h : w.Sound) (due : K → V → Bool) (kind : K) (token : Option ℕ) (g : Bool) :
    (w.park kind token g).resumed due = w.resumed due := h.count_park kind token g

/-- An active wait that is resumed is one more that has not run again. -/
theorem Sound.resumed_resume (h : w.Sound) (due : K → V → Bool) (hx : w.table.lookup id = some x)
    (hactive : x.active) (v : V) :
    (w.resolve id (.resume v)).resumed due = w.resumed due+(due x.kind v).toNat := by
  have hn := h.unresolved id x hx hactive
  have hbefore : x.resumed due = false := by
    rw [Wait.resumed,hn]
    rfl
  have hafter : (x.resolve (.resume v)).resumed due = due x.kind v := by
    rw [Wait.resumed,Wait.resolve,hn]
    rfl
  have hresolve := @count_resolve _ _ _ w x id (.resume v) (·.resumed due) hx
  rwa [hbefore,hafter] at hresolve

theorem faults_cancel (hfaults : w.faults = 0)
    (h : w.cancelled.contains token = false → ∀ id x, w.table.lookup id = some x → x.hears token →
      x.outcome.isSome = false) : (w.cancel token e).faults = 0 := by
  rw [cancel]
  split
  · exact hfaults
  next hnew =>
    have hz : w.count (fun x => x.hears token && x.outcome.isSome) = 0 := by
      refine Tally.count_eq_zero.mpr fun id x hx => ?_
      rw [Bool.and_eq_false_imp]
      exact h (Bool.eq_false_iff.mpr hnew) id x hx
    rw [hfaults,hz]

/-- Cancelling a token never meets a resolved wait behind a guard. -/
theorem Sound.cancel (h : w.Sound) (token : ℕ) (e : E) : (w.cancel token e).Sound := by
  refine sound_iff.mpr ⟨fun id y hy => ?_,faults_cancel h.faultless fun _ id x hx hhears => ?_⟩
  · rw [next_cancel]
    obtain ⟨x,hx,⟨_,rfl⟩ | ⟨_,rfl⟩⟩ := of_lookup_cancel hy
    · exact ⟨h.fresh id x hx,h.guarded id x hx,nofun⟩
    · exact (sound_iff.mp h).1 id y hx
  · rw [h.unresolved id x hx (hears_active h hx hhears)]
    rfl

theorem Live.cancel (hsound : w.Sound) (h : w.Live due) (hres : w.Unclaimed due token) (e : E) :
    (w.cancel token e).Live due := by
  intro id y t hy ht hactive
  obtain ⟨x,hx,⟨hhears,rfl⟩ | ⟨hdeaf,rfl⟩⟩ := of_lookup_cancel hy
  · -- A wait that heard of the cancellation is neither active nor resumed afterwards.
    have hn := hsound.unresolved id x hx (hears_active hsound hx hhears)
    rw [Wait.resolve,Wait.resumed,hn] at hactive
    rcases hactive with hactive | hactive <;> cases hactive
  · have hlive := h id y t hx ht hactive
    rw [← Bool.not_eq_true,contains_iff_mem] at hlive ⊢
    rw [mem_cancelled,not_or]
    refine ⟨?_,hlive⟩
    rintro rfl
    rcases hactive with hactive | hactive
    · exact hlive (contains_iff_mem.mp (hdeaf (by rw [Wait.hears,ht,hactive]; simp)))
    · rw [hres id y hx ht] at hactive
      cases hactive

theorem Unclaimed.park (h : w.Unclaimed due token) (kind : K) (o : Option ℕ) (g : Bool) :
    (w.park kind o g).Unclaimed due token := by
  intro id x hx htoken
  rcases of_lookup_park hx with ⟨_,rfl⟩ | hx
  · rfl
  · exact h id x hx htoken

theorem Unclaimed.cancel (h : w.Unclaimed due token) (o : ℕ) (e : E) : (w.cancel o e).Unclaimed due token := by
  intro id y hy htoken
  obtain ⟨x,hx,⟨_,rfl⟩ | ⟨_,rfl⟩⟩ := of_lookup_cancel hy
  · rw [resumed_throw]
    exact h id x hx htoken
  · exact h id y hx htoken

theorem Sound.leave (h : w.Sound) (id : ℕ) : (w.leave id).Sound :=
  sound_iff.mpr ⟨fun o x hx => (sound_iff.mp h).1 o x (of_lookup_leave hx),h.faultless⟩

theorem Live.leave (h : w.Live due) (id : ℕ) : (w.leave id).Live due :=
  fun o x t hx => h o x t (of_lookup_leave hx)

theorem Sound.wakeAll (h : w.Sound) (queue : List ℕ) : (w.wakeAll outcome queue).Sound :=
  wakeAll_induction h (fun _ _ h hactive => h.resolve hactive) queue

theorem Live.wakeAll (h : w.Live due) (queue : List ℕ) : (w.wakeAll outcome queue).Live due :=
  wakeAll_induction (P := (Live · due)) h (fun _ _ h hactive => h.resolve hactive) queue

theorem next_wakeAll (queue : List ℕ) : (w.wakeAll outcome queue).next = w.next :=
  wakeAll_induction (P := fun o => o.next = w.next) rfl (fun _ _ h _ => next_resolve.trans h) queue

/-! ## Queues -/

/-- A queue of waits of one kind. -/
structure Queued (w : Waits K V E) (p : K → Prop) (queue : List ℕ) : Prop where
  fresh : ∀ id ∈ queue, id < w.next
  kind : ∀ id ∈ queue, ∀ x, w.table.lookup id = some x → p x.kind

namespace Queued

variable {p : K → Prop} {queue : List ℕ}

theorem nil : w.Queued p [] := ⟨forall_mem_nil _,forall_mem_nil _⟩

section

variable (h : w.Queued p queue)
include h

theorem of_subset {shorter : List ℕ} (hsub : ∀ id ∈ shorter, id ∈ queue) :
    w.Queued p shorter := ⟨fun id hid => h.fresh id (hsub id hid),fun id hid => h.kind id (hsub id hid)⟩

theorem resolve (hactive : w.isActive id) : (w.resolve id outcome).Queued p queue := by
  obtain ⟨x,hx,_⟩ := isActive_iff.mp hactive
  refine ⟨fun o ho => ?_,fun o ho y hy => ?_⟩
  · rw [next_resolve]
    exact h.fresh o ho
  · rcases of_lookup_resolve hx hy with ⟨rfl,rfl⟩ | hy
    · exact h.kind o ho x hx
    · exact h.kind o ho y hy

theorem park (kind : K) (token : Option ℕ) (g : Bool) : (w.park kind token g).Queued p queue := by
  refine ⟨fun id hid => Nat.lt_succ_of_lt (h.fresh id hid),fun id hid x hx => ?_⟩
  rw [lookup_park,if_neg (Nat.ne_of_lt (h.fresh id hid))] at hx
  exact h.kind id hid x hx

/-- A call that begins to wait goes to the end of its queue. -/
theorem append {kind : K} (hk : p kind) (token : Option ℕ) (g : Bool) :
    (w.park kind token g).Queued p (queue++[w.next]) := by
  have hpark := h.park kind token g
  refine ⟨fun id hid => ?_,fun id hid x hx => ?_⟩
  · rcases mem_append.mp hid with hid | hid
    · exact hpark.fresh id hid
    · rw [mem_singleton.mp hid]
      exact Nat.lt_succ_self _
  · rcases mem_append.mp hid with hid | hid
    · exact hpark.kind id hid x hx
    rw [lookup_park,if_pos (mem_singleton.mp hid)] at hx
    cases hx
    exact hk

theorem cancel (token : ℕ) (e : E) : (w.cancel token e).Queued p queue := by
  refine ⟨fun id hid => ?_,fun id hid y hy => ?_⟩
  · rw [next_cancel]
    exact h.fresh id hid
  · obtain ⟨x,hx,⟨_,rfl⟩ | ⟨_,rfl⟩⟩ := of_lookup_cancel hy
    · exact h.kind id hid x hx
    · exact h.kind id hid y hx

theorem leave (id : ℕ) : (w.leave id).Queued p queue := ⟨h.fresh,fun o ho x hx => h.kind o ho x (of_lookup_leave hx)⟩

theorem wakeAll (woken : List ℕ) : (w.wakeAll outcome woken).Queued p queue :=
  wakeAll_induction (P := (Queued · p queue)) h (fun _ _ h hactive => h.resolve hactive) woken

end

end Queued

/-! ## Refusals and waking as a whole -/

theorem Sound.lookup_refuse (h : w.Sound) (kind : K) (token : Option ℕ) (e : E) (id : ℕ) :
    (w.refuse kind token e).table.lookup id = w.table.lookup id := by
  rw [refuse,lookup_leave,lookup_resolve (lookup_parked kind token true),lookup_park]
  by_cases hid : id = w.next
  · rw [if_pos hid,hid,h.lookup_next]
  · rw [if_neg hid,if_neg hid,if_neg hid]

theorem isActive_next (kind : K) (token : Option ℕ) (g : Bool) : (w.park kind token g).isActive w.next := by
  rw [isActive,lookup_parked]
  rfl

theorem Sound.refuse (h : w.Sound) (kind : K) (token : Option ℕ) (e : E) : (w.refuse kind token e).Sound :=
  ((h.park kind token).resolve (isActive_next kind token true)).leave _

theorem Sound.live_refuse (h : w.Sound) (hlive : w.Live due) (kind : K) (token : Option ℕ) (e : E) :
    (w.refuse kind token e).Live due := by
  intro id x t hx ht hactive
  rw [h.lookup_refuse] at hx
  have hcancelled : (w.refuse kind token e).cancelled = w.cancelled := cancelled_resolve
  rw [hcancelled]
  exact hlive id x t hx ht hactive

theorem Sound.resumed_refuse (h : w.Sound) (due : K → V → Bool) (kind : K) (token : Option ℕ) (e : E) :
    (w.refuse kind token e).resumed due = w.resumed due := by
  have hx := lookup_parked (w := w) kind token true
  have hthrown : ((w.park kind token true).resolve w.next (.throw e)).table.lookup w.next =
      some ⟨kind,token,true,false,some (.throw e)⟩ := by
    rw [lookup_resolve hx,if_pos rfl]
    rfl
  have hpark := h.resumed_park due kind token true
  exact (resumed_leave due hthrown).trans ((resumed_resolve_throw due hx e).trans hpark)

theorem Sound.enter (h : w.Sound) (kind : K) (token : Option ℕ) (expires : Bool) (e : E) :
    (w.enter kind token expires e).2.Sound := by
  rcases w.enter_cases kind token expires e with ⟨_,heq⟩ | ⟨_,heq | ⟨t,_,_,heq⟩⟩
  · rw [heq]
    exact h.refuse kind token e
  · rw [heq]
    exact h.park kind token
  · rw [heq]
    exact ((h.park kind (some t)).cancel t e).leave _

theorem Sound.wakeFirst (h : w.Sound) (outcome : Outcome V E) (queue : List ℕ) :
    (w.wakeFirst outcome queue).1.Sound := by
  rcases w.wakeFirst_cases outcome queue with ⟨_,heq⟩ | ⟨_,_,_,_,_,hactive,heq⟩
  · rw [heq]
    exact h
  · rw [heq]
    exact h.resolve hactive

variable {queue : List ℕ}

/-- Waking a queue does not change how many waits pass a test that tells none of its waits apart. -/
theorem count_wakeAll (h : ∀ id ∈ queue, ∀ x, w.table.lookup id = some x → x.active →
    p (x.resolve outcome) = p x) : (w.wakeAll outcome queue).count p = w.count p := by
  induction queue generalizing w with
  | nil => rfl
  | cons f _ ih =>
    rw [forall_mem_cons] at h
    rw [wakeAll]
    by_cases hactive : w.isActive f = true
    · rw [if_pos hactive]
      obtain ⟨x,hx,hxactive⟩ := isActive_iff.mp hactive
      have hcount : (w.resolve f outcome).count p = w.count p := by
        have hresolve := @count_resolve _ _ _ w x f outcome p hx
        rw [h.1 x hx hxactive] at hresolve
        omega
      rw [ih,hcount]
      intro id hid y hy hyactive
      rcases of_lookup_resolve hx hy with ⟨_,rfl⟩ | hy
      · cases hyactive
      · exact h.2 id hid y hy hyactive
    · rw [if_neg hactive]
      exact ih h.2

theorem resumed_wakeAll_throw (due : K → V → Bool) (e : E) (queue : List ℕ) :
    (w.wakeAll (.throw e) queue).resumed due = w.resumed due := count_wakeAll fun _ _ x _ _ => resumed_throw due x e

theorem resumed_of_other {due : K → V → Bool} (h : ∀ v, due x.kind v = false) : x.resumed due = false := by
  rw [Wait.resumed]
  cases x.outcome with
  | none => rfl
  | some outcome => cases outcome <;> simp [Outcome.value?,h]

theorem resumed_wakeAll_of_other (h : w.Queued (∀ v, due · v = false) queue) :
    (w.wakeAll outcome queue).resumed due = w.resumed due := by
  refine count_wakeAll fun id hid x hx _ => ?_
  have hk : ∀ v, due (x.resolve outcome).kind v = false := h.kind id hid x hx
  rw [resumed_of_other hk,resumed_of_other (h.kind id hid x hx)]

end Waits
end Whim.Waiting
