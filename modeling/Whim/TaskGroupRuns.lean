import Whim.Primitives
import Whim.Runs

/-!
# A task group loses no failure

A call that ends and is not cancelled ends after all tasks deferred before it, and reports every exception that no call
has reported yet.
-/

namespace Whim.TaskGroup

open Waiting List Option

variable {E : Type}

/-- The exceptions that a call reports. -/
def Return.errors : Return E → List E
  | .threw (.given error) => [error]
  | .threw (.composite errors) => errors
  | _ => []

/-- Tasks are numbered as they are deferred; `began` tells how many there were when a call began to wait. The last two
fields are the exceptions of the tasks, and those that calls have reported. -/
structure Run (E : Type) where
  system : System E
  deferred : ℕ
  running : List ℕ
  began : ℕ → ℕ
  thrown : List E
  reported : List E

namespace Run

def new : Run E := ⟨.new,0,[],fun _ => 0,[],[]⟩

inductive Move (E : Type)
  | defer
  | finish (task : ℕ) (error : Option E)
  | awaitAll (token : Option ℕ) (expires : Bool)
  | proceed (id : ℕ)
  | cancel (token : ℕ)

variable (r : Run E)

def begin : Run E := { r with began := fun id => if id = r.system.barrier.waits.next then r.deferred else r.began id }

def answered (answer : Return E × System E) : Run E :=
  { r with system := answer.2, reported := r.reported++answer.1.errors }

def step : Move E → Option (Run E)
  | .defer => some { r with system := r.system.defer, deferred := r.deferred+1, running := r.deferred::r.running }
  | .finish task error =>
    if task ∈ r.running then
      (r.system.finish error).map fun system =>
        { r with system, running := r.running.erase task, thrown := r.thrown++error.toList }
    else none
  | .awaitAll token expires => some (r.begin.answered (r.system.awaitAll token expires))
  | .proceed id => (r.system.proceed id).map r.answered
  | .cancel token =>
    let waits := r.system.barrier.waits.cancel token .cancelled
    some { r with system := { r.system with barrier := { r.system.barrier with waits } } }

/-- What a call returns in a move, and how many tasks had been deferred when it began. -/
def answer : Move E → Option (ℕ × Return E)
  | .awaitAll token expires => some (r.deferred,(r.system.awaitAll token expires).1)
  | .proceed id => (r.system.proceed id).map fun answer => (r.began id,answer.1)
  | _ => none

end Run

/-- A call that waits is resumed after the tasks deferred before it have ended, and thrown into only by its token. -/
def Outcomes (began : ℕ → ℕ) (running : List ℕ) (waits : Waits Unit Unit (Exception E)) : Prop :=
  ∀ id x outcome, waits.table.lookup id = some x → x.outcome = some outcome →
    outcome = .throw .cancelled ∨ outcome = .resume () ∧ ∀ task ∈ running, began id ≤ task

/-- A run keeps this. -/
structure Inv (r : Run E) : Prop where
  sound : r.system.barrier.waits.Sound
  count : r.system.barrier.count = r.running.length
  began : ∀ id, r.began id ≤ r.deferred
  outcomes : Outcomes r.began r.running r.system.barrier.waits
  failures : r.thrown = r.reported++r.system.errors

variable {r r' : Run E} {began : ℕ → ℕ} {running : List ℕ} {waits : Waits Unit Unit (Exception E)}
  {system : System E}

theorem inv_new : Inv (.new : Run E) := ⟨.new,rfl,fun _ => Nat.le_refl 0,nofun,rfl⟩

theorem outcome_resolve {x : Wait Unit Unit (Exception E)} {o other : Outcome Unit (Exception E)}
    (h : (x.resolve o).outcome = some other) : other = o ∨ x.outcome = some other := by
  rw [Wait.resolve] at h
  cases hx : x.outcome with
  | none =>
    rw [hx] at h
    exact .inl (some.inj h).symm
  | some =>
    rw [hx] at h
    exact .inr h

theorem Outcomes.of_running (h : Outcomes began running waits) {running' : List ℕ}
    (hrunning : ∀ id, ∀ task ∈ running', task ∈ running ∨ began id ≤ task) : Outcomes began running' waits :=
  fun id x o hx hout => (h id x o hx hout).imp_right fun hres =>
    ⟨hres.1,fun task ht => (hrunning id task ht).elim (hres.2 task) fun hle => hle⟩

theorem Outcomes.wakeAll (h : Outcomes began [] waits) (q : List ℕ) :
    Outcomes began [] (waits.wakeAll (.resume ()) q) := by
  refine Waits.wakeAll_induction h (fun w id hw hactive other y o hy hout => ?_) q
  obtain ⟨x,hx,_⟩ := Waits.isActive_iff.mp hactive
  rcases Waits.of_lookup_resolve hx hy with ⟨rfl,rfl⟩ | hy
  · rcases outcome_resolve hout with rfl | hold
    · exact .inr ⟨rfl,forall_mem_nil _⟩
    · exact hw other x o hx hold
  · exact hw other y o hy hout

section
variable (h : Outcomes began running waits)
include h

theorem Outcomes.leave (id : ℕ) : Outcomes began running (waits.leave id) :=
  fun other x o hx => h other x o (Waits.of_lookup_leave hx)

theorem Outcomes.cancel (t : ℕ) : Outcomes began running (waits.cancel t .cancelled) := by
  intro id y o hy hout
  obtain ⟨x,hx,⟨_,rfl⟩ | ⟨_,rfl⟩⟩ := Waits.of_lookup_cancel hy
  · exact (outcome_resolve hout).elim .inl fun hold => h id x o hx hold
  · exact h id y o hx hout

theorem Outcomes.park (t : Option ℕ) : Outcomes began running (waits.park () t true) := by
  intro id x o hx hout
  rcases Waits.of_lookup_park hx with ⟨_,rfl⟩ | hx
  · cases hout
  · exact h id x o hx hout

end

theorem Inv.defer (h : Inv r) :
    Inv { r with system := r.system.defer, deferred := r.deferred+1, running := r.deferred::r.running } :=
  { h with
    count := congrArg (· + 1) h.count
    began := fun id => Nat.le_succ_of_le (h.began id)
    outcomes := h.outcomes.of_running fun id _ ht =>
      (mem_cons.mp ht).symm.imp_right fun heq => (h.began id).trans_eq heq.symm }

theorem Inv.begin (h : Inv r) : Inv r.begin :=
  { h with
    began := fun id => by
      rw [Run.begin]
      dsimp only
      split
      · exact Nat.le_refl _
      · exact h.began id
    outcomes := fun id x o hx => by
      rw [Run.begin]
      dsimp only
      rw [if_neg (Nat.ne_of_lt (h.sound.fresh id x hx))]
      exact h.outcomes id x o hx }

theorem Inv.finish (h : Inv r) {task : ℕ} {e : Option E} (hrunning : task ∈ r.running)
    (hfinish : r.system.finish e = some system) :
    Inv { r with system, running := r.running.erase task, thrown := r.thrown++e.toList } := by
  have hlen := length_erase_of_mem hrunning
  have houtcomes : Outcomes r.began (r.running.erase task) r.system.barrier.waits :=
    h.outcomes.of_running fun _ _ ho => .inl (mem_of_mem_erase ho)
  rw [System.finish] at hfinish
  split at hfinish
  next => cases hfinish
  cases hfinish
  have hfailures : r.thrown++e.toList = r.reported++(r.system.errors++e.toList) := by
    rw [h.failures,append_assoc]
  rw [← h.count] at hlen
  rw [Barrier.decrement]
  split
  next hl =>
    refine ⟨h.sound.wakeAll _,hlen.symm,h.began,?_,hfailures⟩
    rw [length_eq_zero_iff.mp (hlen.trans hl)] at houtcomes ⊢
    exact houtcomes.wakeAll _
  next => exact ⟨h.sound,hlen.symm,h.began,houtcomes,hfailures⟩

theorem report_errors (s : System E) : s.report.1.errors = s.errors := by
  rw [System.report]
  split <;> simp_all [Return.errors]

/-- A call that ends and is not cancelled leaves no task that was deferred before it, and no error. -/
structure Settles (r : Run E) (count : ℕ) (answer : Return E × System E) : Prop where
  inv : Inv (r.answered answer)
  ends : answer.1 ≠ .suspended → answer.1 ≠ .threw .cancelled →
    (∀ task ∈ r.running, count ≤ task) ∧ answer.2.errors = []

theorem Inv.report (h : Inv r) {c : ℕ} (hended : ∀ task ∈ r.running, c ≤ task) : Settles r c r.system.report where
  inv := by
    refine ⟨h.sound,h.count,h.began,h.outcomes,?_⟩
    rw [Run.answered,report_errors]
    exact h.failures.trans (append_nil _).symm
  ends _ _ := ⟨hended,rfl⟩

theorem Inv.unreported (h : Inv { r with system := system }) {a : Return E} (c : ℕ)
    (hanswer : a = .suspended ∨ a = .threw .cancelled) : Settles r c (a,system) := by
  have hn : a.errors = [] := by rcases hanswer with rfl | rfl <;> rfl
  refine ⟨?_,fun hsuspended hcancelled => absurd hanswer (not_or.mpr ⟨hsuspended,hcancelled⟩)⟩
  rw [Run.answered,hn,append_nil]
  exact h

theorem Inv.withWaits (h : Inv r) (waiters : List ℕ) (hsound : waits.Sound)
    (houtcomes : Outcomes r.began r.running waits) :
    Inv { r with system := { r.system with barrier := { r.system.barrier with waiters, waits } } } :=
  ⟨hsound,h.count,h.began,houtcomes,h.failures⟩

theorem Inv.awaitAll (h : Inv r) (token : Option ℕ) (x : Bool) :
    Settles r.begin r.deferred (r.system.awaitAll token x) := by
  have hbegin := h.begin
  have hsound := h.sound.park () token
  have hpark := hbegin.outcomes.park token
  rw [System.awaitAll]
  cases htoken : r.system.barrier.waits.isCancelled token with
  | true => exact hbegin.unreported _ (.inr rfl)
  | false =>
    rw [if_neg Bool.false_ne_true]
    split
    next hcount =>
      refine hbegin.report ?_
      rw [length_eq_zero_iff.mp (hbegin.count.symm.trans hcount)]
      exact forall_mem_nil _
    rw [Barrier.wait]
    rcases r.system.barrier.waits.enter_cases () token x Exception.cancelled with
      ⟨hcancelled,_⟩ | ⟨_,heq | ⟨t,rfl,_,heq⟩⟩
    · rw [htoken] at hcancelled
      cases hcancelled
    · rw [heq]
      exact (hbegin.withWaits _ hsound hpark).unreported _ (.inl rfl)
    · rw [heq]
      exact (hbegin.withWaits _ ((hsound.cancel t _).leave _) ((hpark.cancel t).leave _)).unreported _ (.inr rfl)

theorem Inv.proceed (h : Inv r) {id : ℕ} {a : Return E × System E} (hgo : r.system.proceed id = some a) :
    Settles r (r.began id) a := by
  have hleave := h.withWaits r.system.barrier.waiters (h.sound.leave id) (h.outcomes.leave id)
  rw [System.proceed] at hgo
  split at hgo
  next hx =>
    cases hgo
    rcases h.outcomes id _ _ hx rfl with hthrow | ⟨_,hended⟩
    · cases hthrow
    · exact ⟨(hleave.report hended).inv,fun _ _ => ⟨hended,rfl⟩⟩
  next hx =>
    cases hgo
    rcases h.outcomes id _ _ hx rfl with hthrow | ⟨hres,_⟩
    · cases hthrow
      exact hleave.unreported _ (.inr rfl)
    · cases hres
  next => cases hgo

theorem Inv.step {move : Run.Move E} (h : Inv r) (hstep : r.step move = some r') : Inv r' := by
  cases move with
  | defer =>
    cases hstep
    exact h.defer
  | finish =>
    rw [Run.step] at hstep
    split at hstep
    next hrunning =>
      obtain ⟨system,hfinish,rfl⟩ := map_eq_some_iff.mp hstep
      exact h.finish hrunning hfinish
    next => cases hstep
  | awaitAll t x =>
    cases hstep
    exact (h.awaitAll t x).inv
  | proceed =>
    obtain ⟨a,hgo,rfl⟩ := map_eq_some_iff.mp hstep
    exact (h.proceed hgo).inv
  | cancel t =>
    cases hstep
    exact h.withWaits _ (h.sound.cancel t _) (h.outcomes.cancel t)

end Whim.TaskGroup
