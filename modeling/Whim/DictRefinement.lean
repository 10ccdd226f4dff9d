import Whim.DictOperations

/-!
# Dictionaries refine insertion-ordered maps

Runs of dictionary operations agree with the same operations on an association list, until a run needs more than
`2 ^ 32` slots.
-/

namespace Whim.DictObject

open OrderedMap

variable {V : Type}

inductive Op (V : Type)
  | insert (key : Key) (value : V)
  | insertInt (key : Int64) (value : V)
  | insertShortString (key : ShortString) (value : V)
  | remove (key : Key)
  | getMutRef (key : Key) (write : V → V)
  | reserveForBuild (additional : ℕ)
  | reserveHint (additional : ℕ)

def Op.IsInsertion : Op V → Bool
  | .insert .. | .insertInt .. | .insertShortString .. => true
  | _ => false

def step (hs : HashState) (g : HashTable.Growth IndexEntry) (d : DictObject V) :
    Op V → Checked (Option V × DictObject V)
  | .insert key value => d.insert hs g key value
  | .insertInt key value => d.insertInt hs g key value
  | .insertShortString key value => d.insertShortString hs g key value
  | .remove key => d.remove hs g key
  | .getMutRef key write => d.getMutRef hs key write
  | .reserveForBuild additional => (d.reserveForBuild hs g additional).map fun d => (none,d)
  | .reserveHint additional => .ok (none,d.reserveHint hs g additional)

def run (hs : HashState) (g : HashTable.Growth IndexEntry) :
    DictObject V → List (Op V) → Checked (List (Option V) × DictObject V)
  | d, [] => .ok ([],d)
  | d, op::ops =>
    match step hs g d op with
    | .error violation => .error violation
    | .ok (result,d) =>
      match run hs g d ops with
      | .error violation => .error violation
      | .ok (results,d) => .ok (result::results,d)

/-- The same operations on the reference association list. -/
def refStep (m : List (Key × V)) : Op V → Option V × List (Key × V)
  | .insert key value => (lookup m key,OrderedMap.insert m key value)
  | .insertInt key value => (lookup m (.int key),OrderedMap.insert m (.int key) value)
  | .insertShortString key value =>
    (lookup m (.shortString key),OrderedMap.insert m (.shortString key) value)
  | .remove key => (lookup m key,OrderedMap.remove m key)
  | .getMutRef key write => (lookup m key,modify m key write)
  | .reserveForBuild _ | .reserveHint _ => (none,m)

def refRun : List (Key × V) → List (Op V) → List (Option V) × List (Key × V)
  | m, [] => ([],m)
  | m, op::ops =>
    let (result,m) := refStep m op
    let (results,m) := refRun m ops
    (result::results,m)

/-- All reads of a dictionary answer as the association list does. -/
structure Observes (hs : HashState) (d : DictObject V) (m : List (Key × V)) : Prop where
  iter : d.iter = m
  len : d.len = m.length
  get : ∀ key, d.get hs key = .ok (lookup m key)
  getRef : ∀ key, d.getRef hs key = .ok (lookup m key)
  getInt : ∀ key, d.getInt hs key = .ok (lookup m (.int key))
  getString : ∀ key, d.getString hs key = .ok (lookup m (.string key))
  getShortString : ∀ key, d.getShortString hs key = .ok (lookup m (.shortString key))

variable {d : DictObject V} {hs : HashState}

theorem WF.observes (h : WF hs d) : Observes hs d d.iter :=
  ⟨rfl,h.len_eq,h.getRef_eq,h.getRef_eq,h.getInt_eq,h.getString_eq,h.getShortString_eq⟩

section

variable {hs : HashState} {g : HashTable.Growth IndexEntry} {d : DictObject V}

/-- One operation: it agrees with the reference, or all slots are in use. -/
inductive StepRefines (hs : HashState) (d : DictObject V) (op : Op V) :
    Checked (Option V × DictObject V) → Prop
  | ok {result : Option V} {d' : DictObject V} (hwf : WF hs d')
    (hreference : refStep d.iter op = (result,d'.iter))
    (hslots : d'.slots.length ≤ d.slots.length+if op.IsInsertion then 1 else 0) :
    StepRefines hs d op (.ok (result,d'))
  | full (hinsert : op.IsInsertion) (h : 2 ^ 32 ≤ d.slots.length) :
    StepRefines hs d op (.error .slotLimit)

variable {result : Checked (Option V × DictObject V)}

theorem Inserted.refines (h : WF hs d) {key : Key} {v : V} {op : Op V} (hop : op.IsInsertion)
    (hreference : ∀ m, refStep m op = (lookup m key,OrderedMap.insert m key v)) (hr : Inserted hs key v d result) :
    StepRefines hs d op result := by
  cases hr with
  | full hfull => exact .full hop hfull
  | appended hwf e =>
    refine .ok hwf ?_ (by simp [e.slots,hop])
    rw [hreference,e.absent.lookup,e.iter]
  | overwritten hwf e =>
    refine .ok hwf ?_ (by simp [e.length_slots])
    rw [hreference,h.lookup_slot e.key_eq e.before,e.iter h]

theorem Removed.refines (h : WF hs d) {key : Key}
    (hr : Removed hs key d result) : StepRefines hs d (.remove key) result := by
  cases hr with
  | missing hwf e =>
    refine .ok hwf ?_ (by simp [e.slots])
    rw [refStep,e.absent.lookup,e.absent.remove,e.iter]
  | vacated hwf e =>
    refine .ok hwf ?_ (Nat.le_add_right_of_le e.length_le)
    rw [refStep,h.lookup_slot e.key_eq e.before,e.iter_remove h]

theorem WF.getMutRef_refines (h : WF hs d) (key : Key) (w : V → V) :
    StepRefines hs d (.getMutRef key w) (d.getMutRef hs key w) := by
  rcases h.getMutRef_eq key w with ⟨habsent,hrun⟩ | ⟨d',i,k,old,hrun,hwf,e⟩
  · rw [hrun]
    exact .ok h (by rw [refStep,habsent.lookup,habsent.modify]) (Nat.le_add_right _ _)
  · rw [hrun]
    refine .ok hwf ?_ (by simp [e.length_slots])
    rw [refStep,OrderedMap.modify,h.lookup_slot e.key_eq e.before,e.iter h]

theorem WF.step_refines (h : WF hs d) (op : Op V) : StepRefines hs d op (step hs g d op) := by
  cases op with
  | insert key v => exact (h.insert_eq key v).refines h rfl fun _ => rfl
  | insertInt key v => exact (h.insertInt_eq key v).refines h rfl fun _ => rfl
  | insertShortString key v => exact (h.insertShortString_eq key v).refines h rfl fun _ => rfl
  | remove key => exact (h.remove_eq key).refines h
  | getMutRef key w => exact h.getMutRef_refines key w
  | reserveForBuild a =>
    obtain ⟨d',hrun,hwf,hslots,-⟩ := h.reserveForBuild_eq (g := g) a
    simp only [step,hrun]
    exact .ok hwf (by rw [refStep,iter_eq_slots,iter_eq_slots,hslots]) (by simp [hslots])
  | reserveHint a =>
    obtain ⟨hwf,hslots,-⟩ := h.reserveHint_eq (g := g) a
    exact .ok hwf (by rw [refStep,iter_eq_slots,iter_eq_slots,hslots]) (by simp [hslots])

end

variable {g : HashTable.Growth IndexEntry}

/-- A run from any well-formed dictionary: it agrees with the reference, or it stops at the slot
limit after more insertions than slots were free. -/
theorem WF.run_refines (h : WF hs d) (ops : List (Op V)) :
    (∃ d', run hs g d ops = .ok ((refRun d.iter ops).1,d') ∧ WF hs d' ∧ d'.iter = (refRun d.iter ops).2) ∨
    run hs g d ops = .error .slotLimit ∧ 2 ^ 32 < d.slots.length+ops.countP Op.IsInsertion := by
  induction ops generalizing d with
  | nil => exact .inl ⟨d,rfl,h,rfl⟩
  | cons op _ ih =>
    have hstep := h.step_refines (g := g) op
    rcases hr : step hs g d op with violation | ⟨result,d₁⟩
    · rw [hr] at hstep
      cases hstep with
      | full hinsert =>
        refine .inr ⟨by simp [run,hr],?_⟩
        simp only [List.countP_cons,hinsert,if_true]
        omega
    · rw [hr] at hstep
      cases hstep with
      | ok hwf hreference =>
        rcases ih hwf with ⟨d',hrun,hwf',hiter⟩ | ⟨hrun,hcount⟩
        · exact .inl ⟨d',by simp [run,refRun,hr,hreference,hrun],hwf',by simp [refRun,hreference,hiter]⟩
        refine .inr ⟨by simp [run,hr,hrun],?_⟩
        simp only [List.countP_cons]
        omega

/-- Every run from the empty dictionary returns the reference results and ends in a dictionary that
observes the reference entries, unless it makes more than `2 ^ 32` insertions and stops at the slot
limit. -/
theorem run_new_refines (hs : HashState) (g : HashTable.Growth IndexEntry) (ops : List (Op V)) :
    (∃ d, run hs g new ops = .ok ((refRun [] ops).1,d) ∧ Observes hs d (refRun [] ops).2) ∨
    run hs g new ops = .error .slotLimit ∧ 2 ^ 32 < ops.countP Op.IsInsertion := by
  rcases (wf_new hs).run_refines (g := g) ops with ⟨d,hrun,hwf,hiter⟩ | ⟨hrun,hcount⟩
  · exact .inl ⟨d,hrun,hiter ▸ hwf.observes⟩
  · exact .inr ⟨hrun,by simpa [slots,new,packedEntries] using hcount⟩

/-- Appending the keys `0, …, n - 1` one after the other. -/
def fill (value : V) (start : ℕ) : ℕ → List (Op V)
  | 0 => []
  | n+1 => .insertInt (Int64.ofNat start) value::fill value (start+1) n

theorem run_fill {vs : List V} (v : V) (hp : d.packed = some vs) {i n : ℕ} (hstart : i = vs.length)
    (hlen : i ≤ 2 ^ 32) (hn : 2 ^ 32 < i+n) : run hs g d (fill v i n) = .error .slotLimit := by
  induction n generalizing d vs i with
  | zero => omega
  | succ n ih =>
    have hpos := usizeTryFrom_ofNat (show i < 2 ^ 63 by omega)
    have hnone : vs[i]? = none := by simp [hstart]
    by_cases hfull : i < 2 ^ 32
    · have hstep : step hs g d (.insertInt (Int64.ofNat i) v) = .ok (none,
          { d with packed := some (vs++[v]) }.noteTypeCheckMutation (UInt32.ofNat i)) := by
        simp only [step,insertInt,hp,hpos,hnone,if_pos hstart,slotNumber_of_lt hfull]
        rfl
      simp only [fill,run,hstep]
      rw [ih rfl (by simp [hstart]) (by omega) (by omega)]
    · have hstep : step hs g d (.insertInt (Int64.ofNat i) v) = .error .slotLimit := by
        simp only [step,insertInt,hp,hpos,hnone,if_pos hstart,
          slotNumber_of_ge (Nat.not_lt.mp hfull)]
        rfl
      simp only [fill,run,hstep]

/-- The run that inserts `2 ^ 32 + 1` consecutive integer keys leaves defined behaviour. -/
theorem run_fill_stops : run (HashState.new fun _ => 0) (HashTable.Growth.exact _) new (fill true 0 (2 ^ 32+1)) =
    .error .slotLimit :=
  run_fill true rfl rfl (Nat.zero_le _) (by simp)

end Whim.DictObject
