import Whim.Chains
import Whim.Control

/-!
# Jump threading

Every jump goes to the end of its chain of jumps at once, if there is one. The step of an object iterator reads the
offset of the jump behind it for another position, which threading that jump moves.
-/

namespace Whim.JumpThreading

open Verify Control Chains List Option

/-- `relative_target`, which panics at a negative target. -/
def relativeTarget (source : ℕ) (offset : Int32) : Option ℕ :=
  if 0 ≤ (source : ℤ)+offset.toInt then some ((source : ℤ)+offset.toInt).toNat else none

inductive TargetState
  | unknown | visiting
  | resolved (target : Option ℕ)

def TargetState.isUnknown : TargetState → Bool
  | unknown => true
  | _ => false

def TargetState.target : TargetState → Option ℕ
  | resolved target => target
  | _ => none

/-- The inner loop: the marks, the positions passed, and the target they share. -/
def follow (code : List Instruction) :
    ℕ → List TargetState → ℕ → List ℕ → Option (List TargetState × List ℕ × Option ℕ)
  | 0, _, _, _ => none
  | rounds+1, states, current, path =>
    match states[current]? with
    | none | some .visiting => some (states,path,none)
    | some (.resolved target) => some (states,path,target)
    | some .unknown =>
      match code[current]? with
      | some (.jump offset) =>
        (relativeTarget current offset).bind fun next =>
          follow code rounds (states.set current .visiting) next (current::path)
      | _ => some (states.set current .visiting,current::path,some current)

def resolveFrom (code : List Instruction) (states : List TargetState) (source : ℕ) : Option (List TargetState) :=
  match states[source]? with
  | some .unknown => do
    let (states,path,target) ← follow code (code.length+1) states source []
    some (path.foldl (fun states index => states.set index (.resolved target)) states)
  | _ => some states

def resolveTargets (code : List Instruction) : Option (List (Option ℕ)) := do
  let states ← (List.range code.length).foldlM (resolveFrom code) (List.replicate code.length .unknown)
  some (states.map TargetState.target)

/-- The body of the loop over the targets. -/
def threadJump (source : ℕ) (target : Option ℕ) : Instruction → Instruction
  | .jump offset =>
    match target with
    | none => .jump offset
    | some target =>
      if relativeTarget source offset = some target then .jump offset
      else if -2 ^ 31 ≤ (target : ℤ)-source ∧ (target : ℤ)-source < 2 ^ 31 then
        .jump (Int32.ofInt ((target : ℤ)-source))
      else .jump offset
  | instruction => instruction

def threadJumps (chunk : Chunk) (targets : List (Option ℕ)) : Chunk :=
  { chunk with
    code := chunk.code.mapIdx fun source instruction => threadJump source targets[source]?.join instruction
    code_lt := by simpa using chunk.code_lt }

def optimizeChunk (jumpThreading : Bool) (chunk : Chunk) : Option Chunk :=
  if !jumpThreading || chunk.code.length < 2 then some chunk
  else (resolveTargets chunk.code).map (threadJumps chunk)

/-! ## Executions -/

section

variable (chunk : Chunk)

/-- Where the jump at a position goes. -/
def jumpFrom (i : ℕ) : Option ℕ :=
  match chunk.code[i]? with
  | some (.jump offset) => some (jumpTarget (i+1) offset.toInt)
  | _ => none

/-- The first instruction that is no jump, from a position on. -/
def Arrives : ℕ → ℕ → Prop := Reaches chunk.code.length (jumpFrom chunk)

/-- The handlers that an instruction may unwind to. -/
def handlers (i : ℕ) : List ℕ :=
  (chunk.catchTable.filter fun entry => entry.start.toNat ≤ i ∧ i < entry.stop.toNat).map (·.handler.toNat)

/-- All outcomes of an instruction: where it continues, and where it unwinds to. -/
def outcomes (i : ℕ) (instruction : Instruction) : List ℕ := successors chunk i instruction++handlers chunk i

/-- The instructions that are no jumps, with their positions and outcomes, executed from a position on. -/
inductive Executes : ℕ → List (ℕ × Instruction × Option ℕ) → Prop
  | start (p : ℕ) : Executes p []
  | last {p i : ℕ} {instruction : Instruction} (h : Arrives chunk p i) (hi : chunk.code[i]? = some instruction) :
      Executes p [(i,instruction,none)]
  | next {p i k q : ℕ} {instruction : Instruction} {trace : List (ℕ × Instruction × Option ℕ)}
      (h : Arrives chunk p i) (hi : chunk.code[i]? = some instruction)
      (hk : (outcomes chunk i instruction)[k]? = some q) (hrest : Executes q trace) :
      Executes p ((i,instruction,some k)::trace)

/-- No jump goes before the start of the code. -/
def Forward : Prop := ∀ (i : ℕ) (offset : Int32), chunk.code[i]? = some (.jump offset) → 0 ≤ (i : ℤ)+offset.toInt

/-- Every chain of jumps ends at an instruction that is no jump. -/
def ChainsEnd : Prop := ∀ i < chunk.code.length, ∃ t, Arrives chunk i t

/-- The exit jump of an object iterator leads directly to where its chain ends, if it ends. -/
def DirectExits : Prop :=
  ∀ i instruction offset t, chunk.code[i]? = some instruction → flow instruction = .step →
    chunk.code[i+1]? = some (.jump offset) → Arrives chunk (i+1) t → jumpTarget (i+2) offset.toInt = t

end

/-! ## Resolution -/

variable {i : ℕ} {offset : Int32}

section

variable {chunk : Chunk} {states : List TargetState} {path : List ℕ} {current : ℕ}

theorem jumpTarget_eq (hi : i < 2 ^ 32) (h : 0 ≤ (i : ℤ)+offset.toInt) :
    jumpTarget (i+1) offset.toInt = ((i : ℤ)+offset.toInt).toNat := by
  have hlt := offset.toInt_lt
  unfold jumpTarget
  rw [show ((i+1 : ℕ) : ℤ)-1+offset.toInt = i+offset.toInt by omega,Int.emod_eq_of_lt h (by omega)]

theorem relativeTarget_eq (hforward : Forward chunk) (hi : chunk.code[i]? = some (.jump offset)) :
    relativeTarget i offset = some (jumpTarget (i+1) offset.toInt) := by
  have hlt : i < chunk.code.length := (List.getElem?_eq_some_iff.mp hi).1
  rw [relativeTarget,if_pos (hforward i offset hi),jumpTarget_eq (hlt.trans chunk.code_lt) (hforward i offset hi)]

/-- A target says where the chain from a position ends. -/
def Correct (chunk : Chunk) (i : ℕ) (target : Option ℕ) : Prop := ∀ t, target = some t ↔ Arrives chunk i t

/-- The marks outside of the loop: what is resolved is right, and nothing is being visited but the path. -/
structure Marks (chunk : Chunk) (states : List TargetState) (path : List ℕ) : Prop where
  length : states.length = chunk.code.length
  visiting : ∀ i, states[i]? = some .visiting → i ∈ path
  resolved : ∀ i target, states[i]? = some (.resolved target) → Correct chunk i target

variable {j : ℕ}

theorem set_cases {state o : TargetState} (h : (states.set i state)[j]? = some o) :
    j = i ∧ o = state ∨ j ≠ i ∧ states[j]? = some o := by
  rw [getElem?_set] at h
  split at h
  next heq =>
    split at h <;> cases h
    exact .inl ⟨heq.symm,rfl⟩
  next hne => exact .inr ⟨Ne.symm hne,h⟩

theorem Marks.visit (h : Marks chunk states path) (i : ℕ) : Marks chunk (states.set i .visiting) (i::path) where
  length := by rw [length_set,h.length]
  visiting j hj := by
    rcases set_cases hj with ⟨rfl,-⟩ | ⟨-,hj⟩
    · exact .head _
    · exact .tail _ (h.visiting j hj)
  resolved j target hj := by
    rcases set_cases hj with ⟨-,⟨⟩⟩ | ⟨-,hj⟩
    exact h.resolved j target hj

variable {target : Option ℕ}

/-- The first position of the path gets its target. -/
theorem Marks.resolve (h : Marks chunk states (i::path)) (hi : Correct chunk i target) :
    Marks chunk (states.set i (.resolved target)) path where
  length := by rw [length_set,h.length]
  visiting j hj := by
    rcases set_cases hj with ⟨-,⟨⟩⟩ | ⟨hne,hj⟩
    exact (mem_cons.mp (h.visiting j hj)).resolve_left hne
  resolved j other hj := by
    rcases set_cases hj with ⟨rfl,⟨⟩⟩ | ⟨-,hj⟩
    · exact hi
    · exact h.resolved j other hj

theorem Marks.resolveAll (h : Marks chunk states path) (hp : ∀ i ∈ path, Correct chunk i target) :
    Marks chunk (path.foldl (fun states index => states.set index (.resolved target)) states) [] := by
  induction path generalizing states with
  | nil => exact h
  | cons _ _ ih =>
    obtain ⟨hi,hp⟩ := forall_mem_cons.mp hp
    exact ih (h.resolve hi) hp

/-- Positions without a mark get none taken away. -/
def Unmarked (states : List TargetState) (i : ℕ) : Prop := states[i]? = some .unknown

theorem Unmarked.of_set {state : TargetState} (hstate : state.isUnknown = false)
    (h : Unmarked (states.set i state) j) : Unmarked states j ∧ j ≠ i := by
  rcases set_cases h with ⟨-,rfl⟩ | ⟨hne,h⟩
  · cases hstate
  · exact ⟨h,hne⟩

theorem Unmarked.of_foldl
    (h : Unmarked (path.foldl (fun states index => states.set index (.resolved target)) states) j) :
    Unmarked states j := by
  induction path generalizing states with
  | nil => exact h
  | cons _ _ ih => exact (ih h).of_set rfl |>.1

section
variable (hforward : Forward chunk)
include hforward

/-- The loop ends within a round for every unmarked position, with the common target of the path. -/
theorem follow_spec {rounds : ℕ} (h : Marks chunk states path)
    (htrail : Trail chunk.code.length (jumpFrom chunk) current path)
    (hrounds : states.countP TargetState.isUnknown < rounds) :
    ∃ ss' path' target, follow chunk.code rounds states current path = some (ss',path',target) ∧
      Marks chunk ss' path' ∧ (∀ i ∈ path', Correct chunk i target) ∧
      ∀ i, Unmarked ss' i → Unmarked states i ∧ i ≠ current := by
  induction rounds generalizing states current path with
  | zero => exact absurd hrounds (Nat.not_lt_zero _)
  | succ rounds ih =>
    unfold follow
    have hl (hmarked : ¬Unmarked states current) (i : ℕ) (hi : Unmarked states i) : Unmarked states i ∧ i ≠ current :=
      ⟨hi,fun heq => hmarked (heq ▸ hi)⟩
    rw [Unmarked] at hl
    cases hcurrent : states[current]? with
    | none =>
      refine ⟨states,path,none,rfl,h,fun i hi t => ⟨nofun,fun harrives => ?_⟩,hl (by rw [hcurrent]; nofun)⟩
      have hlt := ((htrail.reaches_iff hi).mp harrives).start
      rw [← h.length] at hlt
      exact absurd (List.getElem?_eq_none_iff.mp hcurrent) (Nat.not_le.mpr hlt)
    | some state =>
      have hlt : current < states.length := (List.getElem?_eq_some_iff.mp hcurrent).1
      cases state with
      | visiting =>
        refine ⟨states,path,none,rfl,h,fun i hi t => ⟨nofun,fun harrives => ?_⟩,hl (by rw [hcurrent]; nofun)⟩
        exact (htrail.no_end (h.visiting current hcurrent)).elim (absurd harrives) (absurd hi)
      | resolved target =>
        refine ⟨states,path,target,rfl,h,fun i hi t => ?_,hl (by rw [hcurrent]; nofun)⟩
        exact (h.resolved current target hcurrent t).trans (htrail.reaches_iff hi).symm
      | unknown =>
        have hc : current < chunk.code.length := h.length ▸ hlt
        have hcount : (states.set current .visiting).countP TargetState.isUnknown < rounds := by
          have hget : states[current] = .unknown := some_inj.mp ((getElem?_eq_getElem hlt).symm.trans hcurrent)
          have hpos : 0 < states.countP TargetState.isUnknown :=
            countP_pos_iff.mpr ⟨_,getElem_mem hlt,by rw [hget]; rfl⟩
          rw [countP_set hlt,hget]
          simp only [TargetState.isUnknown,if_true,Bool.false_eq_true,if_false]
          omega
        have hnew : ∀ i, Unmarked (states.set current .visiting) i → Unmarked states i ∧ i ≠ current :=
          fun i hi => hi.of_set rfl
        dsimp only
        split
        next offset hj =>
          have hlink : jumpFrom chunk current = some (jumpTarget (current+1) offset.toInt) := by
            rw [jumpFrom,hj]
          obtain ⟨ss',path',target,hfollow,hmarks,hcorrect,hunmarked⟩ :=
            ih (h.visit current) (.pass hc hlink htrail) hcount
          refine ⟨ss',path',target,?_,hmarks,hcorrect,fun i hi => hnew i (hunmarked i hi).1⟩
          rw [relativeTarget_eq hforward hj]
          exact hfollow
        next hn =>
          have hlink : jumpFrom chunk current = none := by
            unfold jumpFrom
            split
            next offset hj => exact absurd hj (hn offset)
            next => rfl
          refine ⟨_,_,_,rfl,h.visit current,fun i hi t => ?_,hnew⟩
          rw [some_inj]
          refine (reaches_of_end hc hlink).symm.trans ?_
          rcases mem_cons.mp hi with rfl | hi
          · exact Iff.rfl
          · exact (htrail.reaches_iff hi).symm

theorem resolveFrom_spec (h : Marks chunk states []) (src : ℕ) :
    ∃ ss', resolveFrom chunk.code states src = some ss' ∧ Marks chunk ss' [] ∧
      ∀ i, Unmarked ss' i → Unmarked states i ∧ i ≠ src := by
  unfold resolveFrom
  split
  next =>
    have hrounds : states.countP TargetState.isUnknown < chunk.code.length+1 :=
      Nat.lt_succ_of_le (h.length ▸ countP_le_length)
    obtain ⟨ss',path,target,hfollow,hmarks,hcorrect,hunmarked⟩ :=
      follow_spec hforward h (.start src) hrounds
    rw [hfollow]
    exact ⟨_,rfl,hmarks.resolveAll hcorrect,fun i hi => hunmarked i hi.of_foldl⟩
  next hmarked =>
    refine ⟨states,rfl,h,fun i hi => ⟨hi,?_⟩⟩
    rintro rfl
    exact hmarked hi

theorem resolveAll_spec (h : Marks chunk states []) (sources : List ℕ) :
    ∃ ss', sources.foldlM (resolveFrom chunk.code) states = some ss' ∧ Marks chunk ss' [] ∧
      ∀ i, Unmarked ss' i → Unmarked states i ∧ i ∉ sources := by
  induction sources generalizing states with
  | nil => exact ⟨states,rfl,h,fun i hi => ⟨hi,not_mem_nil⟩⟩
  | cons src _ ih =>
    obtain ⟨f,hfirst,hmarks,hl⟩ := resolveFrom_spec hforward h src
    obtain ⟨ss',hr,hmarks',hl'⟩ := ih hmarks
    refine ⟨ss',by rw [foldlM_cons,hfirst]; exact hr,hmarks',fun i hi => ?_⟩
    obtain ⟨hi,hnot⟩ := hl' i hi
    exact ⟨(hl i hi).1,not_mem_cons_of_ne_of_not_mem (hl i hi).2 hnot⟩

/-- Every position gets the end of its chain, or no target if its chain has no end. -/
theorem resolveTargets_spec :
    ∃ targets, resolveTargets chunk.code = some targets ∧ targets.length = chunk.code.length ∧
      ∀ i target, targets[i]? = some target → Correct chunk i target := by
  have hstart : Marks chunk (List.replicate chunk.code.length .unknown) [] := by
    refine ⟨length_replicate,fun i hi => ?_,fun i target hi => ?_⟩ <;>
      cases eq_of_mem_replicate (mem_of_getElem? hi)
  obtain ⟨states,hstates,hmarks,hl⟩ := resolveAll_spec hforward hstart (List.range chunk.code.length)
  refine ⟨states.map TargetState.target,by rw [resolveTargets,hstates]; rfl,by rw [length_map,hmarks.length],
    fun i target hi => ?_⟩
  rw [getElem?_map] at hi
  obtain ⟨state,hstate,rfl⟩ := map_eq_some_iff.mp hi
  cases state with
  | resolved target => exact hmarks.resolved i target hstate
  | visiting => cases hmarks.visiting i hstate
  | unknown =>
    have hlt : i < chunk.code.length := hmarks.length ▸ (List.getElem?_eq_some_iff.mp hstate).1
    exact absurd (mem_range.mpr hlt) (hl i hstate).2

end

end

/-! ## Threading -/

section

variable {chunk : Chunk} {targets : List (Option ℕ)}

/-- An instruction stays, or it is a jump that now goes to its target. -/
theorem threadJumps_at (i : ℕ) : (threadJumps chunk targets).code[i]? = chunk.code[i]? ∨
    ∃ (offset : Int32) (t : ℕ), chunk.code[i]? = some (.jump offset) ∧ targets[i]?.join = some t ∧
      relativeTarget i offset ≠ some t ∧ -2 ^ 31 ≤ (t : ℤ)-i ∧ (t : ℤ)-i < 2 ^ 31 ∧
      (threadJumps chunk targets).code[i]? = some (.jump (Int32.ofInt ((t : ℤ)-i))) := by
  have hc : (threadJumps chunk targets).code[i]? = chunk.code[i]?.map (threadJump i targets[i]?.join) :=
    getElem?_mapIdx
  rw [hc]
  cases chunk.code[i]? with
  | none => exact .inl rfl
  | some =>
    rw [map_some]
    unfold threadJump
    split
    next offset =>
      cases htarget : targets[i]?.join with
      | none => exact .inl rfl
      | some t =>
        dsimp only
        split_ifs with hfirst hrange
        · exact .inl rfl
        · exact .inr ⟨offset,t,rfl,rfl,hfirst,hrange.1,hrange.2,rfl⟩
        · exact .inl rfl
    next => exact .inl rfl

variable {t : ℕ}

theorem arrives_of_jump (h : chunk.code[i]? = some (.jump offset)) :
    Arrives chunk i t ↔ Arrives chunk (jumpTarget (i+1) offset.toInt) t :=
  reaches_of_link (List.getElem?_eq_some_iff.mp h).1 (by rw [jumpFrom,h])

theorem jumpTarget_ofInt (hi : i < 2 ^ 32) (hlow : -2 ^ 31 ≤ (t : ℤ)-i) (hhigh : (t : ℤ)-i < 2 ^ 31) :
    jumpTarget (i+1) (Int32.ofInt ((t : ℤ)-i)).toInt = t := by
  have hoffset : (Int32.ofInt ((t : ℤ)-i)).toInt = (t : ℤ)-i := Int32.toInt_ofInt_of_le hlow hhigh
  rw [jumpTarget_eq hi (by rw [hoffset]; omega),hoffset]
  omega

variable (htargets : ∀ i < chunk.code.length, Correct chunk i targets[i]?.join)
include htargets

theorem jumpFrom_threadJumps (i : ℕ) : jumpFrom (threadJumps chunk targets) i = jumpFrom chunk i ∨
    jumpFrom chunk i ≠ none ∧ ∃ t, Arrives chunk i t ∧ jumpFrom (threadJumps chunk targets) i = some t := by
  rcases threadJumps_at i with hsame | ⟨offset,t,hj,ht,-,hlow,hhigh,hj'⟩
  · exact .inl (by rw [jumpFrom,jumpFrom,hsame])
  have hlt : i < chunk.code.length := (List.getElem?_eq_some_iff.mp hj).1
  refine .inr ⟨by rw [jumpFrom,hj]; nofun,t,(htargets i hlt t).mp ht,?_⟩
  rw [jumpFrom,hj']
  exact congrArg some (jumpTarget_ofInt (hlt.trans chunk.code_lt) hlow hhigh)

/-- Threading changes no arrival. -/
theorem arrives_threadJumps {p : ℕ} : Arrives (threadJumps chunk targets) p t ↔ Arrives chunk p t := by
  have hlen : (threadJumps chunk targets).code.length = chunk.code.length := length_mapIdx
  unfold Arrives
  rw [hlen]
  exact reaches_of_shortcuts (jumpFrom_threadJumps htargets)

/-- Two positions, before and after threading, from which control arrives at the same instruction. -/
def SameArrival (chunk chunk' : Chunk) (q q' : ℕ) : Prop := ∀ t, Arrives chunk q t ↔ Arrives chunk' q' t

theorem forall₂_sameArrival (positions : List ℕ) :
    List.Forall₂ (SameArrival chunk (threadJumps chunk targets)) positions positions :=
  forall₂_same.mpr fun _ _ _ => (arrives_threadJumps htargets).symm

theorem foreachTargets_threadJumps (i : ℕ) :
    List.Forall₂ (SameArrival chunk (threadJumps chunk targets)) (foreachTargets chunk i)
      (foreachTargets (threadJumps chunk targets) i) := by
  rcases threadJumps_at (i + 1) with hsame | ⟨offset,t,hj,-,-,-,-,hj'⟩
  · rw [foreachTargets,foreachTargets,exitOffset?,exitOffset?,hsame]
    exact forall₂_sameArrival htargets _
  · simp only [foreachTargets,exitOffset?,hj,hj',map_some,toList_some]
    -- both exits are the targets of the jump behind the step
    exact .cons (fun _ => (arrives_threadJumps htargets).symm) (.cons (fun _ => (arrives_of_jump hj).symm.trans
      ((arrives_threadJumps htargets).symm.trans (arrives_of_jump hj'))) .nil)

/-- Each outcome of an instruction arrives where it did. -/
theorem outcomes_threadJumps (hforward : Forward chunk) (hexits : DirectExits chunk)
    {instr : Instruction} (hi : chunk.code[i]? = some instr) :
    List.Forall₂ (SameArrival chunk (threadJumps chunk targets)) (outcomes chunk i instr)
      (outcomes (threadJumps chunk targets) i instr) := by
  refine rel_append ?_ (forall₂_sameArrival htargets (handlers chunk i))
  unfold successors
  cases hflow : flow instr with
  | test destination =>
    have hfused : fusedBranch (threadJumps chunk targets) i destination = fusedBranch chunk i destination := by
      rcases threadJumps_at (i + 1) with hsame | ⟨offset,t,hj,-,-,-,-,hj'⟩
      · rw [fusedBranch,fusedBranch,hsame]
      · simp only [fusedBranch,hj,hj']
    dsimp only
    rw [hfused]
    exact forall₂_sameArrival htargets _
  | arrayStep => exact foreachTargets_threadJumps htargets i
  | step =>
    -- an exit that is its own end keeps its offset
    have hsame : (threadJumps chunk targets).code[i+1]? = chunk.code[i+1]? := by
      rcases threadJumps_at (i + 1) with hsame | ⟨offset,t,hj,ht,hne,-⟩
      · exact hsame
      have harrives := (htargets _ (List.getElem?_eq_some_iff.mp hj).1 t).mp ht
      rw [relativeTarget_eq hforward hj] at hne
      exact absurd (congrArg some (hexits i instr offset t hi hflow hj harrives)) hne
    refine .cons (fun _ => (arrives_threadJumps htargets).symm)
      (rel_append (foreachTargets_threadJumps htargets i) ?_)
    rw [iteratorExhausted,iteratorExhausted,exitOffset?,exitOffset?,hsame]
    exact forall₂_sameArrival htargets _
  | _ => exact forall₂_sameArrival htargets _

end

/-! ## Whole executions -/

section

variable {chunk chunk' : Chunk} {p p' : ℕ} {trace : List (ℕ × Instruction × Option ℕ)}

theorem exists_at {α : Type} {R : α → α → Prop} {l l' : List α} {k : ℕ} {a : α} (h : List.Forall₂ R l l')
    (hk : l[k]? = some a) : ∃ b, l'[k]? = some b ∧ R a b := by
  induction h generalizing k with
  | nil => cases hk
  | cons hab _ ih =>
    cases k with
    | zero =>
      cases hk
      exact ⟨_,rfl,hab⟩
    | succ => exact ih hk

/-- An execution is followed by a chunk with the same instructions whose outcomes arrive at the same places. -/
theorem Executes.transfer (hc : ∀ i instr, jumpFrom chunk i = none → chunk.code[i]? = some instr →
      chunk'.code[i]? = some instr ∧
      List.Forall₂ (SameArrival chunk chunk') (outcomes chunk i instr) (outcomes chunk' i instr))
    (h : Executes chunk p trace) (hp : SameArrival chunk chunk' p p') : Executes chunk' p' trace := by
  induction h generalizing p' with
  | start => exact .start p'
  | last harrives hi => exact .last ((hp _).mp harrives) (hc _ _ harrives.ends.2 hi).1
  | next harrives hi hk _ ih =>
    obtain ⟨hi',houtcomes⟩ := hc _ _ harrives.ends.2 hi
    obtain ⟨q',hk',hq⟩ := exists_at houtcomes hk
    exact .next ((hp _).mp harrives) hi' hk' (ih hq)

theorem executes_threadJumps {targets : List (Option ℕ)} (hforward : Forward chunk) (hexits : DirectExits chunk)
    (htargets : ∀ i < chunk.code.length, Correct chunk i targets[i]?.join) :
    Executes (threadJumps chunk targets) p trace ↔ Executes chunk p trace := by
  have hsame : ∀ i, jumpFrom chunk i = none → (threadJumps chunk targets).code[i]? = chunk.code[i]? := by
    intro i hn
    rcases threadJumps_at i with hsame | ⟨offset,t,hj,-⟩
    · exact hsame
    · rw [jumpFrom,hj] at hn
      cases hn
  have hn : ∀ i, jumpFrom (threadJumps chunk targets) i = none → jumpFrom chunk i = none := by
    intro i hi
    rcases jumpFrom_threadJumps htargets i with heq | ⟨-,t,-,heq⟩
    · exact heq.symm.trans hi
    · cases heq.symm.trans hi
  refine ⟨fun h => h.transfer (fun i instr hj hi => ?_) (fun _ => arrives_threadJumps htargets),
    fun h => h.transfer (fun i instr hj hi => ?_) (fun _ => (arrives_threadJumps htargets).symm)⟩
  · rw [hsame i (hn i hj)] at hi
    exact ⟨hi,(outcomes_threadJumps htargets hforward hexits hi).flip.imp fun _ _ h t => (h t).symm⟩
  · exact ⟨(hsame i hj).trans hi,outcomes_threadJumps htargets hforward hexits hi⟩

/-- Every position is assigned the first instruction that is no jump on its chain, or nothing if its chain has no end,
and the threaded chunk executes what the chunk did, if the exits of object iterators are direct. -/
theorem jump_threading_preserves (chunk : Chunk) (hforward : Forward chunk) :
    (∃ targets, resolveTargets chunk.code = some targets ∧ targets.length = chunk.code.length ∧
      (∀ i target, targets[i]? = some target → ∀ t, target = some t ↔ Arrives chunk i t) ∧
      ((∀ i < chunk.code.length, ∃ t, targets[i]? = some (some t) ∧ Arrives chunk i t) ↔ ChainsEnd chunk)) ∧
    ∀ jumpThreading, ∃ chunk', optimizeChunk jumpThreading chunk = some chunk' ∧
      (DirectExits chunk → ∀ p trace, Executes chunk' p trace ↔ Executes chunk p trace) := by
  obtain ⟨targets,hresolve,hlength,hcorrect⟩ := resolveTargets_spec hforward
  have hassigned (hends : ChainsEnd chunk) (i : ℕ) (hi : i < chunk.code.length) :
      ∃ t, targets[i]? = some (some t) ∧ Arrives chunk i t := by
    obtain ⟨t,ht⟩ := hends i hi
    have hget : targets[i]? = some targets[i] := getElem?_eq_getElem (hlength ▸ hi)
    exact ⟨t,hget.trans (congrArg some ((hcorrect i _ hget t).mpr ht)),ht⟩
  refine ⟨⟨targets,hresolve,hlength,hcorrect,fun h i hi => (h i hi).imp fun _ => And.right,hassigned⟩,
    fun jumpThreading => ?_⟩
  unfold optimizeChunk
  split
  next => exact ⟨chunk,rfl,fun _ _ _ => Iff.rfl⟩
  next =>
    refine ⟨threadJumps chunk targets,by rw [hresolve]; rfl,fun hexits p trace => ?_⟩
    refine executes_threadJumps hforward hexits fun i hi => ?_
    have hget : targets[i]? = some targets[i] := getElem?_eq_getElem (hlength ▸ hi)
    rw [hget]
    exact hcorrect i _ hget

end

/-- A loop over an array whose exit goes through a second jump. -/
def arrayLoop : Chunk :=
  chunkOf [.vecForeachNext 0 1 2 .generic,.jump 3,.drainFinalizers,.jump (-3),.jump 1,.returnNull] (by decide)

theorem chainsEnd_array : ChainsEnd arrayLoop := by
  have hreturn : Arrives arrayLoop 5 5 := .stop (by decide) rfl
  have hstep : Arrives arrayLoop 0 0 := .stop (by decide) rfl
  have hsecond : Arrives arrayLoop 4 5 := .follow (by decide) rfl hreturn
  intro i hi
  rcases i with _ | _ | _ | _ | _ | _ | i
  · exact ⟨0,hstep⟩
  · exact ⟨5,.follow (by decide) rfl hsecond⟩
  · exact ⟨2,.stop (by decide) rfl⟩
  · exact ⟨0,.follow (by decide) rfl hstep⟩
  · exact ⟨5,hsecond⟩
  · exact ⟨5,hreturn⟩
  · exact absurd hi (by simp [arrayLoop,chunkOf])

theorem jump_threading_preserves_array : (∃ targets, resolveTargets arrayLoop.code = some targets ∧
      ∀ i < 6, ∃ t, targets[i]? = some (some t) ∧ Arrives arrayLoop i t) ∧
    ∃ chunk', optimizeChunk true arrayLoop = some chunk' ∧ chunk' ≠ arrayLoop ∧
      ∀ p trace, Executes chunk' p trace ↔ Executes arrayLoop p trace := by
  have hforward : Forward arrayLoop := by
    intro i offset h
    rcases i with _ | _ | _ | _ | _ | _ | i <;> cases h <;> decide
  have hexits : DirectExits arrayLoop := by
    intro i instruction offset t hi hflow
    rcases i with _ | _ | _ | _ | _ | _ | i <;> cases hi <;> cases hflow
  obtain ⟨⟨targets,hresolve,-,-,hassigned⟩,hpreserves⟩ := jump_threading_preserves arrayLoop hforward
  obtain ⟨chunk',hchunk,hexecutes⟩ := hpreserves true
  have hcode : (optimizeChunk true arrayLoop).map (·.code) =
      some [.vecForeachNext 0 1 2 .generic,.jump 4,.drainFinalizers,.jump (-3),.jump 1,.returnNull] := rfl
  refine ⟨⟨targets,hresolve,hassigned.mpr chainsEnd_array⟩,chunk',hchunk,?_,hexecutes hexits⟩
  rintro rfl
  rw [hchunk] at hcode
  cases hcode

/-- The same loop over an object, with an instruction behind the second jump. -/
def objectLoop : Chunk :=
  chunkOf [.foreachNext 0 1 2,.jump 3,.drainFinalizers,.jump (-3),.jump 2,.drainFinalizers,.returnNull] (by decide)

/-- A cycle gets no target, and the exhausted iterator, which goes to the instruction before the target of its exit,
starts again before threading and leaves the loop after it. -/
theorem threading_moves_exhausted_iterator : resolveTargets [.jump 1,.jump (-1)] = some [none,none] ∧
    ∃ chunk', optimizeChunk true objectLoop = some chunk' ∧
      Executes objectLoop 0 [(0,.foreachNext 0 1 2,some 3),(0,.foreachNext 0 1 2,none)] ∧
      ¬Executes chunk' 0 [(0,.foreachNext 0 1 2,some 3),(0,.foreachNext 0 1 2,none)] := by
  have hhead : Arrives objectLoop 0 0 := .stop (by decide) rfl
  refine ⟨rfl,threadJumps objectLoop [some 0,some 6,some 2,some 0,some 6,some 5,some 6],rfl,
    .next hhead rfl rfl (.last (.follow (j := 0) (by decide) rfl hhead) rfl),fun h => ?_⟩
  cases h with
  | next _ _ hk hrest =>
    cases hk
    cases hrest with
    | last harrives => cases (reaches_of_end (by decide) rfl).mp harrives

end Whim.JumpThreading
