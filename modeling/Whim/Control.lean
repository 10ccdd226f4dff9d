import Whim.Verify
import Whim.Validation

/-!
# Control flow of verified chunks

Where the interpreter continues after an instruction. The fused steps of a `foreach` read their exit jump without a
check: control stays in verified code exactly when these exits have the expected form.
-/

namespace Whim.Control

open Verify List Validation

/-- `jump_target`, an `i64` cast to `usize`. -/
def jumpTarget (nextIp : ℕ) (offset : ℤ) : ℕ := (((nextIp : ℤ)-1+offset) % 2 ^ 64).toNat

/-- All relative targets of a table, the default last. -/
def switchOffsets : SwitchTable → List Int32
  | .int _ targets default | .stringByte _ targets default | .bool targets default => targets++[default]
  | .pattern _ targets default | .dictionaryShape _ _ targets default => targets++[default]
  | .float _ targets default => targets++[default]
  | .string arms _ default => arms.map Prod.snd++[default]

/-- The control effect of an instruction. -/
inductive Flow
  | stop | next
  | goto (offset : ℤ)
  | branch (offsets : List ℤ)
  | switch (table : SwitchTableIndex)
  | test (destination : Register)
  | arrayStep | step

/-- How the interpreter moves its instruction pointer. What is not listed falls through. -/
def flow : Instruction → Flow
  | .return_ _ | .returnUnchecked _ | .returnReferenceUnchecked _ | .returnScalarUnchecked _ => .stop
  | .returnIntegerUnchecked _ _ | .returnPairUnchecked _ _ | .returnNull | .returnNullUnchecked => .stop
  | .throw _ | .rethrow | .throwUnhandledMatch _ | .panic _ | .exit _ => .stop
  | .jump offset | .numericRegionJump offset => .goto offset.toInt
  | .incrementJump _ _ offset => .goto offset.toInt
  | .jumpIfFalse _ offset | .jumpIfTrue _ offset | .jumpIfNull _ offset | .jumpIfNotNull _ offset
  | .fillDefault _ offset | .floatSquaresSumBranch _ offset => .branch [offset.toInt]
  | .jumpUnless _ _ _ offset | .intJumpUnless _ _ _ offset | .uintJumpUnless _ _ _ offset
  | .stringJumpUnless _ _ _ offset | .jumpUnlessConstant _ _ _ offset | .intJumpUnlessImmediate _ _ _ offset
  | .uintJumpUnlessImmediate _ _ _ offset | .stringByteJumpUnlessEqual _ _ _ offset
  | .stringByteJumpUnlessNotEqual _ _ _ offset | .integerRangeJumpIf _ _ offset _
  | .integerRangeJumpUnless _ _ offset _ | .coalesce _ _ offset | .staticPropertyCoalesce _ _ offset
  | .counterLoop _ _ _ offset | .intCounterLoop _ _ _ offset | .uintCounterLoop _ _ _ offset
  | .numericLoop _ _ _ offset | .intNumericLoop _ _ _ offset | .preparedIntNumericLoop _ offset
  | .intStepLoop _ offset => .branch [offset.toInt]
  | .stringIndexCoalesce _ _ _ offset | .indexCoalesce _ _ _ offset | .vecIndexCoalesce _ _ _ offset
  | .dictIndexCoalesceIntKey _ _ _ offset | .dictIndexCoalesceUintKey _ _ _ offset
  | .dictIndexCoalesceStringKey _ _ _ offset | .propertyCoalesce _ _ _ offset
  | .propertyCoalesceUnchecked _ _ _ offset => .branch [offset.toInt32.toInt]
  | .boolPatternBranch _ falseOffset defaultOffset => .branch [falseOffset.toInt,defaultOffset.toInt]
  | .switchBool _ table | .switchInt _ table | .switchFloat _ table | .switchString _ table
  | .switchPattern _ table | .switchTuplePattern _ _ table => .switch table
  | .is destination _ _ => .test destination
  | .vecForeachNext _ _ _ _ | .dictForeachNext _ _ _ _ => .arrayStep
  | .foreachNext _ _ _ => .step
  | _ => .next

section

variable (chunk : Chunk) (i : ℕ)

def switchTargets (table : SwitchTableIndex) : List ℕ :=
  match chunk.switchTables[table.toNat]? with
  | some table => (switchOffsets table).map fun offset => jumpTarget (i+1) offset.toInt
  | none => []

/-- The conditional jump behind a type test on the tested register is executed with the test. -/
def fusedBranch (destination : Register) : List ℕ :=
  match chunk.code[i+1]? with
  | some (.jumpIfFalse condition offset) | some (.jumpIfTrue condition offset) =>
    if condition = destination then [jumpTarget (i+2) offset.toInt,i+2] else []
  | _ => []

/-- `fused_foreach_exit_offset`; without a jump at `i + 1` the behaviour is undefined. -/
def exitOffset? : Option ℤ :=
  match chunk.code[i+1]? with
  | some (.jump offset) => some offset.toInt
  | _ => none

/-- Behind the exit jump after an element, at its target on exhaustion. -/
def foreachTargets : List ℕ := (i+2)::((exitOffset? chunk i).map fun offset => jumpTarget (i+2) offset).toList

/-- `return_iterator_exhausted`, which stores the position in the frame as a `u32`. -/
def iteratorExhausted : List ℕ := ((exitOffset? chunk i).map fun offset => jumpTarget (i+1) offset % 2 ^ 32).toList

/-- The positions at which the interpreter may continue after instruction `i` without unwinding. -/
def successors (instruction : Instruction) : List ℕ :=
  match flow instruction with
  | .stop => []
  | .next => [i+1]
  | .goto offset => [jumpTarget (i+1) offset]
  | .branch offsets => (i+1)::offsets.map (jumpTarget (i+1))
  | .switch table => switchTargets chunk i table
  | .test destination => (i+1)::fusedBranch chunk i destination
  | .arrayStep => foreachTargets chunk i
  -- the step of an object iterator returns to the instruction itself
  | .step => i::(foreachTargets chunk i++iteratorExhausted chunk i)

end

def isForeachNext : Instruction → Bool
  | .foreachNext _ _ _ | .vecForeachNext _ _ _ _ | .dictForeachNext _ _ _ _ => true
  | _ => false

/-- Control stays in the code and every `foreach` step is followed by its exit jump. -/
def Safe (chunk : Chunk) : Prop :=
  ∀ i instruction, chunk.code[i]? = some instruction →
    (∀ p ∈ successors chunk i instruction, p < chunk.code.length) ∧
    (isForeachNext instruction → ∃ offset, chunk.code[i+1]? = some (.jump offset))

/-- The exit jump directly follows each step of a `foreach`, the loop body follows the jump, and an object
iterator does not exit to the start of the code. -/
def ExitJumps (chunk : Chunk) : Prop :=
  ∀ i instruction, chunk.code[i]? = some instruction → isForeachNext instruction →
    chunk.code[i+1]? ≠ some .drainFinalizers ∧ i+2 ≠ chunk.code.length ∧
    (flow instruction = .step → ∀ offset, exitOffset? chunk i = some offset → (i : ℤ)+1+offset ≠ 0)

namespace Flow

/-- The relative targets in the instruction word. -/
def offsets : Flow → List ℤ
  | .goto offset => [offset]
  | .branch offsets => offsets
  | _ => []

def fallsThrough : Flow → Bool
  | .stop | .goto _ => false
  | _ => true

def isForeachNext : Flow → Bool
  | .arrayStep | .step => true
  | _ => false

end Flow

/-- The relative target in an operand. -/
def offset? : InstructionOperand → Option ℤ
  | .jump offset => some offset.toInt
  | .relativeTarget offset => some offset.toInt
  | _ => none

/-- The verifier visits the targets the interpreter uses. -/
theorem flow_offsets (instr : Instruction) : (flow instr).offsets = instr.operands.filterMap offset? := by
  cases instr <;> rfl

theorem flow_isForeachNext (instr : Instruction) : (flow instr).isForeachNext = isForeachNext instr := by
  cases instr <;> rfl

theorem flow_terminator {instr : Instruction} (h : isTerminator instr) : (flow instr).fallsThrough = false := by
  unfold isTerminator at h
  split at h
  all_goals first | rfl | contradiction

section

variable (chunk : Chunk) (i : ℕ) (xxh3 : List UInt8 → UInt64) {instr : Instruction}

theorem verifySpecific_switch {table : SwitchTableIndex} (h : flow instr = .switch table) :
    ∃ kind, verifySpecific chunk i xxh3 instr = verifySwitch chunk i xxh3 kind table := by
  cases instr <;> cases h <;> exact ⟨_,rfl⟩

theorem verifySpecific_foreachNext (h : isForeachNext instr) :
    verifySpecific chunk i xxh3 instr = verifyForeachNext chunk i := by
  unfold isForeachNext at h
  split at h
  all_goals first | rfl | contradiction

end

/-- A relative target inside the code. -/
def InCode (chunk : Chunk) (i : ℕ) (offset : ℤ) : Prop := 0 ≤ (i : ℤ)+offset ∧ (i : ℤ)+offset < chunk.code.length

section
variable {chunk : Chunk} {i : ℕ} {offset : ℤ} (h : InCode chunk i offset)
include h

theorem InCode.jumpTarget_eq : (jumpTarget (i+1) offset : ℤ) = i+offset := by
  have hlen := chunk.code_lt
  unfold InCode at h
  unfold jumpTarget
  omega

theorem InCode.jumpTarget_lt : jumpTarget (i+1) offset < chunk.code.length := by
  have := h.jumpTarget_eq
  have := h.2
  omega

end

section

variable {chunk : Chunk} {xxh3 : List UInt8 → UInt64} {i : ℕ} {instr : Instruction}

theorem verify_parts (h : verify xxh3 chunk = .ok ()) : (∀ i instr, chunk.code[i]? = some instr →
      verifyInstruction chunk i xxh3 instr = .ok ()) ∧ verifyLast chunk = .ok () ∧ verifyCatchTable chunk = .ok () := by
  simp only [verify,bind_eq_ok,forM_eq_forM,exists_unit_eq_ok,
    exists_and_right,forM_eq_ok] at h
  refine ⟨fun i instr hi => ?_,h.2.2⟩
  exact h.2.1 (instr,i) (mk_mem_zipIdx_iff_getElem?.mpr hi)

theorem checkRelativeTarget_ok {offset : ℤ} :
    checkRelativeTarget chunk i offset = .ok () ↔ InCode chunk i offset := by
  simp [checkRelativeTarget,InCode]

theorem verifyOperand_inCode {operand : InstructionOperand} {offset : ℤ}
    (h : verifyOperand chunk i operand = .ok ()) (ho : offset? operand = some offset) : InCode chunk i offset := by
  cases operand <;> simp only [offset?,reduceCtorEq,Option.some.injEq] at ho
  all_goals
    subst ho
    exact checkRelativeTarget_ok.mp h

theorem verifyInstruction_ok (h : verifyInstruction chunk i xxh3 instr = .ok ()) :
    (∀ offset ∈ (flow instr).offsets, InCode chunk i offset) ∧ verifySpecific chunk i xxh3 instr = .ok () := by
  simp only [verifyInstruction,bind_eq_ok,forM_eq_forM,exists_unit_eq_ok,
    exists_and_right,forM_eq_ok] at h
  refine ⟨fun offset hoffset => ?_,h.2⟩
  rw [flow_offsets,mem_filterMap] at hoffset
  obtain ⟨operand,hmem,ho⟩ := hoffset
  exact verifyOperand_inCode (h.1 operand hmem) ho

theorem checkTargets_ok {targets : List Int32} {default : Int32} (h : checkTargets chunk i targets default = .ok ()) :
    ∀ offset ∈ targets++[default], InCode chunk i offset.toInt := by
  simp only [checkTargets,bind_eq_ok,forM_eq_forM,exists_unit_eq_ok,
    exists_and_right,forM_eq_ok,checkRelativeTarget_ok] at h
  intro offset hoffset
  rcases mem_append.mp hoffset with hmem | hmem
  · exact h.1 offset hmem
  · rw [mem_singleton.mp hmem]
    exact h.2

variable {kind : SwitchKind}

theorem verifySwitchTable_ok {table : SwitchTable}
    (h : verifySwitchTable chunk i xxh3 kind table = .ok ()) :
    ∀ offset ∈ switchOffsets table, InCode chunk i offset.toInt := by
  cases table <;>
    simp only [verifySwitchTable,bind_eq_ok,exists_unit_eq_ok,exists_and_right]
      at h
  case int | stringByte => exact checkTargets_ok h
  case string | bool | float | dictionaryShape => exact checkTargets_ok h.2
  case pattern =>
    obtain ⟨_,_,_,h⟩ := h
    exact checkTargets_ok h

theorem switchTargets_lt {table : SwitchTableIndex}
    (h : verifySwitch chunk i xxh3 kind table = .ok ()) :
    ∀ p ∈ switchTargets chunk i table, p < chunk.code.length := by
  simp only [verifySwitch,checkSwitchTable,checkIndex,bind_eq_ok,exists_unit_eq_ok,
    exists_and_right] at h
  obtain ⟨entry,hentry,-,h⟩ := h
  intro p hp
  unfold switchTargets at hp
  cases ht : chunk.switchTables[table.toNat]? with
  | none => simp [ht] at hp
  | some =>
    simp only [ht,Except.ok.injEq] at hentry
    subst hentry
    simp only [ht,mem_map] at hp
    obtain ⟨offset,hoffset,rfl⟩ := hp
    exact (verifySwitchTable_ok h offset hoffset).jumpTarget_lt

/-- Only the last instruction has no successor in place, and it does not fall through. -/
theorem fallsThrough_lt (hl : verifyLast chunk = .ok ()) (hi : chunk.code[i]? = some instr)
    (hf : (flow instr).fallsThrough) : i+1 < chunk.code.length := by
  have hlt := (List.getElem?_eq_some_iff.mp hi).1
  by_contra hge
  have hend : i = chunk.code.length-1 := by omega
  have hget : chunk.code.getLast? = some instr := by rw [getLast?_eq_getElem?,← hend,hi]
  have hterm : isTerminator instr := by simpa [verifyLast,hget] using hl
  simp [flow_terminator hterm] at hf

theorem fusedBranch_lt (hc : ∀ i instr, chunk.code[i]? = some instr →
      verifyInstruction chunk i xxh3 instr = .ok ()) (hl : verifyLast chunk = .ok ())
    {destination : Register} : ∀ p ∈ fusedBranch chunk i destination, p < chunk.code.length := by
  have key : ∀ condition offset, (chunk.code[i+1]? = some (.jumpIfFalse condition offset) ∨
      chunk.code[i+1]? = some (.jumpIfTrue condition offset)) →
      i+2 < chunk.code.length ∧ InCode chunk (i+1) offset.toInt := by
    rintro condition offset (h | h)
    · exact ⟨fallsThrough_lt hl h rfl,(verifyInstruction_ok (hc _ _ h)).1 _ (mem_singleton.mpr rfl)⟩
    · exact ⟨fallsThrough_lt hl h rfl,(verifyInstruction_ok (hc _ _ h)).1 _ (mem_singleton.mpr rfl)⟩
  intro p hp
  unfold fusedBranch at hp
  split at hp
  all_goals try split at hp
  all_goals simp only [mem_cons,not_mem_nil,or_false] at hp
  case h_1.isTrue condition offset h _ =>
    obtain ⟨hnext,hin⟩ := key condition offset (.inl h)
    rcases hp with rfl | rfl
    · exact hin.jumpTarget_lt
    · exact hnext
  case h_2.isTrue condition offset h _ =>
    obtain ⟨hnext,hin⟩ := key condition offset (.inr h)
    rcases hp with rfl | rfl
    · exact hin.jumpTarget_lt
    · exact hnext

/-- Without a `DrainFinalizers` in between the verifier has seen the jump the interpreter reads. -/
theorem verifyForeachNext_ok (h : verifyForeachNext chunk i = .ok ())
    (hd : chunk.code[i+1]? ≠ some .drainFinalizers) : ∃ offset, chunk.code[i+1]? = some (.jump offset) := by
  unfold verifyForeachNext at h
  split at h
  · contradiction
  dsimp only at h
  split at h
  · next offset hjump => exact ⟨offset,hjump⟩
  · contradiction

section
variable {offset : JumpOffset} (hj : chunk.code[i+1]? = some (.jump offset)) (hin : InCode chunk (i+1) offset.toInt)
include hj hin

theorem foreachTargets_lt_iff : (∀ p ∈ foreachTargets chunk i, p < chunk.code.length) ↔ i+2 ≠ chunk.code.length := by
  have hlt := (List.getElem?_eq_some_iff.mp hj).1
  have htarget : jumpTarget (i+2) offset.toInt < chunk.code.length := hin.jumpTarget_lt
  simp only [foreachTargets,exitOffset?,hj,Option.map_some,Option.toList_some,mem_cons,
    not_mem_nil,or_false,forall_eq_or_imp,forall_eq]
  omega

/-- One position too early: an exit to the start of the code leaves it. -/
theorem iteratorExhausted_lt_iff :
    (∀ p ∈ iteratorExhausted chunk i, p < chunk.code.length) ↔ (i : ℤ)+1+offset.toInt ≠ 0 := by
  have hlen := chunk.code_lt
  unfold InCode at hin
  simp only [iteratorExhausted,exitOffset?,hj,Option.map_some,Option.toList_some,mem_singleton,
    forall_eq,jumpTarget]
  omega

end

theorem successors_lt (hc : ∀ i instr, chunk.code[i]? = some instr →
      verifyInstruction chunk i xxh3 instr = .ok ()) (hl : verifyLast chunk = .ok ())
    (hi : chunk.code[i]? = some instr) (hf : isForeachNext instr = false) :
    ∀ p ∈ successors chunk i instr, p < chunk.code.length := by
  obtain ⟨hoffsets,hspecific⟩ := verifyInstruction_ok (hc i instr hi)
  have hnext := fallsThrough_lt hl hi
  rw [← flow_isForeachNext] at hf
  unfold successors
  cases hflow : flow instr <;> rw [hflow] at hoffsets hnext hf
  case stop => simp
  case next => simpa using hnext rfl
  case goto offset => simpa using (hoffsets offset (mem_singleton.mpr rfl)).jumpTarget_lt
  case branch =>
    simp only [mem_cons,mem_map,forall_eq_or_imp]
    refine ⟨hnext rfl,?_⟩
    rintro p ⟨offset,hoffset,rfl⟩
    exact (hoffsets offset hoffset).jumpTarget_lt
  case switch =>
    obtain ⟨kind,heq⟩ := verifySpecific_switch chunk i xxh3 hflow
    exact switchTargets_lt (heq ▸ hspecific)
  case test =>
    simp only [mem_cons,forall_eq_or_imp]
    exact ⟨hnext rfl,fusedBranch_lt hc hl⟩
  case arrayStep | step => contradiction

theorem foreachNext_flow (hf : isForeachNext instr) : flow instr = .arrayStep ∨ flow instr = .step := by
  rw [← flow_isForeachNext] at hf
  cases hflow : flow instr <;> rw [hflow] at hf <;> first | contradiction | simp

/-- The step of a `foreach` with its exit jump in place. -/
theorem foreachNext_successors_lt_iff {offset : JumpOffset} (hf : isForeachNext instr)
    (hi : chunk.code[i]? = some instr) (hj : chunk.code[i+1]? = some (.jump offset))
    (hin : InCode chunk (i+1) offset.toInt) :
    (∀ p ∈ successors chunk i instr, p < chunk.code.length) ↔ i+2 ≠ chunk.code.length ∧
      (flow instr = .step → (i : ℤ)+1+offset.toInt ≠ 0) := by
  have hlt := (List.getElem?_eq_some_iff.mp hi).1
  unfold successors
  rcases foreachNext_flow hf with hflow | hflow
  · simp [hflow,foreachTargets_lt_iff hj hin]
  · simp only [hflow,mem_cons,mem_append,or_imp,forall_and,forall_eq,hlt,true_and,
      foreachTargets_lt_iff hj hin,iteratorExhausted_lt_iff hj hin,forall_const]

end

section

variable {chunk : Chunk} {xxh3 : List UInt8 → UInt64}

section
variable (h : verify xxh3 chunk = .ok ())
include h

theorem jump_inCode {i : ℕ} {offset : JumpOffset}
    (hj : chunk.code[i]? = some (.jump offset)) : InCode chunk i offset.toInt :=
  (verifyInstruction_ok ((verify_parts h).1 _ _ hj)).1 _ (mem_singleton.mpr rfl)

theorem Safe.exitJumps (hsafe : Safe chunk) : ExitJumps chunk := by
  intro i instr hi hf
  obtain ⟨hsucc,hjump⟩ := hsafe i instr hi
  obtain ⟨offset,hj⟩ := hjump hf
  obtain ⟨hlen,hstart⟩ := (foreachNext_successors_lt_iff hf hi hj (jump_inCode h hj)).mp hsucc
  refine ⟨by simp [hj],hlen,fun hflow offset' hoffset => ?_⟩
  simp only [exitOffset?,hj,Option.some.injEq] at hoffset
  rw [← hoffset]
  exact hstart hflow

theorem ExitJumps.safe (hexit : ExitJumps chunk) : Safe chunk := by
  intro i instr hi
  obtain ⟨hc,hl,-⟩ := verify_parts h
  cases hf : isForeachNext instr with
  | false => exact ⟨successors_lt hc hl hi hf,by simp⟩
  | true =>
    obtain ⟨hdrain,hlen,hstart⟩ := hexit i instr hi hf
    have hspecific := (verifyInstruction_ok (hc i instr hi)).2
    rw [verifySpecific_foreachNext chunk i xxh3 hf] at hspecific
    obtain ⟨offset,hj⟩ := verifyForeachNext_ok hspecific hdrain
    refine ⟨(foreachNext_successors_lt_iff hf hi hj (jump_inCode h hj)).mpr ⟨hlen,fun hflow => ?_⟩,
      fun _ => ⟨offset,hj⟩⟩
    exact hstart hflow _ (by simp [exitOffset?,hj])

end

end

theorem verify_safe_iff (xxh3 : List UInt8 → UInt64) (chunk : Chunk) (h : verify xxh3 chunk = .ok ()) :
    Safe chunk ↔ ExitJumps chunk :=
  ⟨Safe.exitJumps h,ExitJumps.safe h⟩

/-- A loop over an array in the first register. -/
def loopCode : List Instruction :=
  [.foreachInit 0 1 noRegister,.vecForeachNext 0 noRegister 2 .generic,.jump 2,.jump (-2),.returnNull]

theorem verify_safe_iff_loop : verify (fun _ => 0) (chunkOf loopCode (by decide)) = .ok () ∧
    (Safe (chunkOf loopCode (by decide)) ↔ ExitJumps (chunkOf loopCode (by decide))) :=
  ⟨rfl,verify_safe_iff (fun _ => 0) _ rfl⟩

/-- A `DrainFinalizers` before the exit jump, a loop without a body behind the jump, and an iterator that
exits to the start of the code: the verifier accepts all three. -/
theorem accepted_not_safe :
    (verify (fun _ => 0) (chunkOf [.foreachNext 0 1 2,.drainFinalizers,.jump (-2)] (by decide)) = .ok () ∧
      ¬Safe (chunkOf [.foreachNext 0 1 2,.drainFinalizers,.jump (-2)] (by decide))) ∧
    (verify (fun _ => 0) (chunkOf [.returnNull,.foreachNext 0 1 2,.jump (-1)] (by decide)) = .ok () ∧
      ¬Safe (chunkOf [.returnNull,.foreachNext 0 1 2,.jump (-1)] (by decide))) ∧
    (verify (fun _ => 0) (chunkOf [.foreachNext 0 1 2,.jump (-1),.returnNull] (by decide)) = .ok () ∧
      ¬Safe (chunkOf [.foreachNext 0 1 2,.jump (-1),.returnNull] (by decide))) := by
  refine ⟨⟨rfl,fun h => ?_⟩,⟨rfl,fun h => ?_⟩,⟨rfl,fun h => ?_⟩⟩
  · obtain ⟨_,hjump⟩ := (h 0 _ rfl).2 rfl
    cases hjump
  · exact absurd ((h 1 _ rfl).1 3 (by decide)) (by decide)
  · exact absurd ((h 0 _ rfl).1 (2 ^ 32-1) (by decide)) (by decide)

end Whim.Control
