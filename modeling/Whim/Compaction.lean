import Whim.Control
import Whim.Mask

/-!
# Removing instructions

`compact` drops the masked instructions of a chunk and translates all relative targets. `none` is a panic of the
source.
-/

namespace Whim.Compaction

open Control Mask UInt32

variable {σ : Type}

/-- `relative_target`, which panics on a negative position. -/
def relativeTarget (source : ℕ) (offset : ℤ) : Option ℕ := ((source : ℤ)+offset).toNat?

def newOffset (source target : ℕ) : Option JumpOffset :=
  let distance := (target : ℤ)-source
  if -2 ^ 31 ≤ distance ∧ distance < 2 ^ 31 then some (Int32.ofInt distance) else none

def shortOffset (source target : ℕ) : Option ShortJumpOffset :=
  (newOffset source target).bind fun offset =>
    if -2 ^ 15 ≤ offset.toInt ∧ offset.toInt < 2 ^ 15 then some (Int16.ofInt offset.toInt) else none

def nearOffset (source target : ℕ) : Option NearJumpOffset :=
  (newOffset source target).bind fun offset =>
    if -2 ^ 7 ≤ offset.toInt ∧ offset.toInt < 2 ^ 7 then some (Int8.ofInt offset.toInt) else none

/-- The rewriting of the offsets of an instruction, one function for each width. -/
def mapOffsets (near : NearJumpOffset → Option NearJumpOffset) (short : ShortJumpOffset → Option ShortJumpOffset)
    (long : JumpOffset → Option JumpOffset) : Instruction → Option Instruction
  | .jump offset => (long offset).map .jump
  | .numericRegionJump offset => (long offset).map .numericRegionJump
  | .jumpIfFalse condition offset => (long offset).map (.jumpIfFalse condition)
  | .jumpIfTrue condition offset => (long offset).map (.jumpIfTrue condition)
  | .jumpIfNull subject offset => (long offset).map (.jumpIfNull subject)
  | .jumpIfNotNull subject offset => (long offset).map (.jumpIfNotNull subject)
  | .fillDefault target offset => (long offset).map (.fillDefault target)
  | .floatSquaresSumBranch descriptor offset => (long offset).map (.floatSquaresSumBranch descriptor)
  | .boolPatternBranch subject falseOffset defaultOffset => do
    return .boolPatternBranch subject (← short falseOffset) (← short defaultOffset)
  | .indexCoalesce destination container index offset =>
    (near offset).map (.indexCoalesce destination container index)
  | .vecIndexCoalesce destination container index offset =>
    (near offset).map (.vecIndexCoalesce destination container index)
  | .dictIndexCoalesceIntKey destination container index offset =>
    (near offset).map (.dictIndexCoalesceIntKey destination container index)
  | .dictIndexCoalesceUintKey destination container index offset =>
    (near offset).map (.dictIndexCoalesceUintKey destination container index)
  | .dictIndexCoalesceStringKey destination container index offset =>
    (near offset).map (.dictIndexCoalesceStringKey destination container index)
  | .stringIndexCoalesce destination container index offset =>
    (near offset).map (.stringIndexCoalesce destination container index)
  | .propertyCoalesce destination object cache offset =>
    (near offset).map (.propertyCoalesce destination object cache)
  | .propertyCoalesceUnchecked destination object slot offset =>
    (near offset).map (.propertyCoalesceUnchecked destination object slot)
  | .coalesce destination source offset => (short offset).map (.coalesce destination source)
  | .staticPropertyCoalesce destination cache offset =>
    (short offset).map (.staticPropertyCoalesce destination cache)
  | .jumpUnless comparison left right offset => (short offset).map (.jumpUnless comparison left right)
  | .intJumpUnless comparison left right offset => (short offset).map (.intJumpUnless comparison left right)
  | .uintJumpUnless comparison left right offset => (short offset).map (.uintJumpUnless comparison left right)
  | .uintJumpUnlessImmediate comparison source immediate offset =>
    (short offset).map (.uintJumpUnlessImmediate comparison source immediate)
  | .uintCounterLoop comparison counter limit offset =>
    (short offset).map (.uintCounterLoop comparison counter limit)
  | .stringJumpUnless comparison left right offset =>
    (short offset).map (.stringJumpUnless comparison left right)
  | .stringByteJumpUnlessEqual container index byte offset =>
    (short offset).map (.stringByteJumpUnlessEqual container index byte)
  | .stringByteJumpUnlessNotEqual container index byte offset =>
    (short offset).map (.stringByteJumpUnlessNotEqual container index byte)
  | .intJumpUnlessImmediate comparison source immediate offset =>
    (short offset).map (.intJumpUnlessImmediate comparison source immediate)
  | .jumpUnlessConstant comparison source constant offset =>
    (short offset).map (.jumpUnlessConstant comparison source constant)
  | .integerRangeJumpIf subject descriptor offset kind =>
    (short offset).map fun offset => .integerRangeJumpIf subject descriptor offset kind
  | .integerRangeJumpUnless subject descriptor offset kind =>
    (short offset).map fun offset => .integerRangeJumpUnless subject descriptor offset kind
  | .incrementJump target immediate offset => (short offset).map (.incrementJump target immediate)
  | .counterLoop comparison counter limit offset => (short offset).map (.counterLoop comparison counter limit)
  | .intCounterLoop comparison counter limit offset =>
    (short offset).map (.intCounterLoop comparison counter limit)
  | .numericLoop comparison left right offset => (short offset).map (.numericLoop comparison left right)
  | .intNumericLoop comparison left right offset => (short offset).map (.intNumericLoop comparison left right)
  | .preparedIntNumericLoop descriptor offset => (short offset).map (.preparedIntNumericLoop descriptor)
  | .intStepLoop descriptor offset => (short offset).map (.intStepLoop descriptor)
  | instruction => some instruction

def mapTargets (long : JumpOffset → Option JumpOffset) : SwitchTable → Option SwitchTable
  | .int base targets default => do return .int base (← targets.mapM long) (← long default)
  | .stringByte base targets default => do return .stringByte base (← targets.mapM long) (← long default)
  | .pattern descriptors targets default => do
    return .pattern descriptors (← targets.mapM long) (← long default)
  | .dictionaryShape keys patterns targets default => do
    return .dictionaryShape keys patterns (← targets.mapM long) (← long default)
  | .bool targets default => do return .bool (← targets.mapM long) (← long default)
  | .float values targets default => do return .float values (← targets.mapM long) (← long default)
  | .string arms buckets default => do
    return .string (← arms.mapM fun arm => (long arm.2).map (Prod.mk arm.1)) buckets (← long default)

section

variable (oldToNew : List ℕ) (oldIndex newIndex : ℕ)

/-- The translation of an offset, with the conversion to its width. -/
def rebase {ι : Type} (toInt : ι → ℤ) (convert : ℕ → ℕ → Option ι) (offset : ι) : Option ι := do
  let target ← relativeTarget oldIndex (toInt offset)
  convert newIndex (← oldToNew[target]?)

def rebaseSwitchTable (table : SwitchTable) : Option SwitchTable :=
  mapTargets (rebase oldToNew oldIndex newIndex Int32.toInt newOffset) table

def rebaseOffsets (instruction : Instruction) : Option Instruction :=
  mapOffsets (rebase oldToNew oldIndex newIndex Int8.toInt nearOffset)
    (rebase oldToNew oldIndex newIndex Int16.toInt shortOffset)
    (rebase oldToNew oldIndex newIndex Int32.toInt newOffset) instruction

/-- `rebase_targets`: the offsets of the instruction, or the table that a switch refers to. -/
def rebaseTargets (tables : List SwitchTable) (instruction : Instruction) :
    Option (Instruction × List SwitchTable) :=
  match flow instruction with
  | .switch table => do
    let entry ← rebaseSwitchTable oldToNew oldIndex newIndex (← tables[table.toNat]?)
    return (instruction,tables.set table.toNat entry)
  | _ => do return (← rebaseOffsets oldToNew oldIndex newIndex instruction,tables)

end

/-- The new position of every old one, the end of the code included. -/
def oldToNew : List Bool → ℕ → List ℕ
  | [], next => [next]
  | removed::remove, next => next::oldToNew remove (if removed then next else next+1)

/-- The parts of the chunk that the loop over the old code writes. -/
structure Output (σ : Type) where
  code : List Instruction
  spans : List σ
  tables : List SwitchTable

def compactLoop (oldToNew : List ℕ) (spans : List σ) (remove : List Bool) :
    List (Instruction × ℕ) → Output σ → Option (Output σ)
  | [], output => some output
  | (instruction,oldIndex)::code, output => do
    if ← remove[oldIndex]? then
      compactLoop oldToNew spans remove code output
    else
      let newIndex ← oldToNew[oldIndex]?
      let (instruction,tables) ← rebaseTargets oldToNew oldIndex newIndex output.tables instruction
      let span ← spans[oldIndex]?
      compactLoop oldToNew spans remove code ⟨output.code++[instruction],output.spans++[span],tables⟩

def moveEntry (oldToNew : List ℕ) (entry : CatchEntry) : Option CatchEntry := do
  return { entry with
    start := ofNat (← oldToNew[entry.start.toNat]?)
    stop := ofNat (← oldToNew[entry.stop.toNat]?)
    handler := ofNat (← oldToNew[entry.handler.toNat]?) }

/-- The chunk and its spans after the removal. The code never grows, so that its positions stay `u32`. -/
def compact (chunk : Chunk) (spans : List σ) (remove : List Bool) : Option (Chunk × List σ) := do
  let map := oldToNew remove 0
  let output ← compactLoop map spans remove chunk.code.zipIdx ⟨[],[],chunk.switchTables⟩
  let catchTable ← chunk.catchTable.mapM (moveEntry map)
  if h : output.code.length < 2 ^ 32 then
    return ({ chunk with
      code := output.code, spanCount := output.spans.length, switchTables := output.tables
      catchTable := catchTable, code_lt := h },output.spans)
  else none

/-- `successors` of the control-flow graph. -/
def successors (chunk : Chunk) (index : ℕ) : Option (List ℕ) := do
  match flow (← chunk.code[index]?) with
  | .goto offset => return [← relativeTarget index offset]
  | .branch offsets => return (index+1)::(← offsets.mapM (relativeTarget index))
  | .switch table =>
    (switchOffsets (← chunk.switchTables[table.toNat]?)).mapM fun offset => relativeTarget index offset.toInt
  | .arrayStep | .step => return [index+1,index+2]
  | .stop => return []
  | .next | .test _ => return [index+1]

/-- `has_shared_switch_table`, with the tables seen so far. -/
def hasSharedSwitchTable : List Instruction → List SwitchTableIndex → Bool
  | [], _ => false
  | instruction::code, seen =>
    match flow instruction with
    | .switch table => seen.contains table || hasSharedSwitchTable code (table::seen)
    | _ => hasSharedSwitchTable code seen

end Whim.Compaction
