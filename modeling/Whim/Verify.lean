import Whim.Instruction

/-!
# Structural validation of chunks

A chunk is code with its side tables. `verify` checks them and reports the first error.
-/

namespace Whim

inductive Literal
  | null
  | bool (value : Bool)
  | int (value : Int64)
  | uint (value : UInt64)
  | float (value : F64)
  | string (value : Atom)

/-- The window of a call with names: positional arguments, then the values of the named ones. -/
structure CallDescriptor where
  positional : UInt8
  named : List Atom

inductive SwitchTable
  | int (base : Int64) (targets : List Int32) (default : Int32)
  | string (arms : List (Atom × Int32)) (buckets : List ℕ) (default : Int32)
  | stringByte (base : UInt8) (targets : List Int32) (default : Int32)
  | pattern (descriptors : List TypeDescriptor) (targets : List Int32) (default : Int32)
  | dictionaryShape (keys : List ShapeKey) (patterns : List (List TypeDescriptor)) (targets : List Int32)
      (default : Int32)
  | bool (targets : List Int32) (default : Int32)
  | float (values : List F64) (targets : List Int32) (default : Int32)

inductive PresetSlot
  | givenPositional | holePositional
  | givenNamed (name : Atom)
  | holeNamed (name : Atom)

structure PresetDescriptor where
  slots : List PresetSlot

structure CatchEntry where
  start : UInt32
  stop : UInt32
  handler : UInt32
  typeDescriptor : DescriptorIndex
  temporaryFloor : UInt16
  binding : Option Register

structure PreparedIntLoopDescriptor where
  counter : Register
  limit : Register
  floatRegisters : UInt64

structure IntStepLoopDescriptor where
  counter : Register
  limit : Register
  step : Register

structure FloatSquaresSumBranchDescriptor where
  sumDestination : Register
  firstSquareDestination : Register
  secondSquareDestination : Register
  firstSource : Register
  secondSource : Register
  constant : ConstantIndex

structure FloatPairUpdateDescriptor where
  firstDestination : Register
  firstOperand : Register
  constant : ConstantIndex
  secondDestination : Register
  secondOperand : Register
  secondAddend : Register

structure PropertyInitializationEntry where
  value : Register
  slot : PropertySlot
  valueMode : PropertyValueMode

structure PropertyInitializationDescriptor where
  allocates : Bool
  entries : List PropertyInitializationEntry

/-- Spans and inline caches are counted only. Instruction indices fit in `u32`, as `u32_index` insists. -/
structure Chunk where
  code : List Instruction
  spanCount : ℕ
  constants : List Literal
  typeDescriptors : List TypeDescriptor
  callDescriptors : List CallDescriptor
  switchTables : List SwitchTable
  presetDescriptors : List PresetDescriptor
  catchTable : List CatchEntry
  icDescriptorCount : ℕ
  preparedIntLoopDescriptors : List PreparedIntLoopDescriptor
  intStepLoopDescriptors : List IntStepLoopDescriptor
  floatSquaresSumBranchDescriptors : List FloatSquaresSumBranchDescriptor
  floatPairUpdateDescriptors : List FloatPairUpdateDescriptor
  propertyInitializationDescriptors : List PropertyInitializationDescriptor
  localRegisterCount : UInt16
  parameterRegisterStart : UInt16
  parameterRegisterCount : UInt16
  traceArgumentRegisters : List Register
  registerCount : UInt16
  code_lt : code.length < 2 ^ 32

/-- A chunk of this code with three registers and empty tables. -/
def chunkOf (code : List Instruction) (h : code.length < 2 ^ 32) : Chunk where
  code := code
  spanCount := code.length
  constants := []
  typeDescriptors := []
  callDescriptors := []
  switchTables := []
  presetDescriptors := []
  catchTable := []
  icDescriptorCount := 0
  preparedIntLoopDescriptors := []
  intStepLoopDescriptors := []
  floatSquaresSumBranchDescriptors := []
  floatPairUpdateDescriptors := []
  propertyInitializationDescriptors := []
  localRegisterCount := 0
  parameterRegisterStart := 0
  parameterRegisterCount := 0
  traceArgumentRegisters := []
  registerCount := 3
  code_lt := h

inductive VerifyError
  | localRegistersOutOfRange (locals registers : UInt16)
  | parameterRegistersOutOfRange (first : UInt16) (count : ℕ) (locals : UInt16)
  | traceArgumentRegisterOutOfRange (argument : ℕ) (register locals : UInt16)
  | traceArgumentCountMismatch (parameters : UInt16) (traceArguments : ℕ)
  | spanCountMismatch (code spans : ℕ)
  | registerOutOfRange (instruction : ℕ) (register : UInt16)
  | constantOutOfRange (instruction : ℕ) (constant : UInt16)
  | constantKindInvalid (instruction : ℕ) (constant : UInt16)
  | typeDescriptorOutOfRange (instruction : ℕ) (descriptor : UInt16)
  | typeDescriptorKindInvalid (instruction : ℕ) (descriptor : UInt16)
  | callDescriptorOutOfRange (instruction : ℕ) (descriptor : UInt16)
  | presetDescriptorOutOfRange (instruction : ℕ) (descriptor : UInt16)
  | numericDescriptorOutOfRange (instruction : ℕ) (descriptor : UInt16)
  | propertyInitializationDescriptorOutOfRange (instruction : ℕ) (descriptor : UInt16)
  | propertyInitializationDescriptorInvalid (instruction : ℕ)
  | switchTableOutOfRange (instruction : ℕ) (table : UInt16)
  | switchTableInvalid (instruction : ℕ)
  | cacheSlotOutOfRange (instruction : ℕ) (slot : UInt16)
  | jumpOutOfRange (instruction : ℕ) (target : ℤ)
  | registerWindowOutOfRange (instruction first count : ℕ)
  | indexPathInvalid (instruction : ℕ)
  | foreachNextWithoutJump (instruction : ℕ)
  | catchRangeInvalid (entry : ℕ) (start stop : UInt32)
  | catchHandlerOutOfRange (entry : ℕ) (handler : UInt32)
  | catchTypeDescriptorOutOfRange (entry : ℕ) (descriptor : UInt16)
  | catchTemporaryFloorOutOfRange (entry : ℕ) (register : UInt16)
  | catchBindingOutOfRange (entry : ℕ) (register : UInt16)
  | missingTerminator (length : ℕ)

namespace Verify

abbrev Result := Except VerifyError

section

variable (chunk : Chunk) (at_ : ℕ)

def checkRegister (register : Register) : Result Unit :=
  if register < chunk.registerCount then .ok () else .error (.registerOutOfRange at_ register)

def checkOptionalRegister (register : Register) : Result Unit :=
  if register = noRegister then .ok () else checkRegister chunk at_ register

def checkConstant (constant : ConstantIndex) : Result Unit :=
  if constant.toNat < chunk.constants.length then .ok () else .error (.constantOutOfRange at_ constant)

def checkFloatConstant (constant : ConstantIndex) : Result Unit := do
  checkConstant chunk at_ constant
  match chunk.constants[constant.toNat]? with
  | some (.float _) => .ok ()
  | _ => .error (.constantKindInvalid at_ constant)

def checkStringConstant (constant : ConstantIndex) : Result Unit := do
  checkConstant chunk at_ constant
  match chunk.constants[constant.toNat]? with
  | some (.string _) => .ok ()
  | _ => .error (.constantKindInvalid at_ constant)

def checkTypeDescriptor (descriptor : DescriptorIndex) : Result Unit :=
  if descriptor.toNat < chunk.typeDescriptors.length then .ok ()
  else .error (.typeDescriptorOutOfRange at_ descriptor)

/-- The lookups in side tables, which differ in the table and the error. -/
def checkIndex {α : Type} (table : List α) (index : UInt16) (error : ℕ → UInt16 → VerifyError) : Result α :=
  match table[index.toNat]? with
  | some entry => .ok entry
  | none => .error (error at_ index)

def checkCallDescriptor (descriptor : CallDescriptorIndex) : Result CallDescriptor :=
  checkIndex at_ chunk.callDescriptors descriptor .callDescriptorOutOfRange

def checkPresetDescriptor (descriptor : PresetDescriptorIndex) : Result PresetDescriptor :=
  checkIndex at_ chunk.presetDescriptors descriptor .presetDescriptorOutOfRange

def checkPreparedIntLoopDescriptor (descriptor : PreparedIntLoopDescriptorIndex) :
    Result PreparedIntLoopDescriptor :=
  checkIndex at_ chunk.preparedIntLoopDescriptors descriptor .numericDescriptorOutOfRange

def checkIntStepLoopDescriptor (descriptor : IntStepLoopDescriptorIndex) : Result IntStepLoopDescriptor :=
  checkIndex at_ chunk.intStepLoopDescriptors descriptor .numericDescriptorOutOfRange

def checkFloatSquaresSumBranchDescriptor (descriptor : FloatSquaresSumBranchDescriptorIndex) :
    Result FloatSquaresSumBranchDescriptor :=
  checkIndex at_ chunk.floatSquaresSumBranchDescriptors descriptor .numericDescriptorOutOfRange

def checkFloatPairUpdateDescriptor (descriptor : FloatPairUpdateDescriptorIndex) :
    Result FloatPairUpdateDescriptor :=
  checkIndex at_ chunk.floatPairUpdateDescriptors descriptor .numericDescriptorOutOfRange

def checkPropertyInitializationDescriptor (descriptor : PropertyInitializationDescriptorIndex) :
    Result PropertyInitializationDescriptor :=
  checkIndex at_ chunk.propertyInitializationDescriptors descriptor .propertyInitializationDescriptorOutOfRange

def checkSwitchTable (table : SwitchTableIndex) : Result SwitchTable :=
  checkIndex at_ chunk.switchTables table .switchTableOutOfRange

def checkCache (slot : IcSlot) : Result Unit :=
  if slot.toNat < chunk.icDescriptorCount then .ok () else .error (.cacheSlotOutOfRange at_ slot)

/-- `at + relative` lands inside the code. -/
def checkRelativeTarget (relative : ℤ) : Result Unit :=
  let target := (at_ : ℤ)+relative
  if 0 ≤ target ∧ target < chunk.code.length then .ok () else .error (.jumpOutOfRange at_ target)

def checkJump (offset : JumpOffset) : Result Unit := checkRelativeTarget chunk at_ offset.toInt

def checkWindow (first count : ℕ) : Result Unit :=
  if first+count ≤ chunk.registerCount.toNat then .ok () else .error (.registerWindowOutOfRange at_ first count)

end

section

/-- The next free bucket from here on; more than half of the buckets stay free. -/
def freeBucket (buckets : List ℕ) (mask : ℕ) : ℕ → ℕ → ℕ
  | 0, bucket => bucket
  | fuel+1, bucket =>
    if buckets.getD bucket 0 ≠ 0 then freeBucket buckets mask fuel ((bucket+1) &&& mask) else bucket

def stringSwitchBucket (xxh3 : List UInt8 → UInt64) (value : List UInt8) (mask : ℕ) : ℕ := (xxh3 value).toNat &&& mask

/-- Open addressing over twice as many buckets as arms; an entry is the index of its arm plus one. -/
def stringSwitchBuckets (xxh3 : List UInt8 → UInt64) (arms : List (Atom × Int32)) : List ℕ :=
  let width := (max arms.length 1).nextPowerOfTwo*2
  let mask := width-1
  arms.zipIdx.foldl (fun buckets arm =>
    buckets.set (freeBucket buckets mask width (stringSwitchBucket xxh3 arm.1.1.bytes mask)) (arm.2+1))
    (List.replicate width 0)

mutual

/-- `tuple_window_descriptor`. -/
def tupleWindowDescriptor (count : ℕ) : TypeDescriptor → Bool
  | .tuple elements => elements.length == count && TypeDescriptor.allTrivial elements
  | .tupleRest elements rest =>
    elements.length ≤ count && (TypeDescriptor.allTrivial elements && rest.isTrivial)
  | .union members | .intersection members => tupleWindowDescriptors count members
  | _ => false

def tupleWindowDescriptors (count : ℕ) : List TypeDescriptor → Bool
  | [] => true
  | member::members => tupleWindowDescriptor count member && tupleWindowDescriptors count members

end

/-- The switch instructions; the one on tuple windows has its window. -/
inductive SwitchKind
  | int | string | bool | float | pattern
  | tuplePattern (firstElement : Register) (elementCount : Count)

def validKind : SwitchKind → SwitchTable → Bool
  | .int, .int _ _ _ => true
  | .string, .string _ _ _ | .string, .stringByte _ _ _ => true
  | .bool, .bool _ _ => true
  | .float, .float _ _ _ => true
  | .pattern, .pattern _ _ _ | .pattern, .dictionaryShape _ _ _ _ => true
  | .tuplePattern _ _, .pattern _ _ _ => true
  | _, _ => false

variable (chunk : Chunk) (at_ : ℕ)

def checkTargets (targets : List Int32) (default : Int32) : Result Unit := do
  targets.forM fun target => checkRelativeTarget chunk at_ target.toInt
  checkRelativeTarget chunk at_ default.toInt

def invalidIf (invalid : Bool) : Result Unit :=
  if invalid then .error (.switchTableInvalid at_) else .ok ()

/-- The descriptors of a pattern table, after the window of a tuple switch was checked. -/
def checkPatternDescriptors (descriptors : List TypeDescriptor) : SwitchKind → Result Bool
  | .tuplePattern firstElement elementCount => do
    checkWindow chunk at_ firstElement.toNat elementCount.toNat
    .ok (tupleWindowDescriptors elementCount.toNat descriptors)
  | _ => .ok (TypeDescriptor.allTrivial descriptors)

def verifySwitchTable (xxh3 : List UInt8 → UInt64) (kind : SwitchKind) : SwitchTable → Result Unit
  | .int _ targets default | .stringByte _ targets default => checkTargets chunk at_ targets default
  | .string arms buckets default => do
    invalidIf at_ (stringSwitchBuckets xxh3 arms != buckets)
    checkTargets chunk at_ (arms.map Prod.snd) default
  | .pattern descriptors targets default => do
    let valid ← checkPatternDescriptors chunk at_ descriptors kind
    invalidIf at_ (descriptors.length != targets.length || !valid)
    checkTargets chunk at_ targets default
  | .dictionaryShape keys patterns targets default => do
    invalidIf at_ (keys.isEmpty || keys.length > 8 || patterns.length != targets.length ||
      patterns.any fun pattern => pattern.length != keys.length || !TypeDescriptor.allTrivial pattern)
    checkTargets chunk at_ targets default
  | .bool targets default => do
    invalidIf at_ (targets.length != 2)
    checkTargets chunk at_ targets default
  | .float values targets default => do
    invalidIf at_ (values.length != targets.length)
    checkTargets chunk at_ targets default

def verifySwitch (xxh3 : List UInt8 → UInt64) (kind : SwitchKind) (table : SwitchTableIndex) : Result Unit := do
  let table ← checkSwitchTable chunk at_ table
  invalidIf at_ (!validKind kind table)
  verifySwitchTable chunk at_ xxh3 kind table

end

section

variable (chunk : Chunk) (at_ : ℕ)

def verifyOperand : InstructionOperand → Result Unit
  | .register register => checkRegister chunk at_ register
  | .optionalRegister register => checkOptionalRegister chunk at_ register
  | .constant constant => checkConstant chunk at_ constant
  | .floatConstant constant => checkFloatConstant chunk at_ constant
  | .cache cache => checkCache chunk at_ cache
  | .jump offset => checkJump chunk at_ offset
  | .relativeTarget offset => checkRelativeTarget chunk at_ offset.toInt
  | .switchTable table => (checkSwitchTable chunk at_ table).map fun _ => ()
  | .typeDescriptor descriptor => checkTypeDescriptor chunk at_ descriptor
  | .callDescriptor descriptor => (checkCallDescriptor chunk at_ descriptor).map fun _ => ()
  | .presetDescriptor descriptor => (checkPresetDescriptor chunk at_ descriptor).map fun _ => ()
  | .floatPairUpdateDescriptor descriptor =>
    (checkFloatPairUpdateDescriptor chunk at_ descriptor).map fun _ => ()
  | .floatSquaresSumBranchDescriptor descriptor =>
    (checkFloatSquaresSumBranchDescriptor chunk at_ descriptor).map fun _ => ()
  | .intStepLoopDescriptor descriptor => (checkIntStepLoopDescriptor chunk at_ descriptor).map fun _ => ()
  | .preparedIntLoopDescriptor descriptor =>
    (checkPreparedIntLoopDescriptor chunk at_ descriptor).map fun _ => ()
  | .propertyInitializationDescriptor descriptor =>
    (checkPropertyInitializationDescriptor chunk at_ descriptor).map fun _ => ()

/-- The exit jump is looked for behind a `DrainFinalizers`. -/
def verifyForeachNext : Result Unit :=
  let next := match chunk.code[at_+1]? with
    | some .drainFinalizers => at_+2
    | _ => at_+1
  match chunk.code[next]? with
  | some (.jump _) => .ok ()
  | _ => .error (.foreachNextWithoutJump at_)

def pathInvalidIf (invalid : Bool) : Result Unit :=
  if invalid then .error (.indexPathInvalid at_) else .ok ()

/-- Whether a path's container lies among the registers of its window. -/
def inWindow (first count : ℕ) (container : Register) : Bool :=
  first ≤ container.toNat && container.toNat < first+count

def isGiven : PresetSlot → Bool
  | .givenPositional | .givenNamed _ => true
  | .holePositional | .holeNamed _ => false

def entriesInvalid (object : Register) (descriptor : PropertyInitializationDescriptor) : Bool :=
  descriptor.entries.length < 2 || (descriptor.entries.any fun entry => !entry.valueMode.freshReceiver) ||
    (descriptor.allocates && descriptor.entries.zipIdx.any fun (entry,index) =>
      entry.slot.toNat != index || entry.value == object)

def matchesRange : IntegerKind → Option TypeDescriptor → Bool
  | .i64, some (.intRange _ _) => true
  | .u64, some (.uintRange _ _) => true
  | _, _ => false

def verifyIntegerRange (kind : IntegerKind) (descriptor : DescriptorIndex) : Result Unit :=
  if matchesRange kind chunk.typeDescriptors[descriptor.toNat]? then .ok ()
  else .error (.typeDescriptorKindInvalid at_ descriptor)

/-- What an instruction needs beyond its visited operands. -/
def verifySpecific (xxh3 : List UInt8 → UInt64) : Instruction → Result Unit
  | .indexUpdatePath indexCount _ container operand => do
    checkWindow chunk at_ operand.toNat (indexCount.toNat+1)
    pathInvalidIf at_ (indexCount.toNat+1 == 1 || inWindow operand.toNat (indexCount.toNat+1) container)
  | .indexGetPath indexCount _ _ firstIndex => do
    checkWindow chunk at_ firstIndex.toNat indexCount.toNat
    pathInvalidIf at_ (indexCount.toNat == 0)
  | .indexSetPath indexCount container firstIndex _ => do
    checkWindow chunk at_ firstIndex.toNat indexCount.toNat
    pathInvalidIf at_ (indexCount.toNat == 0 || inWindow firstIndex.toNat indexCount.toNat container)
  | .concatenateRightConstant _ _ constant | .concatenateLeftConstant _ _ constant =>
    checkStringConstant chunk at_ constant
  | .floatDifferenceAdd _ firstOperand _ | .propertyFillIntRange _ firstOperand _
  | .propertyIndexSet _ firstOperand _ | .propertyIndexSetUnchecked _ firstOperand _ =>
    checkWindow chunk at_ firstOperand.toNat 2
  | .propertyRemove _ destination _ mode | .propertyRemoveUnchecked _ destination _ mode =>
    if mode.usesOperand then checkWindow chunk at_ destination.toNat 2 else .ok ()
  | .floatScaleProductAdd _ firstOperand _ => checkWindow chunk at_ firstOperand.toNat 3
  | .squares firstDestination _ _ | .floatSquares firstDestination _ _ =>
    checkWindow chunk at_ firstDestination.toNat 2
  | .floatSquaresSum firstDestination _ _ => checkWindow chunk at_ firstDestination.toNat 3
  | .floatSquaresSumBranch descriptor _ => do
    let d ← checkFloatSquaresSumBranchDescriptor chunk at_ descriptor
    checkRegister chunk at_ d.sumDestination
    checkRegister chunk at_ d.firstSquareDestination
    checkRegister chunk at_ d.secondSquareDestination
    checkRegister chunk at_ d.firstSource
    checkRegister chunk at_ d.secondSource
    checkFloatConstant chunk at_ d.constant
  | .floatPairUpdate descriptor => do
    let d ← checkFloatPairUpdateDescriptor chunk at_ descriptor
    checkRegister chunk at_ d.firstDestination
    checkWindow chunk at_ d.firstOperand.toNat 3
    checkFloatConstant chunk at_ d.constant
    checkRegister chunk at_ d.secondDestination
    checkWindow chunk at_ d.secondOperand.toNat 2
    checkRegister chunk at_ d.secondAddend
  | .preparedIntNumericLoop descriptor _ => do
    let d ← checkPreparedIntLoopDescriptor chunk at_ descriptor
    checkRegister chunk at_ d.counter
    checkRegister chunk at_ d.limit
    ((List.range 64).filter fun bit => d.floatRegisters.toNat.testBit bit).forM fun bit =>
      checkRegister chunk at_ (UInt16.ofNat bit)
  | .intStepLoop descriptor _ => do
    let d ← checkIntStepLoopDescriptor chunk at_ descriptor
    checkRegister chunk at_ d.counter
    checkRegister chunk at_ d.limit
    checkRegister chunk at_ d.step
  | .initializeProperties object cache descriptor => do
    checkRegister chunk at_ object
    checkCache chunk at_ cache
    let d ← checkPropertyInitializationDescriptor chunk at_ descriptor
    if entriesInvalid object d then .error (.propertyInitializationDescriptorInvalid at_)
    else d.entries.forM fun entry => checkRegister chunk at_ entry.value
  | .integerRangeJumpIf _ descriptor _ kind | .integerRangeJumpUnless _ descriptor _ kind =>
    verifyIntegerRange chunk at_ kind descriptor
  | .switchInt _ table => verifySwitch chunk at_ xxh3 .int table
  | .switchString _ table => verifySwitch chunk at_ xxh3 .string table
  | .switchBool _ table => verifySwitch chunk at_ xxh3 .bool table
  | .switchFloat _ table => verifySwitch chunk at_ xxh3 .float table
  | .switchPattern _ table => verifySwitch chunk at_ xxh3 .pattern table
  | .switchTuplePattern firstElement elementCount table =>
    verifySwitch chunk at_ xxh3 (.tuplePattern firstElement elementCount) table
  | .newArray count _ firstElement kind => checkWindow chunk at_ firstElement.toNat (kind.registerCount count)
  | .callValue argumentCount _ _ firstArgument | .callValueUnchecked argumentCount _ _ firstArgument
  | .callValueDiscarded argumentCount _ _ firstArgument | .callNamed argumentCount _ firstArgument _
  | .callNamedDiscarded argumentCount _ firstArgument _ | .callNamedUnchecked argumentCount _ firstArgument _
  | .callMethod argumentCount _ firstArgument _ | .callMethodDiscarded argumentCount _ firstArgument _
  | .callMethodUnchecked argumentCount _ firstArgument _ | .callNamedDirect argumentCount _ firstArgument _
  | .callMethodDirect argumentCount _ firstArgument _ | .callStatic argumentCount _ firstArgument _
  | .callStaticDiscarded argumentCount _ firstArgument _ | .callSelfUnchecked argumentCount _ firstArgument =>
    checkWindow chunk at_ firstArgument.toNat argumentCount.toNat
  | .callWithNames _ callee descriptor | .callWithNamesDiscarded _ callee descriptor => do
    let shape ← checkCallDescriptor chunk at_ descriptor
    checkWindow chunk at_ (callee.toNat+1) (shape.positional.toNat+shape.named.length)
  | .makeBound _ callee descriptor => do
    let shape ← checkPresetDescriptor chunk at_ descriptor
    checkWindow chunk at_ (callee.toNat+1) (shape.slots.countP isGiven)
  | .makeClosure captureCount _ _ firstCapture =>
    checkWindow chunk at_ firstCapture.toNat captureCount.toNat
  | .foreachNext _ _ _ | .vecForeachNext _ _ _ _ | .dictForeachNext _ _ _ _ => verifyForeachNext chunk at_
  | .write count register _ _ => checkWindow chunk at_ register.toNat count.toNat
  | .debug valueCount firstValue => checkWindow chunk at_ firstValue.toNat valueCount.toNat
  | .assert operandCount firstValue _ _ => checkWindow chunk at_ firstValue.toNat (operandCount.toNat+1)
  | _ => .ok ()

def verifyInstruction (xxh3 : List UInt8 → UInt64) (instruction : Instruction) : Result Unit := do
  instruction.operands.forM (verifyOperand chunk at_)
  verifySpecific chunk at_ xxh3 instruction

end

def isTerminator : Instruction → Bool
  | .jump _ | .numericRegionJump _ | .return_ _ | .returnUnchecked _ | .returnReferenceUnchecked _ => true
  | .returnPairUnchecked _ _ | .returnScalarUnchecked _ | .returnNull | .returnNullUnchecked => true
  | .returnIntegerUnchecked _ _ | .throw _ | .exit _ | .panic _ => true
  | _ => false

def verifyCatchEntry (chunk : Chunk) (index : ℕ) (entry : CatchEntry) : Result Unit := do
  if entry.start > entry.stop ∨ entry.stop.toNat > chunk.code.length then
    .error (.catchRangeInvalid index entry.start entry.stop)
  else if entry.handler.toNat ≥ chunk.code.length then .error (.catchHandlerOutOfRange index entry.handler)
  else if entry.typeDescriptor.toNat ≥ chunk.typeDescriptors.length then
    .error (.catchTypeDescriptorOutOfRange index entry.typeDescriptor)
  else if entry.temporaryFloor > chunk.registerCount then
    .error (.catchTemporaryFloorOutOfRange index entry.temporaryFloor)
  else match entry.binding with
    | some binding =>
      if binding ≥ chunk.registerCount then .error (.catchBindingOutOfRange index binding) else .ok ()
    | none => .ok ()

def verifyCatchTable (chunk : Chunk) : Result Unit :=
  chunk.catchTable.zipIdx.forM fun (entry,index) => verifyCatchEntry chunk index entry

/-- The register counts and the parallel tables, before any instruction. -/
def verifyHeader (chunk : Chunk) : Result Unit := do
  if chunk.localRegisterCount > chunk.registerCount then
    .error (.localRegistersOutOfRange chunk.localRegisterCount chunk.registerCount)
  else if chunk.parameterRegisterStart.toNat+chunk.parameterRegisterCount.toNat >
      chunk.localRegisterCount.toNat then
    .error (.parameterRegistersOutOfRange chunk.parameterRegisterStart chunk.parameterRegisterCount.toNat
      chunk.localRegisterCount)
  else if !chunk.traceArgumentRegisters.isEmpty ∧
      chunk.traceArgumentRegisters.length ≠ chunk.parameterRegisterCount.toNat then
    .error (.traceArgumentCountMismatch chunk.parameterRegisterCount chunk.traceArgumentRegisters.length)
  else do
    chunk.traceArgumentRegisters.zipIdx.forM fun (register,argument) =>
      if register ≠ noRegister ∧ register ≥ chunk.localRegisterCount then
        .error (.traceArgumentRegisterOutOfRange argument register chunk.localRegisterCount)
      else .ok ()
    if chunk.spanCount ≠ chunk.code.length then .error (.spanCountMismatch chunk.code.length chunk.spanCount)
    else .ok ()

def verifyLast (chunk : Chunk) : Result Unit :=
  match chunk.code.getLast? with
  | some last => if isTerminator last then .ok () else .error (.missingTerminator chunk.code.length)
  | none => .error (.missingTerminator chunk.code.length)

def verify (xxh3 : List UInt8 → UInt64) (chunk : Chunk) : Result Unit := do
  verifyHeader chunk
  chunk.code.zipIdx.forM fun (instruction,index) => verifyInstruction chunk index xxh3 instruction
  verifyLast chunk
  verifyCatchTable chunk

end Verify
end Whim
