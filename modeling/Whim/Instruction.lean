import Whim.TypeDescriptor

/-!
# Instructions

The instruction set with all its operands, in the order of the source. Jump offsets are relative to the instruction
that holds them.
-/

namespace Whim

abbrev Register := UInt16
abbrev ConstantIndex := UInt16
abbrev DescriptorIndex := UInt16
abbrev CallDescriptorIndex := UInt16
abbrev SwitchTableIndex := UInt16
abbrev IcSlot := UInt16
abbrev PropertySlot := UInt16
abbrev PresetDescriptorIndex := UInt16
abbrev PreparedIntLoopDescriptorIndex := UInt16
abbrev IntStepLoopDescriptorIndex := UInt16
abbrev FloatSquaresSumBranchDescriptorIndex := UInt16
abbrev FloatPairUpdateDescriptorIndex := UInt16
abbrev PropertyInitializationDescriptorIndex := UInt16
abbrev JumpOffset := Int32
abbrev ShortJumpOffset := Int16
abbrev NearJumpOffset := Int8
abbrev ImmediateInt := Int16
abbrev ImmediateUint := UInt16
abbrev ImmediateInteger := UInt16
abbrev Count := UInt8

/-- `Register::NONE`. -/
def noRegister : Register := 65535

inductive Comparison
  | equal | notEqual | lessThan | lessThanOrEqual | greaterThan | greaterThanOrEqual
  deriving DecidableEq

inductive IndexAddMode
  | generic | dictAnyKeyIntValue | dictStringKeyIntValue
  deriving DecidableEq

inductive IndexUpdateOperation
  | add | subtract | multiply | divide | modulo | power | bitwiseAnd | bitwiseOr | bitwiseXor | shiftLeft | shiftRight
  deriving DecidableEq

inductive ArrayKind
  | vec | dict | tuple
  deriving DecidableEq

def ArrayKind.registerCount (kind : ArrayKind) (count : Count) : ℕ := count.toNat*if kind = .dict then 2 else 1

inductive AsMode
  | boundary | cast
  deriving DecidableEq

inductive IntegerKind
  | i64 | u64
  deriving DecidableEq

inductive ArrayValueMode
  | generic | int | uint | float
  deriving DecidableEq

inductive PropertyReadMode
  | clone | take
  deriving DecidableEq

inductive PropertyIndexUpdateMode
  | increment | remove | append
  deriving DecidableEq

inductive PropertyStepMode
  | increment | add
  deriving DecidableEq

inductive PropertyRemoveMode
  | key | first | last | swap
  deriving DecidableEq

def PropertyRemoveMode.usesOperand : PropertyRemoveMode → Bool
  | .key | .swap => true
  | .first | .last => false

inductive PropertyValueMode
  | clone | move | moveAndClear | freshClone | freshMove | freshMoveAndClear
  deriving DecidableEq

/-- Whether user code cannot yet observe the receiver. -/
def PropertyValueMode.freshReceiver : PropertyValueMode → Bool
  | .freshClone | .freshMove | .freshMoveAndClear => true
  | .clone | .move | .moveAndClear => false

inductive Instruction
  | move (destination source : Register)
  | moveOwned (destination source : Register)
  | clear (target : Register)
  | loadConstant (destination : Register) (constant : ConstantIndex)
  | loadNull (destination : Register)
  | loadTrue (destination : Register)
  | loadFalse (destination : Register)
  | loadInteger (destination : Register) (immediate : ImmediateInteger) (kind : IntegerKind)
  | constantGet (destination : Register) (cache : IcSlot)
  | classConstantGet (destination : Register) (cache : IcSlot)
  | add (destination left right : Register) (kind : Option IntegerKind)
  | addImmediate (destination source : Register) (immediate : ImmediateInteger) (kind : Option IntegerKind)
  | integerAddAssign (target source : Register) (kind : IntegerKind)
  | subtract (destination left right : Register) (kind : Option IntegerKind)
  | subtractImmediate (destination source : Register) (immediate : ImmediateInteger)
      (kind : Option IntegerKind)
  | multiply (destination left right : Register) (kind : Option IntegerKind)
  | integerMultiplyImmediate (destination source : Register) (immediate : ImmediateInteger)
      (kind : IntegerKind)
  | divide (destination left right : Register)
  | modulo (destination left right : Register) (kind : Option IntegerKind)
  | integerModuloImmediate (destination source : Register) (immediate : ImmediateInteger) (kind : IntegerKind)
  | power (destination left right : Register)
  | negate (destination source : Register)
  | unaryPlus (destination source : Register)
  | step (destination source : Register) (immediate : ImmediateInt) (kind : Option IntegerKind)
  | bitwiseAnd (destination left right : Register) (kind : Option IntegerKind)
  | bitwiseOr (destination left right : Register) (kind : Option IntegerKind)
  | bitwiseXor (destination left right : Register) (kind : Option IntegerKind)
  | bitwiseNot (destination source : Register) (kind : Option IntegerKind)
  | shiftLeft (destination left right : Register) (kind : Option IntegerKind)
  | shiftRight (destination left right : Register) (kind : Option IntegerKind)
  | floatAdd (destination left right : Register)
  | floatSubtract (destination left right : Register)
  | floatMultiply (destination left right : Register)
  | floatMultiplyConstant (destination source : Register) (constant : ConstantIndex)
  | squares (firstDestination firstSource secondSource : Register)
  | floatSquares (firstDestination firstSource secondSource : Register)
  | floatSquaresSum (firstDestination firstSource secondSource : Register)
  | floatSquaresSumBranch (descriptor : FloatSquaresSumBranchDescriptorIndex) (offset : JumpOffset)
  | floatDifferenceAdd (destination firstOperand addend : Register)
  | floatScaleProductAdd (destination firstOperand : Register) (constant : ConstantIndex)
  | floatPairUpdate (descriptor : FloatPairUpdateDescriptorIndex)
  | equal (destination left right : Register)
  | notEqual (destination left right : Register)
  | lessThan (destination left right : Register)
  | lessThanOrEqual (destination left right : Register)
  | greaterThan (destination left right : Register)
  | greaterThanOrEqual (destination left right : Register)
  | compare (destination left right : Register)
  | not (destination source : Register)
  | concatenate (destination left right : Register)
  | concatenateLeftConstant (destination source : Register) (constant : ConstantIndex)
  | concatenateRightConstant (destination source : Register) (constant : ConstantIndex)
  | stringLength (destination source : Register)
  | stringIndexGet (destination container index : Register)
  | stringIndexGetOrNull (destination container index : Register)
  | stringIndexCoalesce (destination container index : Register) (offset : NearJumpOffset)
  | stringByteEqual (destination container index : Register) (byte : UInt8)
  | stringByteNotEqual (destination container index : Register) (byte : UInt8)
  | stringByteLessThan (destination container index : Register) (byte : UInt8)
  | stringByteLessThanOrEqual (destination container index : Register) (byte : UInt8)
  | stringByteGreaterThan (destination container index : Register) (byte : UInt8)
  | stringByteGreaterThanOrEqual (destination container index : Register) (byte : UInt8)
  | stringByteJumpUnlessEqual (container index : Register) (byte : UInt8) (offset : ShortJumpOffset)
  | stringByteJumpUnlessNotEqual (container index : Register) (byte : UInt8) (offset : ShortJumpOffset)
  | jump (offset : JumpOffset)
  | jumpIfFalse (condition : Register) (offset : JumpOffset)
  | jumpIfTrue (condition : Register) (offset : JumpOffset)
  | jumpIfNull (subject : Register) (offset : JumpOffset)
  | jumpIfNotNull (subject : Register) (offset : JumpOffset)
  | jumpUnless (comparison : Comparison) (left right : Register) (offset : ShortJumpOffset)
  | intJumpUnless (comparison : Comparison) (left right : Register) (offset : ShortJumpOffset)
  | uintJumpUnless (comparison : Comparison) (left right : Register) (offset : ShortJumpOffset)
  | stringJumpUnless (comparison : Comparison) (left right : Register) (offset : ShortJumpOffset)
  | jumpUnlessConstant (comparison : Comparison) (source : Register) (constant : ConstantIndex)
      (offset : ShortJumpOffset)
  | intJumpUnlessImmediate (comparison : Comparison) (source : Register) (immediate : ImmediateInt)
      (offset : ShortJumpOffset)
  | uintJumpUnlessImmediate (comparison : Comparison) (source : Register) (immediate : ImmediateUint)
      (offset : ShortJumpOffset)
  | coalesce (destination source : Register) (offset : ShortJumpOffset)
  | fillDefault (target : Register) (offset : JumpOffset)
  | switchBool (subject : Register) (table : SwitchTableIndex)
  | switchInt (subject : Register) (table : SwitchTableIndex)
  | switchFloat (subject : Register) (table : SwitchTableIndex)
  | switchString (subject : Register) (table : SwitchTableIndex)
  | switchPattern (subject : Register) (table : SwitchTableIndex)
  | switchTuplePattern (firstElement : Register) (elementCount : Count) (table : SwitchTableIndex)
  | boolPatternBranch (subject : Register) (falseOffset defaultOffset : ShortJumpOffset)
  | integerRangeJumpIf (subject : Register) (descriptor : DescriptorIndex) (offset : ShortJumpOffset)
      (kind : IntegerKind)
  | integerRangeJumpUnless (subject : Register) (descriptor : DescriptorIndex) (offset : ShortJumpOffset)
      (kind : IntegerKind)
  | incrementJump (target : Register) (immediate : ImmediateInt) (offset : ShortJumpOffset)
  | counterLoop (comparison : Comparison) (counter limit : Register) (offset : ShortJumpOffset)
  | intCounterLoop (comparison : Comparison) (counter limit : Register) (offset : ShortJumpOffset)
  | uintCounterLoop (comparison : Comparison) (counter limit : Register) (offset : ShortJumpOffset)
  | numericLoop (comparison : Comparison) (left right : Register) (offset : ShortJumpOffset)
  | intNumericLoop (comparison : Comparison) (left right : Register) (offset : ShortJumpOffset)
  | preparedIntNumericLoop (descriptor : PreparedIntLoopDescriptorIndex) (offset : ShortJumpOffset)
  | intStepLoop (descriptor : IntStepLoopDescriptorIndex) (offset : ShortJumpOffset)
  | numericRegionJump (offset : JumpOffset)
  | newArray (count : Count) (destination firstElement : Register) (kind : ArrayKind)
  | newFilledVec (destination value size : Register)
  | reserveArray (container additional : Register)
  | length (destination source : Register)
  | elementGet (destination subject : Register) (index : ImmediateInt)
  | indexGet (destination container index : Register)
  | indexGetPath (indexCount : Count) (destination container firstIndex : Register)
  | vecIndexGet (destination container index : Register) (valueMode : ArrayValueMode)
  | dictIndexGetIntKey (destination container index : Register) (valueMode : ArrayValueMode)
  | dictIndexGetUintKey (destination container index : Register) (valueMode : ArrayValueMode)
  | dictIndexGetStringKey (destination container index : Register) (valueMode : ArrayValueMode)
  | indexGetOrNull (destination container index : Register)
  | vecIndexGetOrNull (destination container index : Register)
  | dictIndexGetIntegerKeyOrNull (destination container index : Register) (kind : IntegerKind)
  | dictIndexGetStringKeyOrNull (destination container index : Register)
  | indexCoalesce (destination container index : Register) (offset : NearJumpOffset)
  | vecIndexCoalesce (destination container index : Register) (offset : NearJumpOffset)
  | dictIndexCoalesceIntKey (destination container index : Register) (offset : NearJumpOffset)
  | dictIndexCoalesceUintKey (destination container index : Register) (offset : NearJumpOffset)
  | dictIndexCoalesceStringKey (destination container index : Register) (offset : NearJumpOffset)
  | indexSet (container index value : Register)
  | indexSetPath (indexCount : Count) (container firstIndex value : Register)
  | indexUpdatePath (indexCount : Count) (operation : IndexUpdateOperation) (container operand : Register)
  | vecIndexSet (container index value : Register)
  | dictIndexSet (container index value : Register)
  | dictIndexSetIntegerKey (container index value : Register) (kind : IntegerKind)
  | dictIndexSetStringKey (container index value : Register)
  | indexAddAssign (container index value : Register) (mode : IndexAddMode)
  | append (container value : Register)
  | vecAppend (container value : Register)
  | spread (container value : Register)
  | rest (destination subject : Register) (start : ImmediateInt)
  | contains (destination array value : Register)
  | containsKey (destination array key : Register)
  | remove (destination container key : Register)
  | removeFirst (destination container : Register)
  | removeLast (destination container : Register)
  | swapRemove (destination container index : Register)
  | checkDestructure (subject : Register) (required arity : ImmediateInt) (rest : Bool)
  | foreachInit (iterator subject reserve : Register)
  | foreachNext (iterator keyDestination valueDestination : Register)
  | vecForeachNext (iterator keyDestination valueDestination : Register) (valueMode : ArrayValueMode)
  | dictForeachNext (iterator keyDestination valueDestination : Register) (valueMode : ArrayValueMode)
  | newStatic (destination : Register) (cache : IcSlot)
  | newDynamic (destination className : Register)
  | newTyped (destination : Register) (descriptor : DescriptorIndex)
  | cloneObject (destination source : Register)
  | initializeProperties (object : Register) (cache : IcSlot)
      (descriptor : PropertyInitializationDescriptorIndex)
  | propertyGet (destination object : Register) (cache : IcSlot)
  | propertyGetUnchecked (destination object : Register) (slot : PropertySlot) (valueMode : PropertyReadMode)
  | propertyGetOrNull (destination object : Register) (cache : IcSlot)
  | propertyGetOrNullUnchecked (destination object : Register) (slot : PropertySlot)
  | propertyCoalesce (destination object : Register) (cache : IcSlot) (offset : NearJumpOffset)
  | propertyCoalesceUnchecked (destination object : Register) (slot : PropertySlot) (offset : NearJumpOffset)
  | propertySet (object value : Register) (cache : IcSlot)
  | propertySetUnchecked (object value : Register) (slot : PropertySlot) (valueMode : PropertyValueMode)
  | propertyInitRaw (object value : Register) (cache : IcSlot)
  | propertyIndexSet (object firstOperand : Register) (cache : IcSlot)
  | propertyIndexSetUnchecked (object firstOperand : Register) (slot : PropertySlot)
  | propertyIndexUpdate (object operand : Register) (cache : IcSlot) (mode : PropertyIndexUpdateMode)
  | propertyIndexUpdateUnchecked (object operand : Register) (slot : PropertySlot)
      (mode : PropertyIndexUpdateMode)
  | propertyStep (object : Register) (cache : IcSlot) (immediate : ImmediateInt) (mode : PropertyStepMode)
  | propertyStepUnchecked (object : Register) (slot : PropertySlot) (immediate : ImmediateInt)
      (mode : PropertyStepMode)
  | propertyAdd (object source : Register) (cache : IcSlot)
  | propertyAddUnchecked (object source : Register) (slot : PropertySlot)
  | propertyFillIntRange (object firstOperand : Register) (cache : IcSlot)
  | propertyRemove (object destination : Register) (cache : IcSlot) (mode : PropertyRemoveMode)
  | propertyRemoveUnchecked (object destination : Register) (slot : PropertySlot) (mode : PropertyRemoveMode)
  | staticPropertyGet (destination : Register) (cache : IcSlot)
  | staticPropertyGetOrNull (destination : Register) (cache : IcSlot)
  | staticPropertyCoalesce (destination : Register) (cache : IcSlot) (offset : ShortJumpOffset)
  | staticPropertySet (cache : IcSlot) (value : Register)
  | makeClosure (captureCount : Count) (destination : Register) (prototype : ConstantIndex)
      (firstCapture : Register)
  | makeBound (destination callee : Register) (descriptor : PresetDescriptorIndex)
  | callValue (argumentCount : Count) (destination callee firstArgument : Register)
  | callValueUnchecked (argumentCount : Count) (destination callee firstArgument : Register)
  | callValueDiscarded (argumentCount : Count) (destination callee firstArgument : Register)
  | callNamed (argumentCount : Count) (destination firstArgument : Register) (cache : IcSlot)
  | callNamedUnchecked (argumentCount : Count) (destination firstArgument : Register) (cache : IcSlot)
  | callNamedDirect (argumentCount : Count) (destination firstArgument : Register) (cache : IcSlot)
  | callNamedConstantUnchecked (destination : Register) (constant : ConstantIndex) (cache : IcSlot)
      (borrowed : Bool)
  | callNamedDiscarded (argumentCount : Count) (destination firstArgument : Register) (cache : IcSlot)
  | callMethod (argumentCount : Count) (destination firstArgument : Register) (cache : IcSlot)
  | callMethodUnchecked (argumentCount : Count) (destination firstArgument : Register) (cache : IcSlot)
  | callMethodDirect (argumentCount : Count) (destination firstArgument : Register) (cache : IcSlot)
  | callMethodDiscarded (argumentCount : Count) (destination firstArgument : Register) (cache : IcSlot)
  | callStatic (argumentCount : Count) (destination firstArgument : Register) (cache : IcSlot)
  | callStaticDiscarded (argumentCount : Count) (destination firstArgument : Register) (cache : IcSlot)
  | callSelfUnchecked (argumentCount : Count) (destination firstArgument : Register)
  | callWithNames (destination callee : Register) (descriptor : CallDescriptorIndex)
  | callWithNamesDiscarded (destination callee : Register) (descriptor : CallDescriptorIndex)
  | checkDiscardedResult (source : Register)
  | return_ (source : Register)
  | returnUnchecked (source : Register)
  | returnReferenceUnchecked (source : Register)
  | returnScalarUnchecked (source : Register)
  | returnIntegerUnchecked (immediate : ImmediateInteger) (kind : IntegerKind)
  | returnPairUnchecked (first second : Register)
  | returnNull | returnNullUnchecked
  | is (destination source : Register) (descriptor : DescriptorIndex)
  | asCheck (destination source : Register) (descriptor : DescriptorIndex) (mode : AsMode)
  | asOrNull (destination source : Register) (descriptor : DescriptorIndex)
  | checkDefined (subject : Register) (name : ConstantIndex)
  | checkSoleReference (source : Register) (message : ConstantIndex) (chainPrevious : Bool)
  | checkWhereConstraints
  | throw (source : Register)
  | rethrow
  | throwUnhandledMatch (subject : Register)
  | panic (message : Register)
  | assert (operandCount : Count) (firstValue message : Register) (text : ConstantIndex)
  | exit (code : Register)
  | write (count : Count) (register : Register) (newLine stderr : Bool)
  | debug (valueCount : Count) (firstValue : Register)
  | require (once : Bool) (destination path : Register)
  | drainFinalizers
  | fresh (destination : Register)

/-- An encoded operand whose value refers outside its instruction word. -/
inductive InstructionOperand
  | register (value : Register)
  | optionalRegister (value : Register)
  | constant (value : ConstantIndex)
  | floatConstant (value : ConstantIndex)
  | cache (value : IcSlot)
  | jump (value : JumpOffset)
  | relativeTarget (value : ShortJumpOffset)
  | switchTable (value : SwitchTableIndex)
  | typeDescriptor (value : DescriptorIndex)
  | callDescriptor (value : CallDescriptorIndex)
  | presetDescriptor (value : PresetDescriptorIndex)
  | floatPairUpdateDescriptor (value : FloatPairUpdateDescriptorIndex)
  | floatSquaresSumBranchDescriptor (value : FloatSquaresSumBranchDescriptorIndex)
  | intStepLoopDescriptor (value : IntStepLoopDescriptorIndex)
  | preparedIntLoopDescriptor (value : PreparedIntLoopDescriptorIndex)
  | propertyInitializationDescriptor (value : PropertyInitializationDescriptorIndex)

namespace Instruction

/-- The operands in the order of `try_visit_operands`. The first registers of windows are not visited:
the verifier checks windows as a whole. -/
def operands : Instruction → List InstructionOperand
  | .move destination source | .moveOwned destination source | .addImmediate destination source _ _
  | .subtractImmediate destination source _ _ | .integerMultiplyImmediate destination source _ _
  | .integerModuloImmediate destination source _ _ | .negate destination source | .unaryPlus destination source
  | .step destination source _ _ | .bitwiseNot destination source _ | .not destination source
  | .stringLength destination source | .length destination source | .cloneObject destination source =>
    [.register destination,.register source]
  | .clear target => [.register target]
  | .loadConstant destination constant => [.register destination,.constant constant]
  | .loadNull destination | .loadTrue destination | .loadFalse destination | .loadInteger destination _ _
  | .newArray _ destination _ _ | .callSelfUnchecked _ destination _ | .fresh destination => [.register destination]
  | .constantGet destination cache | .classConstantGet destination cache | .newStatic destination cache
  | .staticPropertyGet destination cache | .staticPropertyGetOrNull destination cache
  | .callNamed _ destination _ cache | .callNamedUnchecked _ destination _ cache
  | .callNamedDirect _ destination _ cache | .callNamedDiscarded _ destination _ cache
  | .callMethod _ destination _ cache | .callMethodUnchecked _ destination _ cache
  | .callMethodDirect _ destination _ cache | .callMethodDiscarded _ destination _ cache
  | .callStatic _ destination _ cache | .callStaticDiscarded _ destination _ cache =>
    [.register destination,.cache cache]
  | .add destination left right _ | .subtract destination left right _ | .multiply destination left right _
  | .divide destination left right | .modulo destination left right _ | .power destination left right
  | .bitwiseAnd destination left right _ | .bitwiseOr destination left right _
  | .bitwiseXor destination left right _ | .shiftLeft destination left right _
  | .shiftRight destination left right _ | .floatAdd destination left right
  | .floatSubtract destination left right | .floatMultiply destination left right | .equal destination left right
  | .notEqual destination left right | .lessThan destination left right | .lessThanOrEqual destination left right
  | .greaterThan destination left right | .greaterThanOrEqual destination left right
  | .compare destination left right | .concatenate destination left right =>
    [.register destination,.register left,.register right]
  | .integerAddAssign target source _ => [.register target,.register source]
  | .floatMultiplyConstant destination source constant =>
    [.register destination,.register source,.floatConstant constant]
  | .squares _ firstSource secondSource | .floatSquares _ firstSource secondSource
  | .floatSquaresSum _ firstSource secondSource => [.register firstSource,.register secondSource]
  | .floatSquaresSumBranch descriptor offset => [.floatSquaresSumBranchDescriptor descriptor,.jump offset]
  | .floatDifferenceAdd destination _ addend => [.register destination,.register addend]
  | .floatScaleProductAdd destination _ constant => [.register destination,.floatConstant constant]
  | .floatPairUpdate descriptor => [.floatPairUpdateDescriptor descriptor]
  | .concatenateLeftConstant destination source constant | .concatenateRightConstant destination source constant =>
    [.register destination,.register source,.constant constant]
  | .stringIndexGet destination container index | .stringIndexGetOrNull destination container index
  | .stringByteEqual destination container index _ | .stringByteNotEqual destination container index _
  | .stringByteLessThan destination container index _ | .stringByteLessThanOrEqual destination container index _
  | .stringByteGreaterThan destination container index _
  | .stringByteGreaterThanOrEqual destination container index _ | .indexGet destination container index
  | .vecIndexGet destination container index _ | .dictIndexGetIntKey destination container index _
  | .dictIndexGetUintKey destination container index _ | .dictIndexGetStringKey destination container index _
  | .indexGetOrNull destination container index | .vecIndexGetOrNull destination container index
  | .dictIndexGetIntegerKeyOrNull destination container index _
  | .dictIndexGetStringKeyOrNull destination container index | .swapRemove destination container index =>
    [.register destination,.register container,.register index]
  | .stringIndexCoalesce destination container index offset | .indexCoalesce destination container index offset
  | .vecIndexCoalesce destination container index offset
  | .dictIndexCoalesceIntKey destination container index offset
  | .dictIndexCoalesceUintKey destination container index offset
  | .dictIndexCoalesceStringKey destination container index offset =>
    [.register destination,.register container,.register index,.jump offset.toInt32]
  | .stringByteJumpUnlessEqual container index _ offset | .stringByteJumpUnlessNotEqual container index _ offset =>
    [.register container,.register index,.relativeTarget offset]
  | .jump offset | .numericRegionJump offset => [.jump offset]
  | .jumpIfFalse condition offset | .jumpIfTrue condition offset => [.register condition,.jump offset]
  | .jumpIfNull subject offset | .jumpIfNotNull subject offset => [.register subject,.jump offset]
  | .jumpUnless _ left right offset | .intJumpUnless _ left right offset | .uintJumpUnless _ left right offset
  | .stringJumpUnless _ left right offset | .numericLoop _ left right offset
  | .intNumericLoop _ left right offset => [.register left,.register right,.relativeTarget offset]
  | .jumpUnlessConstant _ source constant offset => [.register source,.constant constant,.relativeTarget offset]
  | .intJumpUnlessImmediate _ source _ offset | .uintJumpUnlessImmediate _ source _ offset =>
    [.register source,.relativeTarget offset]
  | .coalesce destination source offset => [.register destination,.register source,.relativeTarget offset]
  | .fillDefault target offset => [.register target,.jump offset]
  | .switchBool subject table | .switchInt subject table | .switchFloat subject table
  | .switchString subject table | .switchPattern subject table => [.register subject,.switchTable table]
  | .switchTuplePattern _ _ table => [.switchTable table]
  | .boolPatternBranch subject falseOffset defaultOffset =>
    [.register subject,.relativeTarget falseOffset,.relativeTarget defaultOffset]
  | .integerRangeJumpIf subject descriptor offset _ | .integerRangeJumpUnless subject descriptor offset _ =>
    [.register subject,.typeDescriptor descriptor,.relativeTarget offset]
  | .incrementJump target _ offset => [.register target,.relativeTarget offset]
  | .counterLoop _ counter limit offset | .intCounterLoop _ counter limit offset
  | .uintCounterLoop _ counter limit offset => [.register counter,.register limit,.relativeTarget offset]
  | .preparedIntNumericLoop descriptor offset => [.preparedIntLoopDescriptor descriptor,.relativeTarget offset]
  | .intStepLoop descriptor offset => [.intStepLoopDescriptor descriptor,.relativeTarget offset]
  | .newFilledVec destination value size => [.register destination,.register value,.register size]
  | .reserveArray container additional => [.register container,.register additional]
  | .elementGet destination subject _ | .rest destination subject _ => [.register destination,.register subject]
  | .indexGetPath _ destination container firstIndex =>
    [.register destination,.register container,.register firstIndex]
  | .indexSet container index value | .vecIndexSet container index value | .dictIndexSet container index value
  | .dictIndexSetIntegerKey container index value _ | .dictIndexSetStringKey container index value
  | .indexAddAssign container index value _ => [.register container,.register index,.register value]
  | .indexSetPath _ container firstIndex value => [.register container,.register firstIndex,.register value]
  | .indexUpdatePath _ _ container operand => [.register container,.register operand]
  | .append container value | .vecAppend container value | .spread container value =>
    [.register container,.register value]
  | .contains destination array value => [.register destination,.register array,.register value]
  | .containsKey destination array key => [.register destination,.register array,.register key]
  | .remove destination container key => [.register destination,.register container,.register key]
  | .removeFirst destination container | .removeLast destination container =>
    [.register destination,.register container]
  | .checkDestructure subject _ _ _ | .throwUnhandledMatch subject => [.register subject]
  | .foreachInit iterator subject reserve => [.register iterator,.register subject,.optionalRegister reserve]
  | .foreachNext iterator keyDestination valueDestination
  | .vecForeachNext iterator keyDestination valueDestination _
  | .dictForeachNext iterator keyDestination valueDestination _ =>
    [.register iterator,.optionalRegister keyDestination,.register valueDestination]
  | .newDynamic destination className => [.register destination,.register className]
  | .newTyped destination descriptor => [.register destination,.typeDescriptor descriptor]
  | .initializeProperties object cache descriptor =>
    [.register object,.cache cache,.propertyInitializationDescriptor descriptor]
  | .propertyGet destination object cache | .propertyGetOrNull destination object cache =>
    [.register destination,.register object,.cache cache]
  | .propertyGetUnchecked destination object _ _ | .propertyGetOrNullUnchecked destination object _ =>
    [.register destination,.register object]
  | .propertyCoalesce destination object cache offset =>
    [.register destination,.register object,.cache cache,.jump offset.toInt32]
  | .propertyCoalesceUnchecked destination object _ offset =>
    [.register destination,.register object,.jump offset.toInt32]
  | .propertySet object value cache | .propertyInitRaw object value cache =>
    [.register object,.register value,.cache cache]
  | .propertySetUnchecked object value _ _ => [.register object,.register value]
  | .propertyIndexSet object _ cache | .propertyStep object cache _ _ | .propertyFillIntRange object _ cache =>
    [.register object,.cache cache]
  | .propertyIndexSetUnchecked object _ _ | .propertyStepUnchecked object _ _ _ => [.register object]
  | .propertyIndexUpdate object operand cache _ => [.register object,.register operand,.cache cache]
  | .propertyIndexUpdateUnchecked object operand _ _ => [.register object,.register operand]
  | .propertyAdd object source cache => [.register object,.register source,.cache cache]
  | .propertyAddUnchecked object source _ => [.register object,.register source]
  | .propertyRemove object destination cache _ => [.register object,.register destination,.cache cache]
  | .propertyRemoveUnchecked object destination _ _ => [.register object,.register destination]
  | .staticPropertyCoalesce destination cache offset => [.register destination,.cache cache,.relativeTarget offset]
  | .staticPropertySet cache value => [.cache cache,.register value]
  | .makeClosure _ destination prototype _ => [.register destination,.constant prototype]
  | .makeBound destination callee descriptor =>
    [.register destination,.register callee,.presetDescriptor descriptor]
  | .callValue _ destination callee _ | .callValueUnchecked _ destination callee _
  | .callValueDiscarded _ destination callee _ => [.register destination,.register callee]
  | .callNamedConstantUnchecked destination constant cache _ =>
    [.register destination,.constant constant,.cache cache]
  | .callWithNames destination callee descriptor | .callWithNamesDiscarded destination callee descriptor =>
    [.register destination,.register callee,.callDescriptor descriptor]
  | .checkDiscardedResult source | .return_ source | .returnUnchecked source | .returnReferenceUnchecked source
  | .returnScalarUnchecked source | .throw source => [.register source]
  | .returnIntegerUnchecked _ _ | .returnNull | .returnNullUnchecked | .checkWhereConstraints | .rethrow
  | .write _ _ _ _ | .debug _ _ | .drainFinalizers => []
  | .returnPairUnchecked first second => [.register first,.register second]
  | .is destination source descriptor | .asCheck destination source descriptor _
  | .asOrNull destination source descriptor => [.register destination,.register source,.typeDescriptor descriptor]
  | .checkDefined subject name => [.register subject,.constant name]
  | .checkSoleReference source message _ => [.register source,.constant message]
  | .panic message => [.register message]
  | .assert _ _ message text => [.optionalRegister message,.constant text]
  | .exit code => [.optionalRegister code]
  | .require _ destination path => [.register destination,.register path]

end Instruction
end Whim
