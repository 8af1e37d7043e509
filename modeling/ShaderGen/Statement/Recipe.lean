import ShaderGen.Predicate

/-!
How each statement is put together. A `Recipe` says which operands a statement
looks for and how its result type follows from theirs; many opcodes share one and
differ only in the test their operands must pass.
-/

namespace ShaderGen

/-- The way a statement is produced. -/
inductive Recipe where
  /-- A variable of the function. -/
  | localVariable
  | load
  | store
  | accessChain
  /-- One operand; the result has its type. -/
  | unary (test : Predicate)
  /-- Two operands of one type; the result has it too. -/
  | binary (test : Predicate)
  /-- An integer and a shift amount with as many components. -/
  | shift
  /-- A boolean vector, to a boolean. -/
  | reduceBool
  /-- A float, to as many booleans as it has components. -/
  | floatTest
  /-- Two operands of one shape, to as many booleans. -/
  | compare (test : Predicate)
  /-- A choice between two operands of one type by as many booleans. -/
  | select
  /-- A vector or matrix and a scalar of its component type. -/
  | timesScalar (test : Predicate)
  | vectorTimesMatrix
  | matrixTimesVector
  | matrixTimesMatrix
  | outerProduct
  | dot
  /-- A change of the scalar type that keeps the number of components. -/
  | conversion
  | extractDynamic
  | insertDynamic
  | shuffle
  | construct
  | extract
  | insert
  | transpose
  /-- An instruction of the extended set. -/
  | extended
  /-- Two blocks, of which a condition chooses one. -/
  | selection

/-- The recipe of an opcode; an opcode without one is never a statement of its
own. -/
def Opcode.recipe? : Opcode → Option Recipe
  | .var => some .localVariable
  | .load => some .load
  | .store => some .store
  | .accessChain => some .accessChain
  | .sNegate | .not => some (.unary Predicate.intLike)
  | .fNegate => some (.unary Predicate.floatLike)
  | .logicalNot => some (.unary Predicate.boolLike)
  | .bitCount | .bitReverse =>
    some (.unary (Predicate.intLike.and (Predicate.width 32)))
  | .copyObject => some (.unary Predicate.data)
  | .iAdd => some (.binary (Predicate.intLikeFor .iAdd))
  | .iSub => some (.binary (Predicate.intLikeFor .iSub))
  | .iMul => some (.binary (Predicate.intLikeFor .iMul))
  | .uDiv => some (.binary (Predicate.intLikeFor .uDiv))
  | .sDiv => some (.binary (Predicate.intLikeFor .sDiv))
  | .uMod => some (.binary (Predicate.intLikeFor .uMod))
  | .sRem => some (.binary (Predicate.intLikeFor .sRem))
  | .sMod => some (.binary (Predicate.intLikeFor .sMod))
  | .fAdd | .fSub | .fMul | .fDiv | .fRem | .fMod => some (.binary Predicate.floatLike)
  | .bitwiseOr | .bitwiseXor | .bitwiseAnd => some (.binary Predicate.intLike)
  | .logicalEqual | .logicalNotEqual | .logicalOr | .logicalAnd =>
    some (.binary Predicate.boolLike)
  | .shiftRightLogical | .shiftRightArithmetic | .shiftLeftLogical => some .shift
  | .any | .all => some .reduceBool
  | .isNan | .isInf => some .floatTest
  | .iEqual => some (.compare (Predicate.intLikeFor .iEqual))
  | .iNotEqual => some (.compare (Predicate.intLikeFor .iNotEqual))
  | .uGreaterThan => some (.compare (Predicate.intLikeFor .uGreaterThan))
  | .sGreaterThan => some (.compare (Predicate.intLikeFor .sGreaterThan))
  | .uGreaterThanEqual => some (.compare (Predicate.intLikeFor .uGreaterThanEqual))
  | .sGreaterThanEqual => some (.compare (Predicate.intLikeFor .sGreaterThanEqual))
  | .uLessThan => some (.compare (Predicate.intLikeFor .uLessThan))
  | .sLessThan => some (.compare (Predicate.intLikeFor .sLessThan))
  | .uLessThanEqual => some (.compare (Predicate.intLikeFor .uLessThanEqual))
  | .sLessThanEqual => some (.compare (Predicate.intLikeFor .sLessThanEqual))
  | .fOrdEqual | .fOrdNotEqual | .fOrdLessThan | .fOrdGreaterThan | .fOrdLessThanEqual
  | .fOrdGreaterThanEqual => some (.compare Predicate.floatLike)
  | .select => some .select
  | .vectorTimesScalar => some (.timesScalar Predicate.floatVector)
  | .matrixTimesScalar => some (.timesScalar Predicate.matrix)
  | .vectorTimesMatrix => some .vectorTimesMatrix
  | .matrixTimesVector => some .matrixTimesVector
  | .matrixTimesMatrix => some .matrixTimesMatrix
  | .outerProduct => some .outerProduct
  | .dot => some .dot
  | .convertFToU | .convertFToS | .convertSToF | .convertUToF | .uConvert | .sConvert | .fConvert
  | .bitcast => some .conversion
  | .vectorExtractDynamic => some .extractDynamic
  | .vectorInsertDynamic => some .insertDynamic
  | .vectorShuffle => some .shuffle
  | .compositeConstruct => some .construct
  | .compositeExtract => some .extract
  | .compositeInsert => some .insert
  | .transpose => some .transpose
  | .extInst => some .extended
  | .selectionMerge => some .selection
  | _ => none

end ShaderGen
