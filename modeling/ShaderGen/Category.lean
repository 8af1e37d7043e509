import ShaderGen.Opcode

/-!
What can be asked for. A `Category` is a closed list of opcodes; production of
a category draws one of its `members` by weight. The type categories narrow as
types nest: a struct holds no struct, an array holds scalars and vectors, a
vector holds scalars.
-/

namespace ShaderGen

/-- A class of interchangeable productions. -/
inductive Category where
  /-- Any type that is drawn; void and pointers are only made where needed. -/
  | type
  | scalarType
  | numericType
  /-- Numeric scalars and vectors: what a function parameter may be. -/
  | arithmeticType
  | containerType
  /-- What an array may hold. -/
  | arrayElementType
  /-- What a struct may hold. -/
  | structMemberType
  | constant
  /-- Anything a block may hold. -/
  | statement
deriving DecidableEq, Repr

namespace Category

/-- Every category, in declaration order. -/
def all : List Category :=
  [type, scalarType, numericType, arithmeticType, containerType, arrayElementType,
    structMemberType, constant, statement]

/-- The category's name in messages. -/
def name : Category → String
  | type => "Type"
  | scalarType => "ScalarType"
  | numericType => "NumericType"
  | arithmeticType => "ArithmeticType"
  | containerType => "ContainerType"
  | arrayElementType => "ArrayElementType"
  | structMemberType => "StructMemberType"
  | constant => "Constant"
  | statement => "Statement"

/-- The category of a name. -/
def ofName? (name : String) : Option Category := all.find? fun c => c.name == name

/-- Whether the category produces types. -/
def isType : Category → Bool
  | constant | statement => false
  | _ => true

/-- The opcodes a block may hold. Labels, branches, returns and the delimiters
of functions are written by the structure around statements and never drawn. -/
def statementOpcodes : List Opcode :=
  [.var, .load, .store, .accessChain,
    .sNegate, .fNegate, .iAdd, .fAdd, .iSub, .fSub, .iMul, .fMul, .uDiv, .sDiv, .fDiv, .uMod,
    .sRem, .sMod, .fRem, .fMod, .vectorTimesScalar, .matrixTimesScalar, .vectorTimesMatrix,
    .matrixTimesVector, .matrixTimesMatrix, .outerProduct, .dot,
    .shiftRightLogical, .shiftRightArithmetic, .shiftLeftLogical, .bitwiseOr, .bitwiseXor,
    .bitwiseAnd, .not, .bitCount, .bitReverse,
    .any, .all, .isNan, .isInf, .logicalEqual, .logicalNotEqual, .logicalOr, .logicalAnd,
    .logicalNot, .select, .iEqual, .iNotEqual, .uGreaterThan, .sGreaterThan,
    .uGreaterThanEqual, .sGreaterThanEqual, .uLessThan, .sLessThan, .uLessThanEqual,
    .sLessThanEqual, .fOrdEqual, .fOrdNotEqual, .fOrdLessThan, .fOrdGreaterThan,
    .fOrdLessThanEqual, .fOrdGreaterThanEqual,
    .convertFToU, .convertFToS, .convertSToF, .convertUToF, .uConvert, .sConvert, .fConvert,
    .bitcast,
    .vectorExtractDynamic, .vectorInsertDynamic, .vectorShuffle, .compositeConstruct,
    .compositeExtract, .compositeInsert, .copyObject, .transpose,
    .selectionMerge,
    .extInst]

/-- The productions of a category, in the order the weights follow. -/
def members : Category → List Opcode
  | type =>
    [.typeBool, .typeInt, .typeFloat, .typeVector, .typeMatrix, .typeArray, .typeStruct,
      .typeFunction]
  | scalarType => [.typeBool, .typeInt, .typeFloat]
  | numericType => [.typeInt, .typeFloat]
  | arithmeticType => [.typeInt, .typeFloat, .typeVector]
  | containerType => [.typeVector, .typeMatrix, .typeArray, .typeStruct]
  | arrayElementType => [.typeBool, .typeInt, .typeFloat, .typeVector]
  | structMemberType =>
    [.typeBool, .typeInt, .typeFloat, .typeVector, .typeMatrix, .typeArray]
  | constant => [.constantTrue, .constantFalse, .constant, .constantComposite]
  | statement => statementOpcodes

/-- No category lists a production twice. -/
theorem members_nodup (c : Category) : c.members.Nodup := by
  cases c <;> decide +kernel

end Category

end ShaderGen
