/-!
The instructions a generated module is written with. Every instruction has one
`Opcode`, an opcode belongs to one `Family`, and three questions decide how it
is written: whether it binds a result id (`hasResult`), whether it names a
result type (`isTyped`), and which signedness its integer operands must have
(`signedness`).
-/

namespace ShaderGen

/-- The kind of work an opcode does, in the order of the summary counts. -/
inductive Family where
  | type
  | constant
  | memory
  | arithmetic
  | bitwise
  | logical
  | conversion
  | composite
  | controlFlow
  | function
  | extension
deriving DecidableEq, Repr

namespace Family

/-- Every family, in declaration order. -/
def all : List Family :=
  [type, constant, memory, arithmetic, bitwise, logical, conversion, composite, controlFlow,
    function, extension]

/-- The family's name in a summary. -/
def name : Family → String
  | type => "Type"
  | constant => "Constant"
  | memory => "Memory"
  | arithmetic => "Arithmetic"
  | bitwise => "Bitwise"
  | logical => "Logical"
  | conversion => "Conversion"
  | composite => "Composite"
  | controlFlow => "ControlFlow"
  | function => "Function"
  | extension => "Extension"

end Family

/-- An instruction's operation, named after its mnemonic without the leading
`Op`; `var` and `ret` stand for `OpVariable` and `OpReturn`. -/
inductive Opcode where
  | typeVoid
  | typeBool
  | typeInt
  | typeFloat
  | typeVector
  | typeMatrix
  | typeArray
  | typeStruct
  | typePointer
  | typeFunction
  | constantTrue
  | constantFalse
  | constant
  | constantComposite
  | var
  | load
  | store
  | accessChain
  | sNegate
  | fNegate
  | iAdd
  | fAdd
  | iSub
  | fSub
  | iMul
  | fMul
  | uDiv
  | sDiv
  | fDiv
  | uMod
  | sRem
  | sMod
  | fRem
  | fMod
  | vectorTimesScalar
  | matrixTimesScalar
  | vectorTimesMatrix
  | matrixTimesVector
  | matrixTimesMatrix
  | outerProduct
  | dot
  | shiftRightLogical
  | shiftRightArithmetic
  | shiftLeftLogical
  | bitwiseOr
  | bitwiseXor
  | bitwiseAnd
  | not
  | bitCount
  | bitReverse
  | any
  | all
  | isNan
  | isInf
  | logicalEqual
  | logicalNotEqual
  | logicalOr
  | logicalAnd
  | logicalNot
  | select
  | iEqual
  | iNotEqual
  | uGreaterThan
  | sGreaterThan
  | uGreaterThanEqual
  | sGreaterThanEqual
  | uLessThan
  | sLessThan
  | uLessThanEqual
  | sLessThanEqual
  | fOrdEqual
  | fOrdNotEqual
  | fOrdLessThan
  | fOrdGreaterThan
  | fOrdLessThanEqual
  | fOrdGreaterThanEqual
  | convertFToU
  | convertFToS
  | convertSToF
  | convertUToF
  | uConvert
  | sConvert
  | fConvert
  | bitcast
  | vectorExtractDynamic
  | vectorInsertDynamic
  | vectorShuffle
  | compositeConstruct
  | compositeExtract
  | compositeInsert
  | copyObject
  | transpose
  | selectionMerge
  | branchConditional
  | branch
  | label
  | ret
  | function
  | functionParameter
  | functionEnd
  | extInst
deriving DecidableEq, Repr

namespace Opcode

/-- Every opcode, family by family. -/
def inventory : List Opcode :=
  [typeVoid, typeBool, typeInt, typeFloat, typeVector, typeMatrix, typeArray, typeStruct,
    typePointer, typeFunction, constantTrue, constantFalse, constant, constantComposite,
    var, load, store, accessChain, sNegate, fNegate, iAdd, fAdd, iSub, fSub, iMul, fMul,
    uDiv, sDiv, fDiv, uMod, sRem, sMod, fRem, fMod, vectorTimesScalar, matrixTimesScalar,
    vectorTimesMatrix, matrixTimesVector, matrixTimesMatrix, outerProduct, dot,
    shiftRightLogical, shiftRightArithmetic, shiftLeftLogical, bitwiseOr, bitwiseXor,
    bitwiseAnd, not, bitCount, bitReverse, any, all, isNan, isInf, logicalEqual,
    logicalNotEqual, logicalOr, logicalAnd, logicalNot, select, iEqual, iNotEqual,
    uGreaterThan, sGreaterThan, uGreaterThanEqual, sGreaterThanEqual, uLessThan, sLessThan,
    uLessThanEqual, sLessThanEqual, fOrdEqual, fOrdNotEqual, fOrdLessThan, fOrdGreaterThan,
    fOrdLessThanEqual, fOrdGreaterThanEqual, convertFToU, convertFToS, convertSToF,
    convertUToF, uConvert, sConvert, fConvert, bitcast, vectorExtractDynamic,
    vectorInsertDynamic, vectorShuffle, compositeConstruct, compositeExtract,
    compositeInsert, copyObject, transpose, selectionMerge, branchConditional, branch,
    label, ret, function, functionParameter, functionEnd, extInst]

/-- The mnemonic without its leading `Op`. -/
def word : Opcode → String
  | typeVoid => "TypeVoid"
  | typeBool => "TypeBool"
  | typeInt => "TypeInt"
  | typeFloat => "TypeFloat"
  | typeVector => "TypeVector"
  | typeMatrix => "TypeMatrix"
  | typeArray => "TypeArray"
  | typeStruct => "TypeStruct"
  | typePointer => "TypePointer"
  | typeFunction => "TypeFunction"
  | constantTrue => "ConstantTrue"
  | constantFalse => "ConstantFalse"
  | constant => "Constant"
  | constantComposite => "ConstantComposite"
  | var => "Variable"
  | load => "Load"
  | store => "Store"
  | accessChain => "AccessChain"
  | sNegate => "SNegate"
  | fNegate => "FNegate"
  | iAdd => "IAdd"
  | fAdd => "FAdd"
  | iSub => "ISub"
  | fSub => "FSub"
  | iMul => "IMul"
  | fMul => "FMul"
  | uDiv => "UDiv"
  | sDiv => "SDiv"
  | fDiv => "FDiv"
  | uMod => "UMod"
  | sRem => "SRem"
  | sMod => "SMod"
  | fRem => "FRem"
  | fMod => "FMod"
  | vectorTimesScalar => "VectorTimesScalar"
  | matrixTimesScalar => "MatrixTimesScalar"
  | vectorTimesMatrix => "VectorTimesMatrix"
  | matrixTimesVector => "MatrixTimesVector"
  | matrixTimesMatrix => "MatrixTimesMatrix"
  | outerProduct => "OuterProduct"
  | dot => "Dot"
  | shiftRightLogical => "ShiftRightLogical"
  | shiftRightArithmetic => "ShiftRightArithmetic"
  | shiftLeftLogical => "ShiftLeftLogical"
  | bitwiseOr => "BitwiseOr"
  | bitwiseXor => "BitwiseXor"
  | bitwiseAnd => "BitwiseAnd"
  | not => "Not"
  | bitCount => "BitCount"
  | bitReverse => "BitReverse"
  | any => "Any"
  | all => "All"
  | isNan => "IsNan"
  | isInf => "IsInf"
  | logicalEqual => "LogicalEqual"
  | logicalNotEqual => "LogicalNotEqual"
  | logicalOr => "LogicalOr"
  | logicalAnd => "LogicalAnd"
  | logicalNot => "LogicalNot"
  | select => "Select"
  | iEqual => "IEqual"
  | iNotEqual => "INotEqual"
  | uGreaterThan => "UGreaterThan"
  | sGreaterThan => "SGreaterThan"
  | uGreaterThanEqual => "UGreaterThanEqual"
  | sGreaterThanEqual => "SGreaterThanEqual"
  | uLessThan => "ULessThan"
  | sLessThan => "SLessThan"
  | uLessThanEqual => "ULessThanEqual"
  | sLessThanEqual => "SLessThanEqual"
  | fOrdEqual => "FOrdEqual"
  | fOrdNotEqual => "FOrdNotEqual"
  | fOrdLessThan => "FOrdLessThan"
  | fOrdGreaterThan => "FOrdGreaterThan"
  | fOrdLessThanEqual => "FOrdLessThanEqual"
  | fOrdGreaterThanEqual => "FOrdGreaterThanEqual"
  | convertFToU => "ConvertFToU"
  | convertFToS => "ConvertFToS"
  | convertSToF => "ConvertSToF"
  | convertUToF => "ConvertUToF"
  | uConvert => "UConvert"
  | sConvert => "SConvert"
  | fConvert => "FConvert"
  | bitcast => "Bitcast"
  | vectorExtractDynamic => "VectorExtractDynamic"
  | vectorInsertDynamic => "VectorInsertDynamic"
  | vectorShuffle => "VectorShuffle"
  | compositeConstruct => "CompositeConstruct"
  | compositeExtract => "CompositeExtract"
  | compositeInsert => "CompositeInsert"
  | copyObject => "CopyObject"
  | transpose => "Transpose"
  | selectionMerge => "SelectionMerge"
  | branchConditional => "BranchConditional"
  | branch => "Branch"
  | label => "Label"
  | ret => "Return"
  | function => "Function"
  | functionParameter => "FunctionParameter"
  | functionEnd => "FunctionEnd"
  | extInst => "ExtInst"

/-- The assembly mnemonic, such as `OpIAdd`. -/
def mnemonic (op : Opcode) : String := "Op" ++ op.word

/-- The opcode a word such as `IAdd` names. -/
def ofWord? (word : String) : Option Opcode := inventory.find? fun op => op.word == word

/-- The family an opcode belongs to. -/
def family : Opcode → Family
  | typeVoid | typeBool | typeInt | typeFloat | typeVector | typeMatrix | typeArray
  | typeStruct | typePointer | typeFunction => .type
  | constantTrue | constantFalse | constant | constantComposite => .constant
  | var | load | store | accessChain => .memory
  | sNegate | fNegate | iAdd | fAdd | iSub | fSub | iMul | fMul | uDiv | sDiv | fDiv | uMod
  | sRem | sMod | fRem | fMod | vectorTimesScalar | matrixTimesScalar | vectorTimesMatrix
  | matrixTimesVector | matrixTimesMatrix | outerProduct | dot => .arithmetic
  | shiftRightLogical | shiftRightArithmetic | shiftLeftLogical | bitwiseOr | bitwiseXor
  | bitwiseAnd | not | bitCount | bitReverse => .bitwise
  | any | all | isNan | isInf | logicalEqual | logicalNotEqual | logicalOr | logicalAnd
  | logicalNot | select | iEqual | iNotEqual | uGreaterThan | sGreaterThan
  | uGreaterThanEqual | sGreaterThanEqual | uLessThan | sLessThan | uLessThanEqual
  | sLessThanEqual | fOrdEqual | fOrdNotEqual | fOrdLessThan | fOrdGreaterThan
  | fOrdLessThanEqual | fOrdGreaterThanEqual => .logical
  | convertFToU | convertFToS | convertSToF | convertUToF | uConvert | sConvert | fConvert
  | bitcast => .conversion
  | vectorExtractDynamic | vectorInsertDynamic | vectorShuffle | compositeConstruct
  | compositeExtract | compositeInsert | copyObject | transpose => .composite
  | selectionMerge | branchConditional | branch | label | ret => .controlFlow
  | function | functionParameter | functionEnd => .function
  | extInst => .extension

/-- Whether the instruction binds an id for its result. -/
def hasResult : Opcode → Bool
  | store | selectionMerge | branchConditional | branch | ret | functionEnd => false
  | _ => true

/-- Whether the instruction names the type of its result. A label binds an id
but has no type. -/
def isTyped : Opcode → Bool
  | store | selectionMerge | branchConditional | branch | ret | functionEnd | label => false
  | _ => true

/-- The signedness the opcode asks of its integer operands: `some true` for
signed, `some false` for unsigned, `none` where either will do. -/
def signedness : Opcode → Option Bool
  | sDiv | sRem | sMod | sGreaterThan | sGreaterThanEqual | sLessThan | sLessThanEqual
  | convertSToF | convertFToS | sConvert => some true
  | uDiv | uMod | uGreaterThan | uGreaterThanEqual | uLessThan | uLessThanEqual
  | convertUToF | convertFToU | uConvert => some false
  | _ => none

/-- An instruction that names a result type also binds a result id. -/
theorem hasResult_of_isTyped {op : Opcode} (h : op.isTyped = true) : op.hasResult = true := by
  cases op <;> first | rfl | simp [isTyped] at h

end Opcode

end ShaderGen
