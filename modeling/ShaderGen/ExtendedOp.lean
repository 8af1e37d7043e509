/-!
The instructions of the extended set `GLSL.std.450` and the shape each one asks
of its operands.
-/

namespace ShaderGen

/-- What an extended instruction reads and yields. -/
inductive ExtendedShape where
  /-- Floats, or vectors of them, all of the result's type. -/
  | float (arity : Nat)
  /-- Signed integers, or vectors of them, all of the result's type. -/
  | signedInt (arity : Nat)
  /-- Unsigned integers, or vectors of them, all of the result's type. -/
  | unsignedInt (arity : Nat)
  /-- Floats, or vectors of them, to their scalar. -/
  | floatReduce (arity : Nat)
  /-- Two vectors of three floats to a third. -/
  | cross
deriving DecidableEq, Repr

namespace ExtendedShape

/-- The shape's name. -/
def name : ExtendedShape → String
  | float _ => "Float"
  | signedInt _ => "SignedInt"
  | unsignedInt _ => "UnsignedInt"
  | floatReduce _ => "FloatReduce"
  | cross => "Cross"

/-- The number of operands where the shape leaves it open. -/
def arity? : ExtendedShape → Option Nat
  | float n | signedInt n | unsignedInt n | floatReduce n => some n
  | cross => none

end ExtendedShape

/-- An instruction of the extended set. -/
inductive ExtendedOp where
  | round | roundEven | trunc | fAbs | sAbs | fSign | sSign | floor | ceil | fract
  | sin | cos | tan | atan | exp | exp2
  | fMin | uMin | sMin | fMax | uMax | sMax
  | fma | length | distance | cross | normalize | step | fMix
deriving DecidableEq, Repr

namespace ExtendedOp

/-- The name under which a module imports the set. -/
def setName : String := "GLSL.std.450"

/-- Every instruction of the set, in declaration order. -/
def all : List ExtendedOp :=
  [round, roundEven, trunc, fAbs, sAbs, fSign, sSign, floor, ceil, fract, sin, cos, tan, atan,
    exp, exp2, fMin, uMin, sMin, fMax, uMax, sMax, fma, length, distance, cross, normalize, step,
    fMix]

/-- The instruction's name in the assembly. -/
def name : ExtendedOp → String
  | round => "Round"
  | roundEven => "RoundEven"
  | trunc => "Trunc"
  | fAbs => "FAbs"
  | sAbs => "SAbs"
  | fSign => "FSign"
  | sSign => "SSign"
  | floor => "Floor"
  | ceil => "Ceil"
  | fract => "Fract"
  | sin => "Sin"
  | cos => "Cos"
  | tan => "Tan"
  | atan => "Atan"
  | exp => "Exp"
  | exp2 => "Exp2"
  | fMin => "FMin"
  | uMin => "UMin"
  | sMin => "SMin"
  | fMax => "FMax"
  | uMax => "UMax"
  | sMax => "SMax"
  | fma => "Fma"
  | length => "Length"
  | distance => "Distance"
  | cross => "Cross"
  | normalize => "Normalize"
  | step => "Step"
  | fMix => "FMix"

/-- The instruction of a name. -/
def ofName? (name : String) : Option ExtendedOp := all.find? fun op => op.name == name

/-- The shape of an instruction. -/
def shape : ExtendedOp → ExtendedShape
  | round | roundEven | trunc | fAbs | fSign | floor | ceil | fract | sin | cos | tan | atan
  | exp | exp2 | normalize => .float 1
  | fMin | fMax | step => .float 2
  | fma | fMix => .float 3
  | sAbs | sSign => .signedInt 1
  | sMin | sMax => .signedInt 2
  | uMin | uMax => .unsignedInt 2
  | length => .floatReduce 1
  | distance => .floatReduce 2
  | cross => .cross

end ExtendedOp

end ShaderGen
