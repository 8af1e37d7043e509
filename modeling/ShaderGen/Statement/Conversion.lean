import ShaderGen.Statement.Elementwise

/-!
Conversions between numeric types. The number of components stays; the scalar
type changes to one the configuration allows. A bitcast keeps the width.
-/

namespace ShaderGen

/-- What a conversion may be applied to. -/
def Opcode.conversionTest (op : Opcode) : Predicate :=
  match op with
  | .convertFToU | .convertFToS | .fConvert => Predicate.floatLike
  | .bitcast => Predicate.numericLike
  | _ => Predicate.intLikeFor op

namespace Gen

variable {ρ : Type} [RandomSource ρ]

/-- The scalar type a conversion makes of a scalar type. -/
def convertedScalar (op : Opcode) (source : Ty) : Gen ρ Ty := do
  match op, source with
  | .convertFToU, .float _ => return .int (← intWidth) false
  | .convertFToS, .float _ => return .int (← intWidth) true
  | .convertSToF, .int .. | .convertUToF, .int .. => return .float (← floatWidth)
  | .uConvert, .int width signed | .sConvert, .int width signed =>
    return .int (← pick ((← read).intWidths.filter (· != width))) signed
  | .fConvert, .float width => return .float (← pick ((← read).floatWidths.filter (· != width)))
  | .bitcast, .int width signed =>
    if (← read).floatWidths.contains width then
      if ← chance 0.5 then return .float width
      return .int width !signed
    else return .int width !signed
  | .bitcast, .float width => return .int width (← chance 0.5)
  | _, _ => infeasible

/-- A conversion of a number or a vector of numbers. -/
def conversion (scope : ScopeId) (op : Opcode) : Gen ρ Production := do
  let (x, ty) ← typedOperand scope op.conversionTest
  let count ← query (·.componentCount ty)
  let source ← query (·.baseTy ty)
  let scalar ← internType (← convertedScalar op source)
  emit op (← withComponents scalar count) [.value x]

end Gen

end ShaderGen
