import ShaderGen.Statement.Elementwise

/-!
Instructions of the extended set. They are tried in random order, and operands
are limited to 32 bits, which every target supports.
-/

namespace ShaderGen

namespace Predicate

/-- Floats of 32 bits, or vectors of them. -/
def float32Like : Predicate := floatLike.and (width 32)

/-- Integers of 32 bits and one signedness, or vectors of them. -/
def int32Like (signed : Bool) : Predicate :=
  (intLike.and (width 32)).and (base fun t => t.signed? == some signed)

/-- Vectors of three floats of 32 bits. -/
def float32Triple : Predicate :=
  (floatVector.and float32Like).and fun m id => return (← m.componentCount id) = 3

end Predicate

namespace ExtendedShape

/-- The test the first operand must pass. -/
def test : ExtendedShape → Predicate
  | float _ | floatReduce _ => Predicate.float32Like
  | signedInt _ => Predicate.int32Like true
  | unsignedInt _ => Predicate.int32Like false
  | cross => Predicate.float32Triple

/-- The number of operands. -/
def arity (s : ExtendedShape) : Nat := s.arity?.getD 2

/-- Whether the result is the scalar of the operands' type. -/
def reduces : ExtendedShape → Bool
  | floatReduce _ => true
  | _ => false

end ExtendedShape

namespace Gen

variable {ρ : Type} [RandomSource ρ]

/-- One extended instruction. The set is imported once its operands are found. -/
def extendedWith (scope : ScopeId) (op : ExtendedOp) : Gen ρ Production := do
  let shape := op.shape
  let (first, ty) ← typedOperand scope shape.test
  let others ← (List.range (shape.arity - 1)).mapM fun _ => operandOf scope ty
  let resultTy ← if shape.reduces then query (·.baseType ty) else pure ty
  let set ← build (·.importSet ExtendedOp.setName)
  emit .extInst resultTy
    (.importSet set :: .extended op :: .value first :: others.map Operand.value)

/-- The first of some extended instructions that finds its operands. -/
def firstExtended (scope : ScopeId) : List ExtendedOp → Gen ρ Production
  | [] => infeasible
  | op :: ops => do
    match ← attempt (extendedWith scope op) with
    | some production => pure production
    | none => firstExtended scope ops

/-- Some extended instruction. -/
@[irreducible]
def extended (scope : ScopeId) : Gen ρ Production := do
  firstExtended scope (← draw (RandomSource.shuffle ExtendedOp.all))

end Gen

end ShaderGen
