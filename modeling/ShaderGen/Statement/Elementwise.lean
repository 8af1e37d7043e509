import ShaderGen.Generator.Operands
import ShaderGen.Generator.Types

/-!
Statements that work component by component: arithmetic, bit operations, logic,
comparisons and choices. The result has as many components as the operands.
-/

namespace ShaderGen

/-- What producing a statement adds to its block. -/
structure Production where
  /-- Instructions appended to the block, in order. -/
  stream : List InstrId := []
  /-- Instructions whose results later statements may read. -/
  visible : List InstrId := []
  /-- Variables for the entry block of the function. -/
  hoisted : List InstrId := []
deriving DecidableEq, Repr

/-- One instruction that later statements may read. -/
def Production.single (id : InstrId) : Production := { stream := [id], visible := [id] }

namespace Gen

variable {ρ : Type} [RandomSource ρ]

/-- Adds a statement with a result of the given type. -/
def emit (op : Opcode) (ty : EntryId) (operands : List Operand) : Gen ρ Production := do
  return .single (← alloc ⟨op, some ty, operands⟩)

/-- A boolean for one component, a boolean vector for more. -/
def boolWithComponents (count : Nat) : Gen ρ EntryId := do
  withComponents (← internType .bool) count

/-- One operand; the result has its type. -/
def unary (scope : ScopeId) (op : Opcode) (test : Predicate) : Gen ρ Production := do
  let (a, ty) ← typedOperand scope test
  emit op ty [.value a]

/-- Two operands of one type; the result has it too. -/
def binary (scope : ScopeId) (op : Opcode) (test : Predicate) : Gen ρ Production := do
  let (a, ty) ← typedOperand scope test
  let b ← operandOf scope ty
  emit op ty [.value a, .value b]

/-- A shift by an amount of any integer type with as many components. -/
def shift (scope : ScopeId) (op : Opcode) : Gen ρ Production := do
  let (base, ty) ← typedOperand scope Predicate.intLike
  let count ← query (·.componentCount ty)
  let amount ← operand scope
    (Predicate.intLike.and fun m id => return (← m.componentCount id) = count)
  emit op ty [.value base, .value amount]

/-- A boolean vector, to a boolean. -/
def reduceBool (scope : ScopeId) (op : Opcode) : Gen ρ Production := do
  let v ← operand scope Predicate.boolVector
  emit op (← internType .bool) [.value v]

/-- A test of floats. -/
def floatTest (scope : ScopeId) (op : Opcode) : Gen ρ Production := do
  let (x, ty) ← typedOperand scope Predicate.floatLike
  let count ← query (·.componentCount ty)
  emit op (← boolWithComponents count) [.value x]

/-- A comparison of two operands of one shape. Integers of different signedness
may meet where the opcode allows both. -/
def compare (scope : ScopeId) (op : Opcode) (test : Predicate) : Gen ρ Production := do
  let (a, ty) ← typedOperand scope test
  let b ← operandLike scope test ty
  let count ← query (·.componentCount ty)
  emit op (← boolWithComponents count) [.value a, .value b]

/-- A choice between two scalars or vectors of one type, component by
component. -/
def select (scope : ScopeId) : Gen ρ Production := do
  let (a, ty) ← typedOperand scope Predicate.scalarOrVector
  let b ← operandOf scope ty
  let count ← query (·.componentCount ty)
  let condition ← operandOf scope (← boolWithComponents count)
  emit .select ty [.value condition, .value a, .value b]

end Gen

end ShaderGen
