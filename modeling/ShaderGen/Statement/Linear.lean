import ShaderGen.Statement.Elementwise

/-!
Linear algebra. A matrix is a row of columns: it has as many columns as its
count, and as many rows as its column type has components.
-/

namespace ShaderGen.Gen

variable {ρ : Type} [RandomSource ρ]

/-- A matrix with its column type and its number of columns. -/
def matrixOperand (scope : ScopeId) : Gen ρ (Value × EntryId × Nat) := do
  let (a, ty) ← typedOperand scope Predicate.matrix
  match ← query (·.typeAt ty) with
  | .matrix column count => pure (a, column, count)
  | _ => infeasible

/-- A vector or matrix times a scalar of its component type. -/
def timesScalar (scope : ScopeId) (op : Opcode) (test : Predicate) : Gen ρ Production := do
  let (a, ty) ← typedOperand scope test
  let scalar ← operandOf scope (← query (·.baseType ty))
  emit op ty [.value a, .value scalar]

/-- A row vector times a matrix: a component for each column. -/
def vectorTimesMatrix (scope : ScopeId) : Gen ρ Production := do
  let (a, column, columns) ← matrixOperand scope
  let v ← operandOf scope column
  let scalar ← query (·.baseType column)
  emit .vectorTimesMatrix (← internType (.vector scalar columns)) [.value v, .value a]

/-- A matrix times a vector with a component for each column: a column. -/
def matrixTimesVector (scope : ScopeId) : Gen ρ Production := do
  let (a, column, columns) ← matrixOperand scope
  let scalar ← query (·.baseType column)
  let v ← operandOf scope (← internType (.vector scalar columns))
  emit .matrixTimesVector column [.value a, .value v]

/-- Matrices whose columns have the given type. -/
def matrixOf (column : EntryId) : Predicate := Predicate.ofTy fun
  | .matrix c _ => c == column
  | _ => false

/-- A matrix times one that has as many rows as the first has columns. -/
def matrixTimesMatrix (scope : ScopeId) : Gen ρ Production := do
  let (left, column, columns) ← matrixOperand scope
  let scalar ← query (·.baseType column)
  let (right, ty) ← typedOperand scope (matrixOf (← internType (.vector scalar columns)))
  let rightColumns ← query (·.componentCount ty)
  emit .matrixTimesMatrix (← internType (.matrix column rightColumns))
    [.value left, .value right]

/-- A column vector times a row vector of the same scalars: a column for each
component of the second. -/
def outerProduct (scope : ScopeId) : Gen ρ Production := do
  let (a, column) ← typedOperand scope Predicate.floatVector
  let scalar ← query (·.baseType column)
  let (b, row) ← typedOperand scope
    (Predicate.floatVector.and fun m id => return (← m.baseType id) = scalar)
  let columns ← query (·.componentCount row)
  emit .outerProduct (← internType (.matrix column columns)) [.value a, .value b]

/-- The scalar product of two vectors of one type. -/
def dot (scope : ScopeId) : Gen ρ Production := do
  let (a, ty) ← typedOperand scope Predicate.floatVector
  let b ← operandOf scope ty
  emit .dot (← query (·.baseType ty)) [.value a, .value b]

end ShaderGen.Gen
