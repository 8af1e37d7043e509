import ShaderGen.Statement.Memory

/-!
Statements that take composites apart and put them together.
-/

namespace ShaderGen.Gen

variable {ρ : Type} [RandomSource ρ]

/-- A vector with its type, its element type and its number of components. -/
def vectorOperand (scope : ScopeId) : Gen ρ (Value × EntryId × EntryId × Nat) := do
  let (v, ty) ← typedOperand scope Predicate.vector
  match ← query (·.typeAt ty) with
  | .vector element count => pure (v, ty, element, count)
  | _ => infeasible

/-- The component of a vector at an index known only when it runs. -/
def extractDynamic (scope : ScopeId) : Gen ρ Production := do
  let (v, _, element, _) ← vectorOperand scope
  let index ← operand scope Predicate.int
  emit .vectorExtractDynamic element [.value v, .value index]

/-- A vector with the component at such an index replaced. -/
def insertDynamic (scope : ScopeId) : Gen ρ Production := do
  let (v, ty, element, _) ← vectorOperand scope
  let component ← operandOf scope element
  let index ← operand scope Predicate.int
  emit .vectorInsertDynamic ty [.value v, .value component, .value index]

/-- Vectors of the given element type. -/
def vectorOf (element : EntryId) : Predicate :=
  Predicate.vector.and fun m id => return (← m.elementType? id) = some element

/-- A vector of components chosen from those of two others. -/
def shuffle (scope : ScopeId) : Gen ρ Production := do
  let (first, _, element, firstCount) ← vectorOperand scope
  let (second, secondTy) ← typedOperand scope (vectorOf element)
  let secondCount ← query (·.componentCount secondTy)
  let count ← range 2 4
  let ty ← withComponents element count
  let components ← (List.range count).mapM fun _ => do
    let all ← checked (Fault.checkWord 32 (firstCount + secondCount))
    if all = 0 then fault .overflow
    return Operand.literal (← range 0 (all - 1))
  emit .vectorShuffle ty (.value first :: .value second :: components)

/-- A composite of an existing type, made of values of exactly its part types. -/
def construct (scope : ScopeId) : Gen ρ Production := do
  let ty ← existingType Ty.isComposite
  let count ← query (·.componentCount ty)
  let parts ← (List.range count).mapM fun index => do
    let part ← require (← query (·.memberType? ty index))
    return Operand.value (← operandOf scope part)
  emit .compositeConstruct ty parts

/-- Literal indices into so many levels of a type, as far as its parts are
composite, and the type they reach. -/
def literalPath : Nat → EntryId → Gen ρ (List Nat × EntryId)
  | 0, ty => pure ([], ty)
  | levels + 1, ty => do
    if (← query (·.typeAt ty)).isComposite then
      let (index, part) ← randomPart ty
      let (path, target) ← literalPath levels part
      return (index :: path, target)
    else pure ([], ty)

/-- A part of a composite, one or two levels down. -/
def extract (scope : ScopeId) : Gen ρ Production := do
  let (c, ty) ← typedOperand scope Predicate.composite
  let (path, part) ← literalPath (← range 1 2) ty
  emit .compositeExtract part (.value c :: path.map Operand.literal)

/-- A composite with such a part replaced. -/
def insert (scope : ScopeId) : Gen ρ Production := do
  let (c, ty) ← typedOperand scope Predicate.composite
  let (path, part) ← literalPath (← range 1 2) ty
  let object ← operandOf scope part
  emit .compositeInsert ty (.value object :: .value c :: path.map Operand.literal)

/-- A matrix with rows and columns exchanged. -/
def transpose (scope : ScopeId) : Gen ρ Production := do
  let (a, ty) ← typedOperand scope Predicate.matrix
  match ← query (·.typeAt ty) with
  | .matrix column columns =>
    let rows ← query (·.componentCount column)
    let scalar ← query (·.baseType column)
    let newColumn ← withComponents scalar columns
    emit .transpose (← internType (.matrix newColumn rows)) [.value a]
  | _ => infeasible

end ShaderGen.Gen
