import ShaderGen.Generator.Dispatch

/-!
Producing types. The parts of a type come from narrower categories: vectors are
made of scalars, arrays of scalars and vectors, structs of anything but structs,
and parameters are numeric. `Category.nesting` bounds how far that goes, and
production recurs on it.
-/

namespace ShaderGen

/-- How many types are nested in each other at most in a type of the category,
itself not counted. -/
def Category.nesting : Category → Nat
  | type | containerType => 3
  | structMemberType => 2
  | arrayElementType | arithmeticType => 1
  | _ => 0

namespace Gen

variable {ρ : Type} [RandomSource ρ]

/-- A width integers may have. -/
def intWidth : Gen ρ Nat := do pick (← read).intWidths

/-- A width floats may have. -/
def floatWidth : Gen ρ Nat := do pick (← read).floatWidths

/-- A vector of so many components, and the scalar itself for just one. -/
def withComponents (scalar : EntryId) (count : Nat) : Gen ρ EntryId :=
  if count ≤ 1 then pure scalar else internType (.vector scalar count)

/-- The constant of a scalar type with the given value. -/
def scalarConstant (ty : Ty) (value : Literal) : Gen ρ EntryId := do
  internConst (.scalar (← internType ty) value)

/-- The unsigned 32-bit constant of a number. -/
def indexConstant (n : Nat) : Gen ρ EntryId := scalarConstant (.int 32 false) (.uint n)

/-- A matrix of floats, with its column type. -/
def matrixType : Gen ρ Ty := do
  let scalar ← internType (.float (← floatWidth))
  let column ← internType (.vector scalar (← range 2 4))
  return .matrix column (← range 2 4)

/-- Whether the session has as many function types as it may have. -/
def functionsFull : Gen ρ Bool := return (← read).maxFunctions ≤ (← get).functionTypes.size

/-- Records a function type. The last one allowed ends the drawing of more. -/
def addFunctionType (id : EntryId) : Gen ρ Unit := do
  modify fun s => { s with functionTypes := s.functionTypes.push id }
  if ← functionsFull then pinZero .type .typeFunction

/-- A function without result, and parameters of the nested category. -/
def functionType (nested : Category → Gen ρ EntryId) : Gen ρ EntryId := do
  if ← functionsFull then infeasible
  let result ← internType .void
  let count ← range 0 3
  let params ← (List.replicate count Category.arithmeticType).mapM nested
  let id ← internType (.function result params)
  addFunctionType id
  return id

/-- Produces a type of one kind; `nested` produces its parts. -/
def typeVariant (nested : Category → Gen ρ EntryId) : Opcode → Gen ρ EntryId
  | .typeBool => internType .bool
  | .typeInt => do
    let width ← intWidth
    internType (.int width (← chance 0.5))
  | .typeFloat => do internType (.float (← floatWidth))
  | .typeVector => do
    let element ← nested .scalarType
    internType (.vector element (← range 2 4))
  | .typeMatrix => do internType (← matrixType)
  | .typeArray => do
    let element ← nested .arrayElementType
    let length ← range 1 8
    internType (.array element (← indexConstant length))
  | .typeStruct => do
    let count ← range 1 4
    internType (.struct (← (List.replicate count Category.structMemberType).mapM nested))
  | .typeFunction => functionType nested
  | _ => infeasible

/-- Produces a type of a category whose parts nest at most so far. -/
def typeWithin : Nat → Category → Gen ρ EntryId
  | 0, c => dispatch c (typeVariant fun _ => fault .outOfSteps)
  | nesting + 1, c => dispatch c (typeVariant (typeWithin nesting))

/-- Produces a type of a category. -/
def type (c : Category) : Gen ρ EntryId := typeWithin c.nesting c

end Gen

end ShaderGen
