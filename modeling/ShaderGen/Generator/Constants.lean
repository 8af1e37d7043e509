import ShaderGen.Generator.Types

/-!
Producing constants. A scalar is drawn so that edge cases are frequent; the parts
of a composite are, half of the time, constants that exist already.
-/

namespace ShaderGen

/-- Integers at which arithmetic tends to go wrong. -/
def interestingInts : List Int := [0, 1, 2, -1, 7, 8, 31, 32, 255, 256, -128]

/-- The least and the greatest integer of a width. Both have to be computed in
words of 128 bits. -/
def intBounds (width : Nat) (signed : Bool) : Except Fault (Int × Int) :=
  if signed then
    let half : Int := (Nat.pow 2 (width - 1) : Nat)
    if 0 < width ∧ width < 128 then .ok (-half, half - 1) else .error .overflow
  else
    let all : Int := (Nat.pow 2 width : Nat)
    if width < 127 then .ok (0, all - 1) else .error .overflow

/-- The literal of an integer, and of zero if it does not fit 64 bits. -/
def intLiteral (signed : Bool) (value : Int) : Literal :=
  if signed then
    let half : Int := (UInt64.size / 2 : Nat)
    .int (if -half ≤ value ∧ value < half then value else 0)
  else .uint (if 0 ≤ value ∧ value < UInt64.size then value.toNat else 0)

/-- The nearest integer between two bounds. -/
def clampInt (lo hi value : Int) : Int :=
  if value < lo then lo else if hi < value then hi else value

namespace Gen

variable {ρ : Type} [RandomSource ρ]

/-- An integer literal: half of the time an interesting one brought into range. -/
def intValue (width : Nat) (signed : Bool) : Gen ρ Literal := do
  let (lo, hi) ← checked (intBounds width signed)
  if ← chance 0.5 then
    let k ← draw (RandomSource.below 2 interestingInts.length)
    return intLiteral signed (clampInt lo hi (interestingInts.getD k 0))
  else
    return intLiteral signed (← draw (RandomSource.between 4 lo hi))

/-- A float literal. Half precision only gets quarters between -256 and 256, which
it holds exactly. -/
def floatValue (width : Nat) : Gen ρ Literal :=
  if width = 16 then do
    return .ofReading (.ofQuarters (← draw (RandomSource.between 1 (-1023) 1023)))
  else if width = 32 then do
    return .ofSingle (← draw (RandomSource.single (-1.0e4) 1.0e4))
  else do
    return .ofFloat (← draw (RandomSource.double (-1.0e6) 1.0e6))

/-- An existing type that passes a test. -/
def existingType (test : Ty → Bool) : Gen ρ EntryId := do
  pick (((← get).code.table.types.filter fun (_, t) => test t).map Prod.fst)

/-- The existing constants of exactly a type. -/
def constantsOf (ty : EntryId) : Gen ρ (List EntryId) := do
  return ((← get).code.table.constants.filter fun (_, c) => c.ty == ty).map Prod.fst

/-- A constant of exactly a type, of which at most so many are nested in each
other. Void, pointers and functions have none. -/
def constantWithin : Nat → EntryId → Gen ρ EntryId
  | 0, _ => fault .cyclic
  | nesting + 1, ty => do
    let t ← query (·.typeAt ty)
    match t with
    | .bool => internConst (.bool ty (← chance 0.5))
    | .int width signed => internConst (.scalar ty (← intValue width signed))
    | .float width => internConst (.scalar ty (← floatValue width))
    | .vector .. | .matrix .. | .array .. | .struct .. =>
      let count ← query (·.componentCount ty)
      let parts ← (List.range count).mapM fun index => do
        let part ← require (← query (·.memberType? ty index))
        let existing ← constantsOf part
        if existing.isEmpty then constantWithin nesting part
        else if ← chance 0.5 then pick existing
        else constantWithin nesting part
      internConst (.composite ty parts)
    | .void | .pointer .. | .function .. => infeasible

/-- A constant of exactly a type. No type nests deeper than the table is long. -/
def constantOf (ty : EntryId) : Gen ρ EntryId := do
  constantWithin ((← get).code.table.size + 1) ty

/-- Produces a constant of one kind. -/
def constantVariant : Opcode → Gen ρ EntryId
  | .constantTrue => do internConst (.bool (← existingType (· == .bool)) true)
  | .constantFalse => do internConst (.bool (← existingType (· == .bool)) false)
  | .constant => do
    match ← attempt (existingType Ty.isNumericScalar) with
    | some ty => constantOf ty
    | none => constantOf (← type .numericType)
  | .constantComposite => do constantOf (← existingType Ty.isComposite)
  | _ => infeasible

/-- Produces a constant. -/
def constant : Gen ρ EntryId := dispatch .constant constantVariant

/-- The zero of a type, of which at most so many are nested in each other. -/
def zeroWithin : Nat → EntryId → Gen ρ EntryId
  | 0, _ => fault .cyclic
  | nesting + 1, ty => do
    let t ← query (·.typeAt ty)
    match t with
    | .bool => internConst (.bool ty false)
    | .int _ true => internConst (.scalar ty (.int 0))
    | .int _ false => internConst (.scalar ty (.uint 0))
    | .float _ => internConst (.scalar ty (.ofFloat 0.0))
    | .vector part count | .matrix part count =>
      let zero ← zeroWithin nesting part
      internConst (.composite ty (List.replicate count zero))
    | .array part _ =>
      let zero ← zeroWithin nesting part
      internConst (.composite ty (List.replicate (← query (·.componentCount ty)) zero))
    | .struct members => do internConst (.composite ty (← members.mapM (zeroWithin nesting)))
    | .void | .pointer .. | .function .. => infeasible

/-- The zero of a type: all parts of a composite are zero. -/
def zero (ty : EntryId) : Gen ρ EntryId := do
  zeroWithin ((← get).code.table.size + 1) ty

end Gen

end ShaderGen
