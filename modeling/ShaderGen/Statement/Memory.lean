import ShaderGen.Generator.Variables
import ShaderGen.Statement.Elementwise

/-!
Statements about storage: variables of the function, loads, stores and pointers
to parts.
-/

namespace ShaderGen

/-- Pointers to something that passes a test. -/
def Predicate.pointerTo (test : Predicate) : Predicate := fun m id => do
  match ← m.pointee? id with
  | some (_, pointee) => test m pointee
  | none => pure false

namespace Gen

variable {ρ : Type} [RandomSource ρ]

/-- The visible pointers to something that passes a test: those that statements
yield and the variables of the module. -/
def pointersWhere (s : State ρ) (scope : ScopeId) (test : Predicate) :
    Except Fault (List Value) := do
  let statements ← s.statementsWhere scope (Predicate.pointerTo test)
  let vars ← s.code.table.vars.filterM fun (_, v) => Predicate.pointerTo test s.code v.ty
  return statements ++ vars.map fun (id, _) => .entry id

/-- A pointer with its storage class and what it points to. -/
def pointerOperand (scope : ScopeId) (test : Predicate) :
    Gen ρ (Value × StorageClass × EntryId) := do
  let pointer ← pick (← ask (pointersWhere · scope test))
  let ty ← typeOf pointer
  let (storage, pointee) ← require (← query (·.pointee? ty))
  return (pointer, storage, pointee)

/-- A variable of the function. It is declared in the entry block, so nothing
enters the stream. -/
def localVariable : Gen ρ Production := do
  match ← newVariable .function (← variableType) with
  | .instr id => return { visible := [id], hoisted := [id] }
  | .entry _ => infeasible

/-- The value behind a pointer. -/
def load (scope : ScopeId) : Gen ρ Production := do
  let (pointer, _, pointee) ← pointerOperand scope Predicate.data
  emit .load pointee [.value pointer]

/-- A value put behind a pointer. -/
def store (scope : ScopeId) : Gen ρ Production := do
  let (pointer, _, pointee) ← pointerOperand scope Predicate.data
  let value ← operandOf scope pointee
  return { stream := [← alloc ⟨.store, none, [.value pointer, .value value]⟩] }

/-- A part of a composite type at a random index. -/
def randomPart (ty : EntryId) : Gen ρ (Nat × EntryId) := do
  let index ← range 0 ((← query (·.componentCount ty)) - 1)
  return (index, ← require (← query (·.memberType? ty index)))

/-- The constants that index so many levels of a type, as far as its parts are
composite, and the type they reach. -/
def constantPath : Nat → EntryId → Gen ρ (List EntryId × EntryId)
  | 0, ty => pure ([], ty)
  | levels + 1, ty => do
    if (← query (·.typeAt ty)).isComposite then
      let (index, part) ← randomPart ty
      let constant ← indexConstant index
      let (path, target) ← constantPath levels part
      return (constant :: path, target)
    else pure ([], ty)

/-- A pointer to a part, one or two levels down. -/
def accessChain (scope : ScopeId) : Gen ρ Production := do
  let (base, storage, pointee) ← pointerOperand scope Predicate.composite
  let (path, target) ← constantPath (← range 1 2) pointee
  emit .accessChain (← internType (.pointer storage target))
    (.value base :: path.map Operand.entry)

end Gen

end ShaderGen
