import ShaderGen.Generator.Basic
import ShaderGen.Predicate

/-!
The search for operands. What a statement may read are the typed statements
visible from its scope, those of the innermost scope first, and then the
constants of the table; of those that fit, one is drawn.
-/

namespace ShaderGen

namespace State

variable {ρ : Type}

/-- The statements visible from a scope. -/
def visible (s : State ρ) (scope : ScopeId) : Except Fault (List InstrId) :=
  if (s.scopes.get? scope).isSome then .ok (s.scopes.visible scope) else .error .unknownId

/-- Whether a statement has a typed result whose type passes a test. -/
def yields (s : State ρ) (test : Predicate) (id : InstrId) : Except Fault Bool := do
  let i ← s.code.instr id
  match i.resultType with
  | some ty => if i.opcode.isTyped && i.opcode.hasResult then test s.code ty else pure false
  | none => pure false

/-- The visible statements whose type passes a test. -/
def statementsWhere (s : State ρ) (scope : ScopeId) (test : Predicate) :
    Except Fault (List Value) := do
  return (← (← s.visible scope).filterM (s.yields test)).map Value.instr

/-- The function variables visible from a scope. -/
def localVariables (s : State ρ) (scope : ScopeId) : Except Fault (List InstrId) := do
  (← s.visible scope).filterM fun id => return (← s.code.instr id).opcode == .var

/-- The constants whose type passes a test. -/
def constantsWhere (s : State ρ) (test : Predicate) : Except Fault (List Value) := do
  let fitting ← s.code.table.constants.filterM fun (_, c) => test s.code c.ty
  return fitting.map fun (id, _) => .entry id

/-- Everything a statement may read whose type passes a test. -/
def operandsWhere (s : State ρ) (scope : ScopeId) (test : Predicate) :
    Except Fault (List Value) := do
  return (← s.statementsWhere scope test) ++ (← s.constantsWhere test)

end State

namespace Gen

variable {ρ : Type} [RandomSource ρ]

/-- A question about the whole state. -/
def ask {α : Type} (f : State ρ → Except Fault α) : Gen ρ α := do checked (f (← get))

/-- An operand whose type passes a test. -/
def operand (scope : ScopeId) (test : Predicate) : Gen ρ Value := do
  pick (← ask (·.operandsWhere scope test))

/-- An operand whose type passes a test and has the shape of another type. -/
def operandLike (scope : ScopeId) (test : Predicate) (like : EntryId) : Gen ρ Value :=
  operand scope (test.and fun m ty => m.sameShape ty like)

/-- An operand of exactly the given type. -/
def operandOf (scope : ScopeId) (ty : EntryId) : Gen ρ Value := operand scope (.exactly ty)

/-- The type of a value; infeasible if it has none. -/
def typeOf (v : Value) : Gen ρ EntryId := do require (← query (·.typeOf? v))

/-- An operand with its type. -/
def typedOperand (scope : ScopeId) (test : Predicate) : Gen ρ (Value × EntryId) := do
  let v ← operand scope test
  return (v, ← typeOf v)

end Gen

end ShaderGen
