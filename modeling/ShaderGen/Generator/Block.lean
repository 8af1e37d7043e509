import ShaderGen.Statement.Composite
import ShaderGen.Statement.Conversion
import ShaderGen.Statement.Extended
import ShaderGen.Statement.Linear
import ShaderGen.Statement.Recipe

/-!
Statements of blocks, with the selections among them. What fills the arms of a
selection is given from outside; each arm has a scope of its own, one deeper than
the selection's, and scopes at the configured depth hold no selection.
-/

namespace ShaderGen

/-- The statements of a block, without the label in front of it. -/
structure Block where
  stream : Array InstrId := #[]
  /-- Variables for the entry block of the function, those of nested blocks
  included. -/
  hoisted : Array InstrId := #[]
deriving Repr

namespace Gen

variable {ρ : Type} [RandomSource ρ]

/-- A scope by its id. -/
def scopeAt (scope : ScopeId) : Gen ρ Scope :=
  ask fun s => match s.scopes.get? scope with
    | some found => .ok found
    | none => .error .unknownId

/-- A new scope below another one. -/
def childScope (parent : ScopeId) (function : Option InstrId) : Gen ρ ScopeId := do
  match (← get).scopes.child? parent function with
  | none => fault .unknownId
  | some (child, scopes) =>
    modify fun s => { s with scopes }
    return child

/-- Declares a statement in a scope. -/
def declare (scope : ScopeId) (id : InstrId) : Gen ρ Unit := do
  let _ ← scopeAt scope
  modify fun s => { s with scopes := s.scopes.declare scope id }

/-- A new label. -/
def label : Gen ρ InstrId := alloc { opcode := .label }

/-- A branch to a label. -/
def branchTo (target : InstrId) : Gen ρ InstrId :=
  alloc { opcode := .branch, operands := [.instr target] }

/-- A selection whose arms are blocks; infeasible where no level is left for
them. -/
def selection (arm : Option (ScopeId → Gen ρ Block)) (scope : ScopeId) : Gen ρ Production := do
  let _ ← scopeAt scope
  let arm ← require arm
  let condition ← operand scope Predicate.bool
  let thenBlock ← arm (← childScope scope none)
  let elseBlock ← arm (← childScope scope none)
  let merge ← label
  let thenLabel ← label
  let elseLabel ← label
  let header ← alloc
    { opcode := .selectionMerge, operands := [.instr merge, .keyword "None"] }
  let branch ← alloc
    { opcode := .branchConditional,
      operands := [.value condition, .instr thenLabel, .instr elseLabel] }
  let thenExit ← branchTo merge
  let elseExit ← branchTo merge
  return {
    stream := [header, branch, thenLabel] ++ thenBlock.stream.toList ++ [thenExit, elseLabel] ++
      elseBlock.stream.toList ++ [elseExit, merge]
    hoisted := thenBlock.hoisted.toList ++ elseBlock.hoisted.toList }

/-- Produces a statement of one kind. -/
def variantWith (arm : Option (ScopeId → Gen ρ Block)) (scope : ScopeId) (op : Opcode) :
    Gen ρ Production :=
  match op.recipe? with
  | none => stop (.notAStatement op)
  | some recipe =>
    match recipe with
    | .localVariable => localVariable
    | .load => load scope
    | .store => store scope
    | .accessChain => accessChain scope
    | .unary test => unary scope op test
    | .binary test => binary scope op test
    | .shift => shift scope op
    | .reduceBool => reduceBool scope op
    | .floatTest => floatTest scope op
    | .compare test => compare scope op test
    | .select => select scope
    | .timesScalar test => timesScalar scope op test
    | .vectorTimesMatrix => vectorTimesMatrix scope
    | .matrixTimesVector => matrixTimesVector scope
    | .matrixTimesMatrix => matrixTimesMatrix scope
    | .outerProduct => outerProduct scope
    | .dot => dot scope
    | .conversion => conversion scope op
    | .extractDynamic => extractDynamic scope
    | .insertDynamic => insertDynamic scope
    | .shuffle => shuffle scope
    | .construct => construct scope
    | .extract => extract scope
    | .insert => insert scope
    | .transpose => transpose scope
    | .extended => extended scope
    | .selection => selection arm scope

/-- Produces a statement of any kind. -/
def statementWith (arm : Option (ScopeId → Gen ρ Block)) (scope : ScopeId) : Gen ρ Production :=
  dispatch .statement (variantWith arm scope)

/-- Declares what a production makes visible and appends it to a block. -/
def append (scope : ScopeId) (block : Block) (production : Production) : Gen ρ Block := do
  production.visible.forM (declare scope)
  return {
    stream := block.stream ++ production.stream
    hoisted := block.hoisted ++ production.hoisted }

end Gen

end ShaderGen
