import ShaderGen.Generator.Block

/-!
Blocks and how they nest. A block goes on with the configured probability and ends
at the first infeasible statement. The arms of its selections are blocks again;
production recurs on the number of levels left.
-/

namespace ShaderGen

namespace Gen

variable {ρ : Type} [RandomSource ρ]

/-- Appends statements to a block, in at most so many rounds. -/
def fillBlock (statement : Gen ρ Production) (scope : ScopeId) : Nat → Block → Gen ρ Block
  | 0, _ => fault .outOfSteps
  | rounds + 1, block => do
    if ← chance (← read).statementProbability then
      match ← attempt statement with
      | some production => fillBlock statement scope rounds (← append scope block production)
      | none => pure block
    else pure block

/-- A block whose selections have the given arms. Each round but the last counts a
statement, and no statement starts once the budget is exceeded. -/
def blockWith (arm : Option (ScopeId → Gen ρ Block)) (scope : ScopeId) : Gen ρ Block := do
  let rounds := (← read).instructionBudget + 1 - (← get).statements + 1
  fillBlock (statementWith arm scope) scope rounds {}

/-- The arms of selections with so many levels below them. Those further down are
only made when a block gets there. -/
def arms : Nat → Option (ScopeId → Gen ρ Block)
  | 0 => none
  | levels + 1 => some fun scope => blockWith (arms levels) scope

/-- The levels of selections left in a scope. -/
def levelsLeft (scope : ScopeId) : Gen ρ Nat := do
  match (← get).scopes.get? scope with
  | some found => return (← read).maxDepth - found.depth
  | none => return 0

/-- Fills a scope with statements. -/
def block (scope : ScopeId) : Gen ρ Block := do blockWith (arms (← levelsLeft scope)) scope

/-- Produces a statement of one kind in a scope. -/
def variant (scope : ScopeId) (op : Opcode) : Gen ρ Production := do
  variantWith (arms (← levelsLeft scope)) scope op

/-- Produces a statement of any kind in a scope. -/
def statement (scope : ScopeId) : Gen ρ Production := do
  statementWith (arms (← levelsLeft scope)) scope

end Gen

/-- What the levels add up to that lie above one another where blocks nest `depth` deep. The
sum is made level by level and needs no more room for many levels than for one. -/
def Nesting.levelSum (depth : Nat) : Nat := depth.fold (fun level _ sum => sum + (level + 1)) 0

end ShaderGen
