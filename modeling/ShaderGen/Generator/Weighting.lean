import ShaderGen.Generator.Basic
import ShaderGen.Weights.Shape

/-!
The weights of a session and the draws they steer. Statements are weighted by
the configured distribution, everything else uniformly; a variant found
infeasible is pinned to zero for the rest of the session.
-/

namespace ShaderGen

/-- The excluded type opcodes of a session. A configuration with an unknown name
excludes nothing. -/
def Config.excluded (c : Config) : List Opcode :=
  match c.excludedOpcodes with
  | .ok ops => ops
  | .error _ => []

namespace Gen

variable {ρ : Type} [RandomSource ρ]

/-- A parameter from its interval. An interval of one number draws nothing. -/
def parameter (r : Interval) : Gen ρ Float :=
  if r.max ≤ r.min then pure r.min
  else if RandomSource.isDrawable r.min r.max then draw (RandomSource.closed r.min r.max)
  else fault .badRange

/-- Fresh weights for `n` statements. -/
def statementWeights (n : Nat) : Gen ρ (List Float) := do
  let c ← read
  match c.weighting with
  | .uniform => pure (Weights.uniform n)
  | .gaussian =>
    let mean ← parameter c.gaussian.mean
    let stdDev ← parameter c.gaussian.stdDev
    pure (Weights.gaussian n (mean * Weights.larger (n.toFloat - 1.0) 0.0)
      (Weights.larger (stdDev * n.toFloat) (Float.ofBits 0x0010000000000000)))
  | .betaBinomial =>
    let alpha ← parameter c.betaBinomial.alpha
    let beta ← parameter c.betaBinomial.beta
    pure (Weights.betaBinomial n alpha beta)

/-- Draws fresh weights for a category. Extended instructions weigh nothing
unless the configuration has them. -/
def parametrize (c : Category) : Gen ρ Unit := do
  let n := c.members.length
  let weights ← if c = .statement then statementWeights n else pure (Weights.uniform n)
  let weights :=
    if (← read).extendedInstructions then weights
    else WeightTable.applyPins [.extInst] weights c.members
  let table ← checked ((← get).weights.install c weights)
  modify fun s => { s with weights := table }

/-- Gives a category weights if it has none. -/
def ensureParametrized (c : Category) : Gen ρ Unit := do
  unless (← get).weights.isParametrized c do parametrize c

/-- Pins a variant to weight zero. -/
def pinZero (c : Category) (op : Opcode) : Gen ρ Unit := do
  ensureParametrized c
  modify fun s => { s with weights := s.weights.pinZero c op }

/-- Pins a variant that was found infeasible. -/
def prune (c : Category) (op : Opcode) : Gen ρ Unit := do
  modify fun s => { s with pruned := if s.pruned.contains c then s.pruned else c :: s.pruned }
  pinZero c op

/-- Draws the statement weights anew, with the configured probability. -/
def maybeMutate : Gen ρ Unit := do
  if ← chance (← read).mutationProbability then parametrize .statement

/-- A variant of a category, or nothing if the category has no weights or no
positive one. -/
def sample? (c : Category) : Gen ρ (Option Opcode) := do
  match (← get).weights.weights? c with
  | none => pure none
  | some weights =>
    if RandomSource.choosable weights then
      if (RandomSource.total weights).isFinite then
        return c.members[← draw (RandomSource.weighted weights)]?
      else fault .badRange
    else pure none

/-- Stops the session if it has produced more statements than allowed. -/
def checkBudget : Gen ρ Unit := do
  let limit := (← read).instructionBudget
  if limit < (← get).statements then stop (.overBudget limit)

/-- Counts a statement. -/
def countStatement : Gen ρ Unit := do
  let statements ← checked (Fault.checkWord 64 ((← get).statements + 1))
  modify fun s => { s with statements }

end Gen

end ShaderGen
