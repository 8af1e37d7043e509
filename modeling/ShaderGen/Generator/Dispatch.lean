import ShaderGen.Generator.Weighting

/-!
Turning a category into one of its variants: draw a variant by weight, run its
routine, and if that is infeasible pin the variant to zero and draw again. Each
round pins a variant that was not pinned before, so there is at most one round
more than the category has members.
-/

namespace ShaderGen.Gen

variable {ρ α : Type} [RandomSource ρ]

/-- Pins the excluded types of a type category. -/
def applyExclusions (c : Category) : Gen ρ Unit := do
  if c.isType then ((← read).excluded.filter c.members.contains).forM (pinZero c)

/-- Draws variants until one is produced, in at most `rounds` rounds. -/
def resample (c : Category) (produce : Opcode → Gen ρ α) : Nat → Gen ρ α
  | 0 => fault .outOfSteps
  | rounds + 1 => do
    match ← sample? c with
    | none => if (← get).pruned.contains c then infeasible else stop (.weightless c)
    | some op =>
      match ← attempt (produce op) with
      | some a =>
        if c = .statement then countStatement
        pure a
      | none =>
        prune c op
        resample c produce rounds

/-- Produces some variant of a category. The budget is checked first, and each
dispatch of a statement may draw the statement weights anew. -/
def dispatch (c : Category) (produce : Opcode → Gen ρ α) : Gen ρ α := do
  checkBudget
  ensureParametrized c
  if c = .statement then maybeMutate
  applyExclusions c
  resample c produce (c.members.length + 1)

end ShaderGen.Gen
