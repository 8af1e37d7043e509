import ShaderGen.Category
import ShaderGen.Entity

/-!
The configuration of a generation session. Every field has a default, so the
empty configuration is a good one.
-/

namespace ShaderGen

/-- How statements are weighted at the start of a session. -/
inductive Weighting where
  /-- All statements alike. -/
  | uniform
  /-- A bell curve over the list of statements. -/
  | gaussian
  /-- A beta-binomial distribution over the list of statements. -/
  | betaBinomial
deriving DecidableEq, Repr

namespace Weighting

/-- Every weighting. -/
def all : List Weighting := [uniform, gaussian, betaBinomial]

/-- The weighting's name in a configuration. -/
def name : Weighting → String
  | uniform => "uniform"
  | gaussian => "gaussian"
  | betaBinomial => "beta_binomial"

/-- The weighting of a name. -/
def ofName? (name : String) : Option Weighting := all.find? fun w => w.name == name

end Weighting

/-- A closed interval from which a session draws a parameter. -/
structure Interval where
  min : Float
  max : Float
deriving Repr

/-- The parameters of a bell curve, as fractions of the number of statements. -/
structure GaussianParams where
  mean : Interval := ⟨0.0, 1.0⟩
  stdDev : Interval := ⟨0.1, 0.5⟩
deriving Repr

/-- The parameters of a beta-binomial distribution. -/
structure BetaBinomialParams where
  alpha : Interval := ⟨0.5, 5.0⟩
  beta : Interval := ⟨0.5, 5.0⟩
deriving Repr

/-- What a session is to generate. -/
structure Config where
  /-- The same seed and configuration give the same shader. -/
  seed : UInt64 := 0
  maxTypes : Nat := 20
  maxConstants : Nat := 30
  /-- The number of functions, the entry point included. -/
  maxFunctions : Nat := 3
  /-- The scope depth at which selections stop nesting. Bodies of functions are at
  depth one. -/
  maxDepth : Nat := 3
  /-- The probability of one more statement in a block. -/
  statementProbability : Float := 0.95
  /-- The probability, for each statement, of weighting the statements anew. -/
  mutationProbability : Float := 0.02
  /-- The number of statements after which a session is given up. -/
  instructionBudget : Nat := 3000
  weighting : Weighting := .betaBinomial
  gaussian : GaussianParams := {}
  betaBinomial : BetaBinomialParams := {}
  /-- Mnemonics of types that are never drawn. -/
  excludedTypes : List String := []
  /-- Whether instructions of the extended set may be drawn. -/
  extendedInstructions : Bool := true
  /-- The capabilities types may need. The basic one is always there. -/
  capabilities : List Capability := [.int64, .float64]
  storageBuffers : Nat := 2
  privateVariables : Nat := 2
deriving Repr

namespace Config

/-- Whether a capability may be used. -/
def enables (c : Config) (capability : Capability) : Bool :=
  capability == .shader || c.capabilities.contains capability

/-- Whether a width may be used, given the capability it needs. -/
def allows (c : Config) (needed : Option Capability) : Bool :=
  match needed with
  | none => true
  | some capability => c.enables capability

/-- The widths integers may have; 32 bits are always there. -/
def intWidths (c : Config) : List Nat :=
  [8, 16, 32, 64].filter fun w => c.allows (Capability.ofIntWidth? w)

/-- The widths floats may have; 32 bits are always there. -/
def floatWidths (c : Config) : List Nat :=
  [16, 32, 64].filter fun w => c.allows (Capability.ofFloatWidth? w)

theorem mem_intWidths_32 (c : Config) : 32 ∈ c.intWidths := by
  simp [intWidths, allows, Capability.ofIntWidth?]

theorem mem_floatWidths_32 (c : Config) : 32 ∈ c.floatWidths := by
  simp [floatWidths, allows, Capability.ofFloatWidth?]

end Config

end ShaderGen
