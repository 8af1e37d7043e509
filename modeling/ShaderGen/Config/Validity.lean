import ShaderGen.Config.Basic
import ShaderGen.Decimal.Format

/-!
Which configurations a session may start with: probabilities between zero and
one, parameter ranges that are finite and not empty, spreads and shapes above
zero, no maximum of zero, and a numeric scalar type left to draw. The first
rule that fails is reported.
-/

namespace ShaderGen.Config

/-- The reason a configuration is refused. -/
inductive Error where
  | probabilityOutOfRange (field : String) (value : Float)
  | emptyRange (field : String) (range : Interval)
  | zeroMaximum (field : String)
  | unknownExcludedType (name : String)
  | noNumericType
deriving Repr

/-- The wording of an error. -/
def Error.message : Error → String
  | probabilityOutOfRange field value =>
    "`" ++ field ++ "` must be within [0, 1], got " ++ Decimal.displayFloat value
  | emptyRange field range =>
    "`" ++ field ++ "` range is empty or not finite (" ++ Decimal.displayFloat range.min ++ "..=" ++
      Decimal.displayFloat range.max ++ ")"
  | zeroMaximum field => "`" ++ field ++ "` must be at least 1"
  | unknownExcludedType name => "unknown excluded type `" ++ name ++ "`"
  | noNumericType => "excluded types leave no numeric scalar type"

/-- Whether a number is a probability. -/
def isProbability (p : Float) : Bool := 0.0 ≤ p && p ≤ 1.0

/-- Whether an interval is finite and not empty. -/
def intervalIsValid (r : Interval) : Bool :=
  r.min.isFinite && r.max.isFinite && r.min ≤ r.max

/-- Nothing, if a condition holds, and an error otherwise. -/
def require (holds : Bool) (error : Error) : Except Error Unit :=
  if holds then .ok () else .error error

/-- The opcode of a type that can be drawn, by its mnemonic. -/
def excludedOpcode? (name : String) : Option Opcode :=
  Category.type.members.find? fun op => op.mnemonic == name

/-- The opcodes of the excluded types, or the first name that is none. -/
def excludedOpcodes (c : Config) : Except Error (List Opcode) :=
  c.excludedTypes.mapM fun name =>
    match excludedOpcode? name with
    | some op => .ok op
    | none => .error (.unknownExcludedType name)

/-- The rules, in the order in which they are checked. -/
def validate (c : Config) : Except Error Unit := do
  require (isProbability c.statementProbability)
    (.probabilityOutOfRange "statement_probability" c.statementProbability)
  require (isProbability c.mutationProbability)
    (.probabilityOutOfRange "mutation_probability" c.mutationProbability)
  require (intervalIsValid c.gaussian.mean) (.emptyRange "gaussian.mean" c.gaussian.mean)
  require (intervalIsValid c.gaussian.stdDev) (.emptyRange "gaussian.std_dev" c.gaussian.stdDev)
  require (intervalIsValid c.betaBinomial.alpha)
    (.emptyRange "beta_binomial.alpha" c.betaBinomial.alpha)
  require (intervalIsValid c.betaBinomial.beta)
    (.emptyRange "beta_binomial.beta" c.betaBinomial.beta)
  require (!(c.gaussian.stdDev.min ≤ 0.0)) (.emptyRange "gaussian.std_dev" c.gaussian.stdDev)
  require (!(c.betaBinomial.alpha.min ≤ 0.0))
    (.emptyRange "beta_binomial.alpha" c.betaBinomial.alpha)
  require (!(c.betaBinomial.beta.min ≤ 0.0)) (.emptyRange "beta_binomial.beta" c.betaBinomial.beta)
  require (c.maxTypes != 0) (.zeroMaximum "max_types")
  require (c.maxConstants != 0) (.zeroMaximum "max_constants")
  require (c.maxFunctions != 0) (.zeroMaximum "max_functions")
  require (c.maxDepth != 0) (.zeroMaximum "max_depth")
  require (c.instructionBudget != 0) (.zeroMaximum "instruction_budget")
  let excluded ← c.excludedOpcodes
  require (!(excluded.contains .typeInt && excluded.contains .typeFloat)) .noNumericType

end ShaderGen.Config
