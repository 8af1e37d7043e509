import ShaderGen.Config.Basic
import ShaderGen.Json.Number

/-!
Configurations in JSON. A structure is an object of its fields or an array of
them in order; a field that is left out has its default, except that an interval
needs both ends. A field that occurs twice is refused, and so is an unknown
field of the configuration itself; unknown fields further down are ignored.
-/

namespace ShaderGen

namespace Json

/-- The values of known fields, `none` for those left out. An object may hold
other fields only where `lenient` says so, and a known one only once; an array
holds a prefix of the fields in order. -/
def fields? (known : List String) (lenient : Bool) : Json → Option (List (Option Json))
  | object fields =>
    if fields.any (fun (key, _) => key.isNone) then none
    else
      let keys := fields.filterMap Prod.fst
      if !lenient && keys.any (fun key => !known.contains key) then none
      else if known.any (fun name => 1 < keys.count name) then none
      else some (known.map fun name => (object fields).field? name)
  | array items =>
    if items.length ≤ known.length then
      some (items.map some ++ List.replicate (known.length - items.length) none)
    else none
  | _ => none

/-- A float, written as any number. -/
def float? : Json → Option Float
  | number n => n.float?
  | _ => none

/-- An unsigned 64-bit word. -/
def word? : Json → Option Nat
  | number n => n.word?
  | _ => none

/-- A name from a closed list: a string, or an object with that field alone and
nothing in it. -/
def choice? {α : Type} (ofName? : String → Option α) : Json → Option α
  | string (some name) => ofName? name
  | object [(some name, null)] => ofName? name
  | _ => none

/-- An array whose items all decode. -/
def list? {α : Type} (decode : Json → Option α) : Json → Option (List α)
  | array items => items.mapM decode
  | _ => none

end Json

/-- A field that may be left out. -/
def orDefault {α : Type} (decode : Json → Option α) (default : α) : Option Json → Option α
  | none => some default
  | some value => decode value

/-- An interval with both ends. -/
def Interval.ofJson? (j : Json) : Option Interval := do
  match ← j.fields? ["min", "max"] true with
  | [some min, some max] => some ⟨← min.float?, ← max.float?⟩
  | _ => none

/-- The parameters of a bell curve. -/
def GaussianParams.ofJson? (j : Json) : Option GaussianParams := do
  match ← j.fields? ["mean", "std_dev"] true with
  | [mean, stdDev] =>
    let base : GaussianParams := {}
    some ⟨← orDefault Interval.ofJson? base.mean mean,
      ← orDefault Interval.ofJson? base.stdDev stdDev⟩
  | _ => none

/-- The parameters of a beta-binomial distribution. -/
def BetaBinomialParams.ofJson? (j : Json) : Option BetaBinomialParams := do
  match ← j.fields? ["alpha", "beta"] true with
  | [alpha, beta] =>
    let base : BetaBinomialParams := {}
    some ⟨← orDefault Interval.ofJson? base.alpha alpha,
      ← orDefault Interval.ofJson? base.beta beta⟩
  | _ => none

namespace Config

/-- The names of the fields, in order. -/
def fieldNames : List String :=
  ["seed", "max_types", "max_constants", "max_functions", "max_depth", "statement_probability",
    "mutation_probability", "instruction_budget", "weighting", "gaussian", "beta_binomial",
    "excluded_types", "extended_instructions", "capabilities", "storage_buffers",
    "private_variables"]

/-- The configuration a JSON value denotes. -/
def ofJson? (j : Json) : Option Config := do
  match ← j.fields? fieldNames false with
  | [seed, maxTypes, maxConstants, maxFunctions, maxDepth, statementProbability,
      mutationProbability, instructionBudget, weighting, gaussian, betaBinomial, excludedTypes,
      extendedInstructions, capabilities, storageBuffers, privateVariables] =>
    let base : Config := {}
    some {
      seed := (← orDefault Json.word? base.seed.toNat seed).toUInt64
      maxTypes := ← orDefault Json.word? base.maxTypes maxTypes
      maxConstants := ← orDefault Json.word? base.maxConstants maxConstants
      maxFunctions := ← orDefault Json.word? base.maxFunctions maxFunctions
      maxDepth := ← orDefault Json.word? base.maxDepth maxDepth
      statementProbability :=
        ← orDefault Json.float? base.statementProbability statementProbability
      mutationProbability := ← orDefault Json.float? base.mutationProbability mutationProbability
      instructionBudget := ← orDefault Json.word? base.instructionBudget instructionBudget
      weighting := ← orDefault (Json.choice? Weighting.ofName?) base.weighting weighting
      gaussian := ← orDefault GaussianParams.ofJson? base.gaussian gaussian
      betaBinomial := ← orDefault BetaBinomialParams.ofJson? base.betaBinomial betaBinomial
      excludedTypes := ← orDefault (Json.list? Json.text?) base.excludedTypes excludedTypes
      extendedInstructions := ← orDefault Json.bool? base.extendedInstructions extendedInstructions
      capabilities :=
        ← orDefault (Json.list? (Json.choice? Capability.ofName?)) base.capabilities capabilities
      storageBuffers := ← orDefault Json.word? base.storageBuffers storageBuffers
      privateVariables := ← orDefault Json.word? base.privateVariables privateVariables }
  | _ => none

end Config

end ShaderGen
