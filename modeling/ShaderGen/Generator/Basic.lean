import ShaderGen.Config.Validity
import ShaderGen.Module
import ShaderGen.Random.Source
import ShaderGen.Scope
import ShaderGen.Weights.Table

/-!
Generation as a computation. A session has a configuration, which never changes,
and a `State`, which every step may change and which survives steps that do not
succeed. A step ends in one of three ways: it produces a value; it is infeasible,
because nothing in the context fits; or it stops the session. Only `attempt`
looks at an infeasible step, and nothing undoes what the step did before.
-/

namespace ShaderGen

/-- The reason a session stops before its shader is finished. -/
inductive Stop where
  /-- More statements than the budget allows; the expected way to end. -/
  | overBudget (limit : Nat)
  /-- There is no function to enter. -/
  | noEntryPoint
  /-- A category has no weight left although nothing of it was found
  infeasible. -/
  | weightless (c : Category)
  /-- An opcode that is not drawn was asked for as a statement. -/
  | notAStatement (op : Opcode)
  /-- A function was asked of a type that is not a function type. -/
  | notAFunctionType (id : EntryId)
  | badConfig (error : Config.Error)
  | fault (fault : Fault)

/-- The wording of a stop. -/
def Stop.message : Stop → String
  | overBudget limit => "instruction budget of " ++ toString limit ++ " statements exceeded"
  | noEntryPoint => "could not produce " ++ Category.type.name ++ " for the entry point"
  | weightless c => "invariant violated: every variant of " ++ c.name ++ " has weight 0"
  | notAStatement op => "invariant violated: " ++ op.mnemonic ++ " is not a sampled statement"
  | notAFunctionType id =>
    "invariant violated: GlobalId(" ++ toString id.index ++ ") is not a function type"
  | badConfig error => error.message
  | fault _ => "precondition violated"

/-- How a step ends that produces nothing. -/
inductive Ending where
  /-- Nothing in the context fits. -/
  | infeasible
  | stopped (cause : Stop)

/-- Everything a session changes. -/
structure State (ρ : Type) where
  source : ρ
  weights : WeightTable := {}
  /-- The categories of which some variant was found infeasible. -/
  pruned : List Category := []
  /-- The number of statements produced. -/
  statements : Nat := 0
  code : Module := {}
  scopes : ScopeTree := {}
  /-- The number of the next variable declared at module scope. -/
  nextSerial : Nat := 0
  /-- The function types produced, the entry point's first. Each gets a function. -/
  functionTypes : Array EntryId := #[]

/-- A generation step. -/
abbrev Gen (ρ : Type) := ReaderT Config (ExceptT Ending (StateM (State ρ)))

namespace Gen

variable {ρ α : Type}

/-- Runs a step. -/
def run (x : Gen ρ α) (c : Config) (s : State ρ) : Except Ending α × State ρ :=
  (ReaderT.run x c).run s

/-- Gives up because nothing fits. -/
def infeasible : Gen ρ α := throw .infeasible

/-- Stops the session. -/
def stop (cause : Stop) : Gen ρ α := throw (.stopped cause)

/-- Stops the session because a precondition is broken. -/
def fault (f : Fault) : Gen ρ α := stop (.fault f)

/-- The value of an option, or infeasible. -/
def require : Option α → Gen ρ α
  | some a => pure a
  | none => infeasible

/-- The value of a step, or nothing where the step is infeasible. -/
def attempt (x : Gen ρ α) : Gen ρ (Option α) :=
  tryCatch (some <$> x) fun
    | .infeasible => pure none
    | .stopped cause => stop cause

/-- A value that broken preconditions may keep from being computed. -/
def checked : Except Fault α → Gen ρ α
  | .ok a => pure a
  | .error f => fault f

/-- A draw from the source. -/
def draw (f : ρ → α × ρ) : Gen ρ α :=
  modifyGet fun s => let (a, source) := f s.source; (a, { s with source })

/-- A question about the module. -/
def query (f : Module → Except Fault α) : Gen ρ α := do checked (f (← get).code)

/-- A change of the module. -/
def build (f : Module → α × Module) : Gen ρ α :=
  modifyGet fun s => let (a, code) := f s.code; (a, { s with code })

/-- Interns a type. -/
def internType (t : Ty) : Gen ρ EntryId := build (·.internType t)

/-- Interns a constant. -/
def internConst (c : Const) : Gen ρ EntryId := build (·.internConst c)

/-- Adds an instruction to the arena. -/
def alloc (i : Instr) : Gen ρ InstrId := build (·.alloc i)

/-- Adds an annotation. -/
def annotate (a : Annotation) : Gen ρ Unit := build fun m => ((), m.annotate a)

variable [RandomSource ρ]

/-- A yes or no. A probability outside its range counts as the nearer end. -/
def chance (p : Float) : Gen ρ Bool :=
  if 0.0 ≤ p && p ≤ 1.0 then draw (RandomSource.chance p)
  else if p < 0.0 then draw (RandomSource.chance 0.0)
  else if 1.0 < p then draw (RandomSource.chance 1.0)
  else fault .badProbability

/-- A number from `lo` to `hi`, both included. -/
def range (lo hi : Nat) : Gen ρ Nat := do
  return lo + (← draw (RandomSource.below 1 (hi - lo + 1)))

/-- A member of a list; infeasible if there is none. -/
def pick (items : List α) : Gen ρ α := do require (← draw (RandomSource.pick items))

end Gen

end ShaderGen
