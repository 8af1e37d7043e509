import ShaderGen.Generator.Nesting
import ShaderGen.Random.Draw
import ShaderGen.Shader.DynamicIndex

/-!
Whole shaders. First the table is filled: the entry point's type, types and
constants up to their numbers, storage buffers, private variables. Then every
function type gets a function: its parameters, its variables and a block. Last
the dynamic accesses are bounded and ids are handed out.
-/

namespace ShaderGen

namespace Gen

variable {ρ : Type} [RandomSource ρ]

/-- Declares the type of the entry point, a function without parameters. -/
def entryPointType : Gen ρ Unit := do
  let result ← internType .void
  addFunctionType (← internType (.function result []))

/-- Draws until there is enough, in at most so many attempts. A draw may repeat
an entry that is there already, or be infeasible. -/
def fill (isEnough : State ρ → Bool) (produce : Gen ρ EntryId) : Nat → Gen ρ Unit
  | 0 => pure ()
  | attempts + 1 => do
    unless isEnough (← get) do
      let _ ← attempt produce
      fill isEnough produce attempts

/-- The attempts for so many entries. -/
def attemptsFor (entries : Nat) : Gen ρ Nat := checked (Fault.checkWord 64 (entries * 4))

/-- Fills the entity table. -/
def globalTable : Gen ρ Unit := do
  entryPointType
  let maxTypes := (← read).maxTypes
  fill (fun s => maxTypes ≤ s.code.table.typeCount) (type .type) (← attemptsFor maxTypes)
  let maxConstants := (← read).maxConstants
  fill (fun s => maxConstants ≤ s.code.table.constantCount) constant (← attemptsFor maxConstants)
  let _ ← storageBuffers
  let _ ← privateVariables

/-- A parameter of a function. -/
def parameterOf (scope : ScopeId) (ty : EntryId) : Gen ρ InstrId := do
  let id ← alloc { opcode := .functionParameter, resultType := some ty }
  declare scope id
  return id

/-- A function of the given type: the instruction that opens it and its stream. -/
def function (ty : EntryId) : Gen ρ (InstrId × Array InstrId) := do
  match ← query (·.typeAt ty) with
  | .function result params =>
    let opening ← alloc ⟨.function, some result, [.keyword "None", .entry ty]⟩
    let scope ← childScope ScopeTree.root (some opening)
    let params ← params.mapM (parameterOf scope)
    let entry ← label
    let body ← block scope
    let ret ← alloc { opcode := .ret }
    let closing ← alloc { opcode := .functionEnd }
    return (opening,
      (#[opening] ++ params).push entry ++ body.hoisted ++ body.stream ++ #[ret, closing])
  | _ => stop (.notAFunctionType ty)

/-- The functions of the given types, one after the other. -/
def functionsOf : List EntryId → Gen ρ (List (InstrId × Array InstrId))
  | [] => pure []
  | ty :: tys => do
    let f ← function ty
    return f :: (← functionsOf tys)

/-- A function for every function type. Answers their streams in one and the
instruction that opens the first. -/
def functions : Gen ρ (Array InstrId × InstrId) := do
  let made ← functionsOf (← get).functionTypes.toList
  match made with
  | [] => stop .noEntryPoint
  | (entry, _) :: _ => return (made.foldl (fun stream f => stream ++ f.2) #[], entry)

/-- A shader, before its accesses are bounded. -/
def program : Gen ρ Shader := do
  globalTable
  let (body, entryPoint) ← functions
  return { code := (← get).code, body, entryPoint }

end Gen

/-- The state in which a session starts. -/
def State.start {ρ : Type} (source : ρ) : State ρ := { source }

/-- Bounds the dynamic accesses of a shader and hands out ids. -/
def Shader.finish (s : Shader) : Except Fault Shader := do
  let (_, s) ← s.boundIndices
  s.assignIds

/-- The shader of a configuration, drawn from a source. -/
def Config.shaderFrom {ρ : Type} [RandomSource ρ] (c : Config) (source : ρ) :
    Except Stop Shader := do
  match c.validate with
  | .error e => throw (.badConfig e)
  | .ok () =>
    match (Gen.run Gen.program c (.start source)).1 with
    | .error (.stopped cause) => throw cause
    | .error .infeasible => throw .noEntryPoint
    | .ok shader =>
      match shader.finish with
      | .error f => throw (.fault f)
      | .ok shader => return shader

/-- The shader of a configuration, drawn from the stream of its seed. -/
def Config.shader (c : Config) : Except Stop Shader := c.shaderFrom (KeyStream.ofSeed c.seed)

end ShaderGen
