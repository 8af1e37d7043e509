import ShaderGen.CommandLine.Files
import ShaderGen.CommandLine.Options
import ShaderGen.Config.Decode
import ShaderGen.Generator.Program
import ShaderGen.Json.Printer
import ShaderGen.Json.Reader
import ShaderGen.Shader.Buffers
import ShaderGen.Shader.Emission

/-!
The `generate` command: one shader per seed, each written with the layout of its
buffers next to it. What is wrong with the configuration or the directory stops
the run before the first shader; what goes wrong with one shader is counted and
leaves the others alone.
-/

namespace ShaderGen.CommandLine

/-- Why a run or one of its shaders fails. -/
inductive Failure where
  | file (path : String) (error : FileError)
  /-- A configuration file without a configuration in it. -/
  | malformed (path : String)
  | config (error : Config.Error)
  | generation (seed : UInt64) (cause : Stop)
  | emission (seed : UInt64) (error : EmissionError)
  /-- An operation was called outside its domain. -/
  | broken (fault : Fault)

/-- The wording of a failure. -/
def Failure.message : Failure → String
  | file path error => path ++ ": " ++ error.message
  | malformed path => path ++ ": not a configuration"
  | config error => "invalid configuration: " ++ error.message
  | generation seed cause => "seed " ++ toString seed ++ ": " ++ cause.message
  | emission seed error => "seed " ++ toString seed ++ ": " ++ error.message
  | broken _ => "precondition violated"

/-- What became of one seed. -/
inductive Outcome where
  /-- The shader and its layout are written; the path is the shader's. -/
  | written (path : String)
  /-- The session ran over its budget. -/
  | overBudget
  | failed (failure : Failure)
  /-- An operation was called outside its domain. -/
  | broken (fault : Fault)

/-- The texts that belong to one seed. -/
structure Artifacts where
  shader : String
  /-- The storage buffers in JSON. -/
  buffers : String
deriving DecidableEq, Repr

/-- The texts of a shader. -/
def Artifacts.ofShader (s : Shader) : Except EmissionError Artifacts := do
  let shader ← s.text
  match s.buffers with
  | .ok buffers => return { shader, buffers := (Json.array (buffers.map Buffer.toJson)).pretty }
  | .error f => throw (.fault f)

/-- The texts of a seed, or what became of it instead. -/
def artifactsOf (c : Config) (seed : UInt64) : Except Outcome Artifacts :=
  match Config.shader { c with seed } with
  | .error (.overBudget _) => .error .overBudget
  | .error (.fault f) => .error (.broken f)
  | .error cause => .error (.failed (.generation seed cause))
  | .ok shader =>
    match Artifacts.ofShader shader with
    | .ok artifacts => .ok artifacts
    | .error (.fault f) => .error (.broken f)
    | .error e => .error (.failed (.emission seed e))

/-- The path of a seed's shader. -/
def shaderPath (out : String) (seed : UInt64) : String :=
  Path.entry out (toString seed ++ ".spvasm")

/-- The path of a seed's buffers. -/
def buffersPath (out : String) (seed : UInt64) : String :=
  Path.entry out (toString seed ++ ".buffers.json")

section

variable {m : Type → Type} [Monad m] [Files m]

/-- Reads the configuration; without a file it is the default one. -/
def loadConfig (path : Option String) : m (Except Failure Config) := do
  let config ← match path with
    | none => pure (.ok {})
    | some path =>
      match ← Files.readText path with
      | .error e => pure (.error (.file path e))
      | .ok text =>
        match (Json.read? text).bind Config.ofJson? with
        | some config => pure (.ok config)
        | none => pure (.error (.malformed path))
  return do
    let config ← config
    match config.validate with
    | .ok () => pure config
    | .error e => throw (.config e)

/-- Writes the texts of a seed, the shader first. -/
def writeArtifacts (out : String) (seed : UInt64) (a : Artifacts) : m Outcome := do
  match ← Files.writeText (shaderPath out seed) a.shader with
  | .error e => return .failed (.file (shaderPath out seed) e)
  | .ok () =>
    match ← Files.writeText (buffersPath out seed) a.buffers with
    | .error e => return .failed (.file (buffersPath out seed) e)
    | .ok () => return .written (shaderPath out seed)

/-- Makes the shader of one seed. -/
def generateOne (c : Config) (out : String) (seed : UInt64) : m Outcome :=
  match artifactsOf c seed with
  | .error outcome => pure outcome
  | .ok artifacts => writeArtifacts out seed artifacts

/-- The seeds of a run. Behind the last one comes zero. -/
def Options.seeds (o : Options) : List UInt64 :=
  (List.range o.count.toNat).map fun k => o.seed + k.toUInt64

/-- Makes a shader for every seed and says what became of each. Half of the address space is
the most that can be reserved for the list of the seeds, of eight bytes each. -/
def generate (o : Options) : m (Except Failure (List Outcome)) := do
  match ← loadConfig o.config with
  | .error failure => return .error failure
  | .ok config =>
    match ← makeDirectories o.out with
    | .error e => return .error (.file o.out e)
    | .ok () =>
      if UInt64.size / 2 ≤ 8 * o.count.toNat then return .error (.broken .tooLarge)
      return .ok (← o.seeds.mapM (generateOne config o.out))

end

/-- How often each outcome occurred. -/
structure Summary where
  written : Nat
  overBudget : Nat
  failed : Nat
deriving DecidableEq, Repr

/-- The counts of a run. -/
def Summary.ofOutcomes (outcomes : List Outcome) : Summary where
  written := outcomes.countP fun | .written _ => true | _ => false
  overBudget := outcomes.countP fun | .overBudget => true | _ => false
  failed := outcomes.countP fun | .failed _ => true | _ => false

/-- The counts in one line. -/
def Summary.text (s : Summary) : String :=
  toString s.written ++ " written, " ++ toString s.overBudget ++ " over budget, " ++
    toString s.failed ++ " failed"

end ShaderGen.CommandLine
