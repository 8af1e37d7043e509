import ShaderGen.CommandLine.Generate

/-!
The commands of the program. What a command prints and the code it ends with are
a `Report`; only the files are touched on the way.
-/

namespace ShaderGen.CommandLine

/-- What a command leaves behind besides files. -/
structure Report where
  /-- Zero, if all went well. -/
  code : UInt32 := 0
  /-- The lines of the output. -/
  out : List String := []
  /-- The lines of the messages. -/
  err : List String := []
deriving DecidableEq, Repr

/-- Lines as a text. -/
def unlines (lines : List String) : String := lines.foldl (fun text line => text ++ line ++ "\n") ""

/-- How to call `generate`. -/
def generateUsage : List String :=
  ["Usage: spvsc generate [options]",
    "",
    "Options:",
    "  --seed <n>        First seed (default: 0)",
    "  --count <n>       Number of shaders (default: 1)",
    "  --config <file>   JSON generator configuration",
    "  -o, --out <dir>   Output directory (default: .)",
    "  -v, --verbose     Tree-formatted debug logging"]

/-- How to call the program. -/
def usage : List String :=
  ["spvsc - random SPIR-V compute shader generator",
    "",
    "Usage: spvsc <command> [options]",
    "",
    "Commands:",
    "  generate    Generate shaders, one per seed",
    "  help        Show this message",
    ""] ++ generateUsage

/-- The name and the version of the program. -/
def version : String := "spvsc 0.1.0-alpha.1"

/-- The line that reports an error. -/
def errorLine (message : String) : String := "error: " ++ message

/-- The code with which a run ends that has left the domain of an operation. -/
def brokenCode : UInt32 := 101

/-- The report of a run: the files if they are announced, the failures, and the
counts. A run that has left the domain of an operation has no counts. -/
def Report.ofOutcomes (verbose : Bool) (outcomes : List Outcome) : Report :=
  let announced := outcomes.filterMap fun
    | .written path => if verbose then some ("Wrote: " ++ path) else none
    | _ => none
  let err := outcomes.filterMap fun
    | .failed failure => some (errorLine failure.message)
    | .broken _ => some (errorLine "precondition violated")
    | _ => none
  let summary := Summary.ofOutcomes outcomes
  if outcomes.any fun | .broken _ => true | _ => false then
    { code := brokenCode, out := announced, err }
  else
    { code := if 0 < summary.failed then 1 else 0, out := announced ++ [summary.text], err }

/-- The report of a run that ends before its first shader. -/
def Report.ofFailure (failure : Failure) : Report where
  code := match failure with
    | .broken _ => brokenCode
    | _ => 1
  err := [errorLine failure.message]

/-- Runs `generate` with the given options. -/
def runGenerate {m : Type → Type} [Monad m] [Files m] (args : List String) : m Report :=
  match Options.read args with
  | .error e => pure { code := 1, out := generateUsage, err := [errorLine e.message, ""] }
  | .ok options => do
    match ← generate options with
    | .error failure => return .ofFailure failure
    | .ok outcomes => return .ofOutcomes options.verbose outcomes

/-- Runs the program with the given arguments. -/
def run {m : Type → Type} [Monad m] [Files m] : List String → m Report
  | [] => pure { out := usage }
  | command :: args =>
    if command == "generate" then runGenerate args
    else if ["help", "--help", "-h"].contains command then pure { out := usage }
    else if ["--version", "-V"].contains command then pure { out := [version] }
    else pure { code := 1, out := usage, err := ["Unknown command: " ++ command, ""] }

end ShaderGen.CommandLine
