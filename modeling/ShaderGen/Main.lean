import ShaderGen.CommandLine.Command

/-!
The program on the files of the machine.
-/

namespace ShaderGen.CommandLine

/-- The number and the wording of an error of the machine, if the system raised
it. -/
def systemError? : IO.Error → Option (UInt32 × String)
  | .alreadyExists _ number text | .interrupted _ number text
  | .noFileOrDirectory _ number text | .invalidArgument _ number text
  | .permissionDenied _ number text | .resourceExhausted _ number text
  | .inappropriateType _ number text | .noSuchThing _ number text
  | .otherError number text | .resourceBusy number text
  | .resourceVanished number text | .unsupportedOperation number text
  | .hardwareFault number text | .unsatisfiedConstraints number text
  | .illegalOperation number text | .protocolError number text
  | .timeExpired number text => some (number, text)
  | .unexpectedEof | .userError _ => none

/-- The error of a file operation of the machine. Apart from the system, only the
reading of a text complains. -/
def FileError.ofMachine (e : IO.Error) : FileError :=
  match systemError? e with
  | none => .notText
  | some (2, _) => .notFound
  | some (17, _) => .exists
  | some (20, _) => .notADirectory
  | some (21, _) => .isADirectory
  | some (36, _) => .nameTooLong
  | some (number, text) => .system number text

/-- A file operation of the machine with its error as a value. -/
def onMachine {α : Type} (operation : IO α) : IO (Except FileError α) := do
  try return .ok (← operation)
  catch e => return .error (FileError.ofMachine e)

/-- Whether a path names a directory: then nothing can be made in the place of its
entry for itself. -/
def isDirectoryOnMachine (path : String) : IO Bool := do
  match ← onMachine (IO.FS.createDir (path ++ "/.")) with
  | .error .exists => return true
  | _ => return false

instance : Files IO where
  readText path := onMachine (IO.FS.readFile path)
  writeText path text := onMachine (IO.FS.writeFile path text)
  makeDirectory path := onMachine (IO.FS.createDir path)
  isDirectory := isDirectoryOnMachine

end ShaderGen.CommandLine

open ShaderGen.CommandLine in
/-- Runs the program and prints its report. -/
def main (args : List String) : IO UInt32 := do
  let report ← run (m := IO) args
  IO.print (unlines report.out)
  IO.eprint (unlines report.err)
  return report.code
