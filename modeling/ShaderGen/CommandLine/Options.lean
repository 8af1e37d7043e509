import ShaderGen.Text.Digits

/-!
The options of the `generate` command. The arguments are read from the left as a
list of settings; a flag that takes a value takes the next argument, whatever it
looks like. Each setting overrides the ones before it.
-/

namespace ShaderGen.CommandLine

/-- Why arguments are refused. -/
inductive UsageError where
  /-- A flag that takes a value is the last argument. -/
  | missingValue (flag : String)
  | invalidNumber (flag value : String)
  | unknownOption (word : String)
deriving DecidableEq, Repr

/-- The wording of an error. -/
def UsageError.message : UsageError → String
  | missingValue flag => "missing value for `" ++ flag ++ "`"
  | invalidNumber flag value => "invalid value `" ++ value ++ "` for `" ++ flag ++ "`"
  | unknownOption word => "unknown option `" ++ word ++ "`"

/-- What a run of the command is to do. -/
structure Options where
  /-- The first seed; each further shader takes the next one. -/
  seed : UInt64 := 0
  /-- The number of shaders. -/
  count : UInt64 := 1
  /-- The file that holds the configuration. -/
  config : Option String := none
  /-- The directory that takes the shaders. -/
  out : String := "."
  /-- Whether each file written is announced. -/
  verbose : Bool := false
deriving DecidableEq, Repr

/-- What a flag sets. -/
inductive Flag where
  | seed
  | count
  | config
  | out
  | verbose
deriving DecidableEq, Repr

/-- The flag an argument is. -/
def Flag.ofWord? : String → Option Flag
  | "--seed" => some seed
  | "--count" => some count
  | "--config" => some config
  | "--out" => some out
  | "-o" => some out
  | "--verbose" => some verbose
  | "-v" => some verbose
  | _ => none

/-- One option with its value. -/
inductive Setting where
  | seed (seed : UInt64)
  | count (count : UInt64)
  | config (path : String)
  | out (path : String)
  | verbose
deriving DecidableEq, Repr

/-- The options after a setting. -/
def Options.set (o : Options) : Setting → Options
  | .seed seed => { o with seed }
  | .count count => { o with count }
  | .config path => { o with config := some path }
  | .out out => { o with out }
  | .verbose => { o with verbose := true }

/-- The 64-bit number given to a flag. -/
def readNumber (flag value : String) : Except UsageError UInt64 :=
  match Text.unsigned? UInt64.size value.toList with
  | some n => .ok n.toUInt64
  | none => .error (.invalidNumber flag value)

/-- A flag with its value; `word` is the flag as it was written. -/
def readSetting (flag : Flag) (word value : String) : Except UsageError Setting :=
  match flag with
  | .seed => Setting.seed <$> readNumber word value
  | .count => Setting.count <$> readNumber word value
  | .config => .ok (.config value)
  | .out => .ok (.out value)
  | .verbose => .ok .verbose

/-- The settings that arguments make. -/
def readSettings : List String → Except UsageError (List Setting)
  | [] => .ok []
  | word :: rest =>
    match Flag.ofWord? word with
    | none => .error (.unknownOption word)
    | some .verbose => (Setting.verbose :: ·) <$> readSettings rest
    | some flag =>
      match rest with
      | [] => .error (.missingValue word)
      | value :: rest => do
        let setting ← readSetting flag word value
        return setting :: (← readSettings rest)

/-- The options that arguments give. -/
def Options.read (args : List String) : Except UsageError Options :=
  (fun settings => settings.foldl Options.set {}) <$> readSettings args

end ShaderGen.CommandLine
