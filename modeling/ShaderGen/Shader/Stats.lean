import ShaderGen.Shader.Basic

/-!
Summary counts of a shader. The depth of selections is followed along the stream:
a merge instruction opens a selection, and the label it names closes it.
-/

namespace ShaderGen

/-- How much of what a shader contains. -/
structure Stats where
  instructions : Nat
  types : Nat
  constants : Nat
  globalVariables : Nat
  functions : Nat
  /-- The deepest nesting of selections. -/
  maxSelectionDepth : Nat
  /-- The number of instructions of each family. -/
  ofFamily : Family → Nat

namespace Stats

/-- The merge labels of the selections open after an instruction, innermost
first, given those open before it. -/
def openAfter (opened : List InstrId) (id : InstrId) (i : Instr) : List InstrId :=
  match i.opcode with
  | .selectionMerge =>
    match i.operands.head? with
    | some (.value (.instr merge)) => merge :: opened
    | _ => opened
  | .label => if opened.head? = some id then opened.tail else opened
  | _ => opened

/-- The deepest nesting of selections in a stream. -/
def selectionDepth : List (InstrId × Instr) → List InstrId → Nat
  | [], _ => 0
  | (id, i) :: rest, opened =>
    let after := openAfter opened id i
    max after.length (selectionDepth rest after)

/-- The counts of a shader. -/
def collect (s : Shader) : Except Fault Stats := do
  let stream ← s.body.toList.mapM fun id => return (id, ← s.code.instr id)
  return {
    instructions := s.body.size
    types := s.code.table.typeCount
    constants := s.code.table.constantCount
    globalVariables := s.code.table.vars.length
    functions := stream.countP fun (_, i) => i.opcode == .function
    maxSelectionDepth := selectionDepth stream []
    ofFamily := fun family => stream.countP fun (_, i) => i.opcode.family == family }

/-- The counts in one line. -/
def summary (s : Stats) : String :=
  toString s.instructions ++ " instructions, " ++ toString s.types ++ " types, " ++
    toString s.constants ++ " constants, " ++ toString s.globalVariables ++ " globals, " ++
    toString s.functions ++ " functions, depth " ++ toString s.maxSelectionDepth

end Stats

end ShaderGen
