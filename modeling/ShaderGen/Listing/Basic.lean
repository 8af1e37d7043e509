/-!
Assembly listings: comment lines, then one instruction a line. A listing is what
a shader is written as and what the reader gives back.
-/

namespace ShaderGen

/-- An operand of a line. -/
inductive Word where
  /-- A percent sign and a number. -/
  | id (n : Nat)
  /-- Text between double quotes. -/
  | quoted (s : String)
  /-- Anything else: a number or a name. -/
  | plain (s : String)
deriving DecidableEq, Repr

/-- A word as it is written. -/
def Word.render : Word → String
  | id n => "%" ++ toString n
  | quoted s => "\"" ++ s ++ "\""
  | plain s => s

/-- One instruction of a listing. -/
structure Line where
  /-- The id the line binds. -/
  result : Option Nat := none
  opcode : String
  operands : List Word := []
deriving DecidableEq, Repr

namespace Line

/-- A line as it is written. -/
def render (l : Line) : String :=
  (match l.result with
    | some n => "%" ++ toString n ++ " = "
    | none => "") ++
  l.opcode ++ l.operands.foldl (fun out w => out ++ " " ++ w.render) ""

/-- The ids a line reads, the result type's included. -/
def usedIds (l : Line) : List Nat :=
  l.operands.filterMap fun
    | .id n => some n
    | _ => none

end Line

/-- A whole listing. -/
structure Listing where
  /-- The comments, without their leading semicolons. -/
  header : List String := []
  lines : List Line := []
deriving DecidableEq, Repr

namespace Listing

/-- The text of a listing: the comments first, then the lines. -/
def render (l : Listing) : String :=
  l.lines.foldl (fun out line => out ++ line.render ++ "\n")
    (l.header.foldl (fun out comment => out ++ ";" ++ comment ++ "\n") "")

/-- The lines with a given opcode. -/
def withOpcode (l : Listing) (opcode : String) : List Line :=
  l.lines.filter fun line => line.opcode == opcode

end Listing

end ShaderGen
