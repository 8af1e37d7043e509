import ShaderGen.Entity
import ShaderGen.ExtendedOp

/-!
Instructions. All of them have one shape, an opcode with an optional result type
and a list of operands, so that a pass over operands needs no case per opcode.
-/

namespace ShaderGen

/-- A slot of the instruction arena. -/
structure InstrId where
  index : Nat
deriving DecidableEq, Repr, Inhabited

/-- A slot of the list of imported instruction sets. -/
structure ImportId where
  index : Nat
deriving DecidableEq, Repr, Inhabited

/-- Something that has a result id: an entry of the table or an instruction. -/
inductive Value where
  | entry (id : EntryId)
  | instr (id : InstrId)
deriving DecidableEq, Repr

/-- An operand, by the way it is written. -/
inductive Operand where
  | value (v : Value)
  | literal (n : Nat)
  | storage (s : StorageClass)
  /-- A bare word such as `None`. -/
  | keyword (word : String)
  /-- An imported instruction set. -/
  | importSet (id : ImportId)
  /-- An instruction of an imported set. -/
  | extended (op : ExtendedOp)
deriving DecidableEq, Repr

namespace Operand

/-- The operand that reads an entry. -/
def entry (id : EntryId) : Operand := value (.entry id)

/-- The operand that refers to an instruction. -/
def instr (id : InstrId) : Operand := value (.instr id)

/-- The value an operand reads, if it is one. -/
def value? : Operand → Option Value
  | value v => some v
  | _ => none

end Operand

/-- A statement, or a marker of the structure around statements. -/
structure Instr where
  opcode : Opcode
  resultType : Option EntryId := none
  operands : List Operand := []
deriving DecidableEq, Repr

namespace Instr

/-- The values an instruction reads. -/
def usedValues (i : Instr) : List Value := i.operands.filterMap Operand.value?

/-- The instruction with the operand in one slot replaced by a value. -/
def setOperand (i : Instr) (slot : Nat) (v : Value) : Instr :=
  { i with operands := i.operands.set slot (.value v) }

/-- A one-line summary of the instruction. -/
def summary (i : Instr) : String :=
  i.opcode.mnemonic ++ " (" ++ toString i.operands.length ++ " operands)"

end Instr

end ShaderGen
