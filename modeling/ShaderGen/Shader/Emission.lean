import ShaderGen.Listing.Basic
import ShaderGen.Shader.Basic

/-!
Writing a shader as a listing: capabilities, imports, memory model, entry point,
execution mode, annotations, the entries of the table and the stream. Every
reference is replaced by its id; a reference to an instruction outside the stream
cannot be written.
-/

namespace ShaderGen

/-- Why a shader cannot be written. -/
inductive EmissionError where
  | idsNotAssigned
  | unassignedInstr (id : InstrId)
  | missingResultType (op : Opcode)
  | fault (f : Fault)
deriving DecidableEq, Repr

/-- The wording of an error. -/
def EmissionError.message : EmissionError → String
  | idsNotAssigned => "ids have not been assigned"
  | unassignedInstr id =>
    "InstrId(" ++ toString id.index ++ ") is referenced but not part of the emitted stream"
  | missingResultType op => op.mnemonic ++ " has no result type"
  | fault _ => "precondition violated"

namespace Emission

/-- A value that broken preconditions may keep from being computed. -/
def checked {α : Type} : Except Fault α → Except EmissionError α
  | .ok a => .ok a
  | .error f => .error (.fault f)

/-- The id of an entry, as an operand. -/
def entryWord (n : Numbering) (id : EntryId) : Except EmissionError Word :=
  checked (Word.id <$> n.entryId id)

/-- The id of a value. -/
def valueId (n : Numbering) : Value → Except EmissionError Nat
  | .entry id => checked (n.entryId id)
  | .instr id =>
    match n.instrId? id with
    | some k => .ok k
    | none => .error (.unassignedInstr id)

/-- A number, as an operand. -/
def numberWord (n : Nat) : Word := .plain (toString n)

/-- The words of a decoration. -/
def decorationWords : Decoration → List Word
  | .block => [.plain "Block"]
  | .descriptorSet set => [.plain "DescriptorSet", numberWord set]
  | .binding binding => [.plain "Binding", numberWord binding]
  | .offset bytes => [.plain "Offset", numberWord bytes]

/-- The line of an annotation. -/
def annotationLine (n : Numbering) : Annotation → Except EmissionError Line
  | .entry target decoration => do
    return { opcode := "OpDecorate",
             operands := (← entryWord n target) :: decorationWords decoration }
  | .member target index decoration => do
    return { opcode := "OpMemberDecorate",
             operands := (← entryWord n target) :: numberWord index :: decorationWords decoration }

/-- The operands that declare a type. -/
def typeWords (n : Numbering) : Ty → Except EmissionError (List Word)
  | .void | .bool => return []
  | .int width signed => return [numberWord width, numberWord (if signed then 1 else 0)]
  | .float width => return [numberWord width]
  | .vector part count | .matrix part count => return [← entryWord n part, numberWord count]
  | .array element length => return [← entryWord n element, ← entryWord n length]
  | .struct members => members.mapM (entryWord n)
  | .pointer storage pointee => return [.plain storage.name, ← entryWord n pointee]
  | .function result params => return (← entryWord n result) :: (← params.mapM (entryWord n))

/-- The operands that declare a constant. -/
def constWords (m : Module) (n : Numbering) (c : Const) : Except EmissionError (List Word) := do
  let ty ← entryWord n c.ty
  match c with
  | .bool .. => return [ty]
  | .scalar id value =>
    let width := (← checked (m.typeAt id)).scalarWidth?.getD 32
    return [ty, .plain (value.render width)]
  | .composite _ parts => return ty :: (← parts.mapM (entryWord n))

/-- The operands that declare a variable of the module. -/
def varWords (n : Numbering) (v : GlobalVar) : Except EmissionError (List Word) := do
  let ty ← entryWord n v.ty
  return ty :: .plain v.storage.name :: (← v.initializer.toList.mapM (entryWord n))

/-- The line of an entry. -/
def entryLine (m : Module) (n : Numbering) (id : EntryId) (e : Entity) :
    Except EmissionError Line := do
  let result ← checked (n.entryId id)
  match e with
  | .type t => return ⟨some result, t.opcode.mnemonic, ← typeWords n t⟩
  | .const c => return ⟨some result, c.opcode.mnemonic, ← constWords m n c⟩
  | .var v => return ⟨some result, Opcode.var.mnemonic, ← varWords n v⟩

/-- An operand of an instruction. -/
def operandWord (n : Numbering) : Operand → Except EmissionError Word
  | .value v => Word.id <$> valueId n v
  | .literal k => return numberWord k
  | .storage s => return .plain s.name
  | .keyword word => return .plain word
  | .importSet id => checked (Word.id <$> n.importId id)
  | .extended op => return .plain op.name

/-- The result type of an instruction, if its opcode has one. -/
def resultTypeWords (n : Numbering) (i : Instr) : Except EmissionError (List Word) :=
  if i.opcode.isTyped then
    match i.resultType with
    | some ty => return [← entryWord n ty]
    | none => .error (.missingResultType i.opcode)
  else .ok []

/-- The line of an instruction. -/
def instrLine (m : Module) (n : Numbering) (id : InstrId) : Except EmissionError Line := do
  let i ← checked (m.instr id)
  let ty ← resultTypeWords n i
  let operands ← i.operands.mapM (operandWord n)
  let result ← if i.opcode.hasResult then some <$> valueId n (.instr id) else pure none
  return ⟨result, i.opcode.mnemonic, ty ++ operands⟩

/-- The line of an import. -/
def importLine (n : Numbering) (index : Nat) (name : String) : Except EmissionError Line := do
  return ⟨some (← checked (n.importId ⟨index⟩)), "OpExtInstImport", [.quoted name]⟩

end Emission

namespace Shader

open Emission

/-- The comments in front of a shader. -/
def header (s : Shader) : List String :=
  [" SPIR-V", " Version: 1.3", " Generator: spvs; 0", " Bound: " ++ toString s.bound, " Schema: 0"]

/-- The lines that make the entry point known: where to start and how large a
workgroup is. -/
def entryLines (entry : Nat) : List Line :=
  [{ opcode := "OpEntryPoint", operands := [.plain "GLCompute", .id entry, .quoted "main"] },
   { opcode := "OpExecutionMode",
     operands := [.id entry, .plain "LocalSize", .plain "1", .plain "1", .plain "1"] }]

/-- The listing of a shader under the given ids. -/
def listingWith (s : Shader) (n : Numbering) : Except EmissionError Listing := do
  let capabilities := s.capabilities.map fun c =>
    ({ opcode := "OpCapability", operands := [.plain c.name] } : Line)
  let imports ← s.code.imports.toList.zipIdx.mapM fun (name, i) => importLine n i name
  let model : Line :=
    { opcode := "OpMemoryModel", operands := [.plain "Logical", .plain "GLSL450"] }
  let entry ← valueId n (.instr s.entryPoint)
  let annotations ← s.code.annotations.toList.mapM (annotationLine n)
  let entries ← s.code.table.entries.toList.zipIdx.mapM fun (e, i) => entryLine s.code n ⟨i⟩ e
  let stream ← s.body.toList.mapM (instrLine s.code n)
  return {
    header := s.header
    lines := capabilities ++ imports ++ model :: entryLines entry ++ annotations ++ entries ++
      stream }

/-- The listing of a shader under its ids. -/
def listing (s : Shader) : Except EmissionError Listing :=
  match s.numbering with
  | some n => s.listingWith n
  | none => .error .idsNotAssigned

/-- The text of a shader. -/
def text (s : Shader) : Except EmissionError String := Listing.render <$> s.listing

end Shader

end ShaderGen
