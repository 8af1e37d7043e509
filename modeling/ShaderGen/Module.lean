import ShaderGen.Annotation
import ShaderGen.Fault
import ShaderGen.Instr
import ShaderGen.Table

/-!
A module under construction: the entity table, the instruction arena, the
annotations and the imported instruction sets. Questions about types follow the
ids through the table; asking about an id that was never handed out, or about a
constant as if it were a type, is a `Fault`.
-/

namespace ShaderGen

/-- Everything one generation session fills. -/
structure Module where
  table : Table := .empty
  instrs : Array Instr := #[]
  annotations : Array Annotation := #[]
  imports : Array String := #[]
deriving Repr, Inhabited

namespace Module

/-! Entries and instructions. -/

/-- Interns an entity. -/
def intern (m : Module) (e : Entity) : Interned × Module :=
  let (answer, table) := m.table.intern e
  (answer, { m with table })

/-- Interns a type and answers its slot. -/
def internType (m : Module) (t : Ty) : EntryId × Module :=
  let (answer, m) := m.intern (.type t)
  (answer.id, m)

/-- Interns a constant and answers its slot. -/
def internConst (m : Module) (c : Const) : EntryId × Module :=
  let (answer, m) := m.intern (.const c)
  (answer.id, m)

/-- Adds an instruction to the arena. Its id is a word as long as there are at most 2^32
instructions, which is not checked. -/
def alloc (m : Module) (i : Instr) : InstrId × Module :=
  (⟨m.instrs.size⟩, { m with instrs := m.instrs.push i })

/-- Adds an annotation. -/
def annotate (m : Module) (a : Annotation) : Module :=
  { m with annotations := m.annotations.push a }

/-- Imports an instruction set, once per name. -/
def importSet (m : Module) (name : String) : ImportId × Module :=
  match m.imports.findIdx? (· == name) with
  | some i => (⟨i⟩, m)
  | none => (⟨m.imports.size⟩, { m with imports := m.imports.push name })

/-- The entry in a slot. -/
def entity (m : Module) (id : EntryId) : Except Fault Entity :=
  match m.table.get? id with
  | some e => .ok e
  | none => .error .unknownId

/-- The type in a slot. -/
def typeAt (m : Module) (id : EntryId) : Except Fault Ty :=
  match m.table.get? id with
  | some (.type t) => .ok t
  | some _ => .error .notAType
  | none => .error .unknownId

/-- The constant in a slot, if it holds one. -/
def constantAt? (m : Module) (id : EntryId) : Except Fault (Option Const) :=
  Entity.const? <$> m.entity id

/-- The variable in a slot, if it holds one. -/
def variableAt? (m : Module) (id : EntryId) : Except Fault (Option GlobalVar) :=
  Entity.var? <$> m.entity id

/-- The natural number of the scalar constant in a slot, if it holds one. -/
def constantNat? (m : Module) (id : EntryId) : Except Fault (Option Nat) :=
  return (← m.constantAt? id).bind Const.nat?

/-- The instruction in a slot of the arena. -/
def instr (m : Module) (id : InstrId) : Except Fault Instr :=
  match m.instrs[id.index]? with
  | some i => .ok i
  | none => .error .unknownId

/-- Replaces the operand in one slot of an instruction by a value. -/
def setOperand (m : Module) (id : InstrId) (slot : Nat) (v : Value) : Module :=
  { m with instrs := m.instrs.modify id.index fun i => i.setOperand slot v }

/-- Interns an integer constant of an integer type, in the form the type's
signedness asks for. A value above the largest signed one is lowered to it. -/
def intConstant (m : Module) (ty : EntryId) (value : Nat) : Except Fault (EntryId × Module) :=
  return match ← m.typeAt ty with
    | .int _ true => m.internConst (.scalar ty (.int (min value (UInt64.size / 2 - 1) : Nat)))
    | _ => m.internConst (.scalar ty (.uint value))

/-! Types of values and parts of types. -/

/-- The type of a value: the declared type of a constant, the pointer type of a
variable, the result type of an instruction. -/
def typeOf? (m : Module) : Value → Except Fault (Option EntryId)
  | .entry id => return match ← m.entity id with
    | .const c => some c.ty
    | .var v => some v.ty
    | .type _ => none
  | .instr id => Instr.resultType <$> m.instr id

/-- The scalar type at the bottom of vectors and matrices, found in fewer steps
than `fuel`. -/
def baseTypeWithin (m : Module) : Nat → EntryId → Except Fault EntryId
  | 0, _ => .error .cyclic
  | fuel + 1, id => do
    match ← m.typeAt id with
    | .vector element _ => m.baseTypeWithin fuel element
    | .matrix column _ => m.baseTypeWithin fuel column
    | _ => pure id

/-- The scalar type at the bottom of vectors and matrices, and any other type
itself. No chain of parts is longer than the table. -/
def baseType (m : Module) (id : EntryId) : Except Fault EntryId :=
  m.baseTypeWithin (m.table.size + 1) id

/-- What the base type of a type is. -/
def baseTy (m : Module) (id : EntryId) : Except Fault Ty := m.baseType id >>= m.typeAt

/-- The type of the direct parts of a vector, matrix or array. -/
def elementType? (m : Module) (id : EntryId) : Except Fault (Option EntryId) :=
  return match ← m.typeAt id with
    | .vector element _ | .array element _ => some element
    | .matrix column _ => some column
    | _ => none

/-- The number of parts of a composite, and one for everything else. An array
whose length is no 32-bit constant counts as one part. -/
def componentCount (m : Module) (id : EntryId) : Except Fault Nat := do
  match ← m.typeAt id with
  | .vector _ count | .matrix _ count => pure count
  | .array _ length => return ((← m.constantNat? length).filter (· < UInt32.size)).getD 1
  | .struct members => pure members.length
  | _ => pure 1

/-- The type of one part of a composite. -/
def memberType? (m : Module) (id : EntryId) (index : Nat) : Except Fault (Option EntryId) := do
  match ← m.typeAt id with
  | .struct members => pure members[index]?
  | _ => if index < (← m.componentCount id) then m.elementType? id else pure none

/-- Where a pointer points and to what. -/
def pointee? (m : Module) (id : EntryId) : Except Fault (Option (StorageClass × EntryId)) :=
  return match ← m.typeAt id with
    | .pointer storage pointee => some (storage, pointee)
    | _ => none

/-- Whether two types have the same constructor, the same number of parts and
base scalars of the same width. Signedness may differ. -/
def sameShape (m : Module) (a b : EntryId) : Except Fault Bool := do
  let ta ← m.typeAt a
  let tb ← m.typeAt b
  if ta.opcode ≠ tb.opcode then return false
  if (← m.componentCount a) ≠ (← m.componentCount b) then return false
  let ba ← m.baseType a
  let bb ← m.baseType b
  return (← m.typeAt ba).scalarWidth? = (← m.typeAt bb).scalarWidth?

/-- Whether a type carries a block decoration. -/
def isBlock (m : Module) (id : EntryId) : Bool :=
  m.annotations.any (· == .entry id .block)

end Module

end ShaderGen
