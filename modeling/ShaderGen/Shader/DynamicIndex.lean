import ShaderGen.Shader.Basic

/-!
Making dynamic vector accesses defined. In front of an access with index `i` into
a vector of `n` components goes the instruction for `i mod n`, and the access
uses that instead. The modulo takes the sign of `n`, so its result is in range
whatever the index is. An index that is such a modulo already is left alone, so
a second pass changes nothing.
-/

namespace ShaderGen

namespace DynamicIndex

/-- The operand of an access that holds the index. -/
def slot? : Opcode → Option Nat
  | .vectorExtractDynamic => some 1
  | .vectorInsertDynamic => some 2
  | _ => none

/-- Whether a value is an instruction that takes a modulo by the given constant. -/
def isModuloBy (m : Module) (length : EntryId) : Value → Except Fault Bool
  | .entry _ => pure false
  | .instr id => do
    let i ← m.instr id
    return (i.opcode == .sMod || i.opcode == .uMod) && i.operands[1]? == some (.entry length)

/-- An access that may need bounding. -/
structure Access where
  slot : Nat
  index : Value
  indexTy : EntryId
  signed : Bool
  /-- The number of components of the vector. -/
  count : Nat

/-- The access an instruction makes, if it is one with an integer index. -/
def access? (m : Module) (i : Instr) : Except Fault (Option Access) := do
  let some slot := slot? i.opcode | return none
  let some vector := i.operands.head?.bind Operand.value? | return none
  let some index := i.operands[slot]?.bind Operand.value? | return none
  let some indexTy ← m.typeOf? index | return none
  let some vectorTy ← m.typeOf? vector | return none
  let count ← m.componentCount vectorTy
  let some signed := (← m.typeAt indexTy).signed? | return none
  return some { slot, index, indexTy, signed, count }

/-- Bounds the index of an access. Answers the modulo to put in front of it, if
one is needed. -/
def bound (m : Module) (id : InstrId) : Except Fault (Option InstrId × Module) := do
  let i ← m.instr id
  match ← access? m i with
  | none => return (none, m)
  | some a =>
    let (length, m) ← m.intConstant a.indexTy a.count
    if ← isModuloBy m length a.index then return (none, m)
    let (modulo, m) := m.alloc
      ⟨if a.signed then .sMod else .uMod, some a.indexTy, [.value a.index, .entry length]⟩
    return (some modulo, m.setOperand id a.slot (.instr modulo))

/-- Bounds every access of a stream. Answers the stream with the modulos in it,
and their number. -/
def boundAll (m : Module) : List InstrId → Except Fault (List InstrId × Nat × Module)
  | [] => return ([], 0, m)
  | id :: ids => do
    let (inserted, m) ← bound m id
    let (rest, count, m) ← boundAll m ids
    match inserted with
    | some modulo => return (modulo :: id :: rest, count + 1, m)
    | none => return (id :: rest, count, m)

end DynamicIndex

/-- Bounds every dynamic access of a shader and discards its ids. Answers the
number of modulos put in. -/
def Shader.boundIndices (s : Shader) : Except Fault (Nat × Shader) := do
  let (body, count, code) ← DynamicIndex.boundAll s.code s.body.toList
  return (count, { s with code, body := body.toArray, numbering := none })

end ShaderGen
