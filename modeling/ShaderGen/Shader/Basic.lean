import ShaderGen.Module

/-!
Shaders: a module with the instruction stream that is its program and the
function in which it starts, and with the ids under which it will be written.
Whoever changes the stream discards the ids.
-/

namespace ShaderGen

/-- The ids of a module at some moment. They are handed out from one on: first to
the imports, then to the entries of the table, then to the instructions of the
stream. -/
structure Numbering where
  imports : Nat
  entries : Nat
  /-- The ids of the instructions in the stream, by slot of the arena. -/
  instrs : Array (Option Nat)
  /-- The first id that is not handed out. -/
  next : Nat
deriving Repr

namespace Numbering

/-- Hands out ids to the instructions of a stream, in order. -/
def number (ids : Array (Option Nat)) (next : Nat) :
    List InstrId → Except Fault (Array (Option Nat) × Nat)
  | [] => .ok (ids, next)
  | i :: is =>
    if h : i.index < ids.size then number (ids.set i.index (some next)) (next + 1) is
    else .error .unknownId

/-- The ids of a module with the given stream. An id is a word of 32 bits, and so is
the one behind the last. -/
def assign (m : Module) (body : List InstrId) : Except Fault Numbering := do
  let imports := m.imports.size
  let entries := m.table.size
  let (instrs, next) ←
    number (Array.replicate m.instrs.size none) (imports + entries + 1) body
  let next ← Fault.checkWord 32 next
  return { imports, entries, instrs, next }

/-- The id of an import. -/
def importId (n : Numbering) (id : ImportId) : Except Fault Nat :=
  if id.index < n.imports then .ok (id.index + 1) else .error .unknownId

/-- The id of an entry. -/
def entryId (n : Numbering) (id : EntryId) : Except Fault Nat :=
  if id.index < n.entries then .ok (n.imports + id.index + 1) else .error .unknownId

/-- The id of an instruction, if it is in the stream. -/
def instrId? (n : Numbering) (id : InstrId) : Option Nat := n.instrs[id.index]?.join

end Numbering

/-- A finished program. -/
structure Shader where
  code : Module
  body : Array InstrId
  /-- The instruction that opens the function to start in. -/
  entryPoint : InstrId
  numbering : Option Numbering := none
deriving Repr

namespace Shader

/-- The shader with another stream, and without ids. -/
def setBody (s : Shader) (body : Array InstrId) : Shader := { s with body, numbering := none }

/-- The shader with ids for its module and stream as they are now. -/
def assignIds (s : Shader) : Except Fault Shader := do
  return { s with numbering := some (← Numbering.assign s.code s.body.toList) }

/-- What the module declares to need: the basic capability and those of its
types, in order. -/
def capabilities (s : Shader) : List Capability :=
  let needed := s.code.table.types.filterMap fun (_, t) => t.capability?
  Capability.all.filter fun c => c == .shader || needed.contains c

/-- The number of instructions and entries, as the header states it. -/
def bound (s : Shader) : Nat := s.body.size + s.code.table.size

end Shader

end ShaderGen
