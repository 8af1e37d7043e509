import ShaderGen.Json.Basic
import ShaderGen.Layout
import ShaderGen.Shader.Basic

/-!
What the surroundings of a shader must bind: for every storage buffer its place,
its size and what its bytes mean.
-/

namespace ShaderGen

/-- The kind of number in a buffer. -/
inductive NumberKind where
  | int
  | uint
  | float
deriving DecidableEq, Repr

/-- The kind's name. -/
def NumberKind.name : NumberKind → String
  | int => "int"
  | uint => "uint"
  | float => "float"

/-- One member of a buffer. -/
structure BufferMember where
  kind : NumberKind
  /-- The bits of each component. -/
  width : Nat
  components : Nat
  /-- The bytes in front of the member. -/
  offset : Nat
deriving DecidableEq, Repr

/-- A storage buffer as its surroundings see it. -/
structure Buffer where
  descriptorSet : Nat
  binding : Nat
  members : List BufferMember
  /-- The bytes of the buffer, rounded up to its alignment. -/
  size : Nat
deriving DecidableEq, Repr

namespace Buffer

/-- The kind and width of a number. -/
def number? : Ty → Option (NumberKind × Nat)
  | .int width true => some (.int, width)
  | .int width false => some (.uint, width)
  | .float width => some (.float, width)
  | _ => none

/-- A member of the given type at the given offset; nothing if it is not made of
numbers. -/
def member? (m : Module) (ty : EntryId) (offset : Nat) : Except Fault (Option BufferMember) := do
  match number? (← m.baseTy ty) with
  | none => pure none
  | some (kind, width) =>
    pure (some { kind, width, components := ← m.componentCount ty, offset })

/-- The members of the given types and offsets; nothing if one of them is not made
of numbers. -/
def members? (m : Module) : List (EntryId × Nat) → Except Fault (Option (List BufferMember))
  | [] => pure (some [])
  | (ty, offset) :: rest => do
    match ← member? m ty offset with
    | none => pure none
    | some member => return (← members? m rest).map (member :: ·)

/-- The last value some annotations give, if any does. -/
def lastOf (annotations : Array Annotation) (value? : Annotation → Option Nat) (default : Nat) :
    Nat :=
  annotations.foldl (fun current a => (value? a).getD current) default

/-- The descriptor set of a variable. -/
def setOf (m : Module) (buffer : EntryId) : Nat :=
  lastOf m.annotations (fun
    | .entry target (.descriptorSet n) => if target = buffer then some n else none
    | _ => none) 0

/-- The binding of a variable. -/
def bindingOf (m : Module) (buffer : EntryId) : Nat :=
  lastOf m.annotations (fun
    | .entry target (.binding n) => if target = buffer then some n else none
    | _ => none) 0

/-- The decorated offset of a member of a block. -/
def offsetOf (m : Module) (block : EntryId) (index : Nat) : Nat :=
  lastOf m.annotations (fun
    | .member target i (.offset n) => if target = block ∧ i = index then some n else none
    | _ => none) 0

/-- The end of the last member and the largest alignment, over members with their
offsets. -/
def extent (m : Module) :
    List (EntryId × Nat) → Nat → Nat → Except Fault (Nat × Nat)
  | [], stop, align => pure (stop, align)
  | (ty, offset) :: rest, stop, align => do
    match ← Layout.extent? m ty with
    | none => extent m rest stop align
    | some e =>
      let memberStop ← Fault.checkWord 32 (offset + e.size)
      extent m rest (max stop memberStop) (max align e.align)

/-- The buffer of a variable whose pointer leads to `block`. -/
def of? (m : Module) (buffer block : EntryId) : Except Fault (Option Buffer) := do
  match ← m.typeAt block with
  | .struct types =>
    let placed := types.zipIdx.map fun (ty, i) => (ty, offsetOf m block i)
    match ← members? m placed with
    | none => pure none
    | some members =>
      let (stop, align) ← extent m placed 0 1
      pure (some {
        descriptorSet := setOf m buffer
        binding := bindingOf m buffer
        members
        size := ← Layout.alignUp stop align })
  | _ => pure none

/-- Whether a buffer comes before another: by descriptor set, then by binding. -/
def before (a b : Buffer) : Bool :=
  a.descriptorSet < b.descriptorSet ||
    (a.descriptorSet == b.descriptorSet && a.binding ≤ b.binding)

/-- The member in JSON. -/
def memberJson (m : BufferMember) : Json :=
  .record [("kind", .text m.kind.name), ("width", .nat m.width), ("components", .nat m.components),
    ("offset", .nat m.offset)]

/-- The buffer in JSON. -/
def toJson (b : Buffer) : Json :=
  .record [("descriptor_set", .nat b.descriptorSet), ("binding", .nat b.binding),
    ("members", .array (b.members.map memberJson)), ("size", .nat b.size)]

end Buffer

/-- The storage buffers of some variables, in the order of the variables. -/
def Module.buffersOf (m : Module) : List (EntryId × GlobalVar) → Except Fault (List Buffer)
  | [] => pure []
  | (id, v) :: rest => do
    let buffer? ← if v.storage = .storageBuffer then do
        match ← m.pointee? v.ty with
        | some (_, block) => Buffer.of? m id block
        | none => pure none
      else pure none
    return buffer?.toList ++ (← m.buffersOf rest)

/-- The storage buffers of a shader, by descriptor set and binding. -/
def Shader.buffers (s : Shader) : Except Fault (List Buffer) := do
  return (← s.code.buffersOf s.code.table.vars).mergeSort Buffer.before

end ShaderGen
