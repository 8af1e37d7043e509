import ShaderGen.Generator.Constants
import ShaderGen.Layout
import ShaderGen.Predicate

/-!
Variables. Those of a function are instructions, which the caller puts into the
entry block; those of the module are entries of the table. All are initialized
but the storage buffers, whose contents come from outside. A struct that holds
the members of a buffer is a block, and no other variable has its type.
-/

namespace ShaderGen.Gen

variable {ρ : Type} [RandomSource ρ]

/-- A constant to start a variable of a type with: an existing one, or zero. -/
def initializer (ty : EntryId) : Gen ρ EntryId := do
  let existing ← constantsOf ty
  if existing.isEmpty then zero ty else pick existing

/-- A new variable at module scope. Its number is a word of 32 bits, and so is the
next one. -/
def moduleVariable (storage : StorageClass) (pointer : EntryId) (initial : Option EntryId) :
    Gen ρ EntryId := do
  let serial := (← get).nextSerial
  let next ← checked (Fault.checkWord 32 (serial + 1))
  modify fun s => { s with nextSerial := next }
  let answer ← build (·.intern (.var ⟨pointer, storage, initial, serial⟩))
  return answer.id

/-- A new variable of a type. -/
def newVariable (storage : StorageClass) (ty : EntryId) : Gen ρ Value := do
  let pointer ← internType (.pointer storage ty)
  match storage with
  | .storageBuffer => return .entry (← moduleVariable storage pointer none)
  | .modulePrivate =>
    let initial ← initializer ty
    return .entry (← moduleVariable storage pointer (some initial))
  | .function =>
    let initial ← initializer ty
    return .instr (← alloc ⟨.var, some pointer, [.storage storage, .entry initial]⟩)

/-- An existing type that a variable outside of buffers may have. -/
def variableType : Gen ρ EntryId := do
  let code := (← get).code
  let fitting ← checked (code.table.types.filterM fun (id, _) => do
    return (← Predicate.data code id) && !code.isBlock id)
  pick (fitting.map Prod.fst)

/-- A member of a buffer: a 32-bit number or a vector of such numbers. -/
def bufferMember : Gen ρ EntryId := do
  let scalar ← internType (match ← range 0 2 with
    | 0 => .int 32 true
    | 1 => .int 32 false
    | _ => .float 32)
  if ← chance 0.5 then return scalar
  internType (.vector scalar (← range 2 4))

/-- Decorates a struct as a block with the given member offsets, unless it is one
already. -/
def decorateBlock (block : EntryId) (offsets : List Nat) : Gen ρ Unit := do
  unless (← get).code.isBlock block do
    annotate (.entry block .block)
    offsets.zipIdx.forM fun (offset, index) => annotate (.member block index (.offset offset))

/-- A buffer with the given binding in descriptor set zero. -/
def storageBuffer (binding : Nat) : Gen ρ EntryId := do
  let count ← range 1 4
  let members ← (List.range count).mapM fun _ => bufferMember
  let offsets ← require (← query (Layout.offsets? · members))
  let block ← internType (.struct members)
  decorateBlock block offsets
  match ← newVariable .storageBuffer block with
  | .instr _ => infeasible
  | .entry buffer =>
    annotate (.entry buffer (.descriptorSet 0))
    annotate (.entry buffer (.binding binding))
    return buffer

/-- Buffers with bindings from `binding` on. -/
def storageBuffersFrom : Nat → Nat → Gen ρ (List EntryId)
  | 0, _ => pure []
  | count + 1, binding => do
    let buffer ← attempt (storageBuffer (min binding (UInt32.size - 1)))
    let buffers ← storageBuffersFrom count (binding + 1)
    return buffer.toList ++ buffers

/-- The configured number of buffers. Half of the address space is the most that
can be reserved for a list of their ids, of four bytes each. -/
def storageBuffers : Gen ρ (List EntryId) := do
  let count := (← read).storageBuffers
  if UInt64.size / 2 ≤ 4 * count then fault .tooLarge
  storageBuffersFrom count 0

/-- So many private variables, as long as a type is found for them. -/
def privateVariablesWithin : Nat → Gen ρ (List EntryId)
  | 0 => pure []
  | count + 1 => do
    match ← attempt variableType with
    | none => pure []
    | some ty =>
      let created ← attempt (newVariable .modulePrivate ty)
      let others ← privateVariablesWithin count
      return match created with
        | some (.entry id) => id :: others
        | _ => others

/-- The configured number of private variables over existing types. -/
def privateVariables : Gen ρ (List EntryId) := do
  privateVariablesWithin (← read).privateVariables

end ShaderGen.Gen
