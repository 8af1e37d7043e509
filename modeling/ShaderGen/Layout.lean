import ShaderGen.Module

/-!
The layout of buffer blocks. A member starts at the first multiple of its
alignment that is not inside the member before it. A scalar is as large and as
aligned as its bytes; a vector of two is aligned to two scalars, any other to
four, so a vector of three leaves room for a scalar behind it.
-/

namespace ShaderGen.Layout

/-- The bytes a member occupies and the alignment it needs. -/
structure Extent where
  size : Nat
  align : Nat
deriving DecidableEq, Repr

/-- The extent of a numeric scalar or a vector of such scalars. Other types have
none. -/
def extent? (m : Module) (ty : EntryId) : Except Fault (Option Extent) := do
  match ← m.typeAt ty with
  | .int width _ | .float width => pure (some ⟨width / 8, width / 8⟩)
  | .vector element count =>
    match (← m.typeAt element).scalarWidth? with
    | none => pure none
    | some width =>
      let scalar := width / 8
      let size ← Fault.checkWord 32 (count * scalar)
      pure (some ⟨size, if count = 2 then 2 * scalar else 4 * scalar⟩)
  | _ => pure none

/-- The first multiple of an alignment that is not below a number. -/
def alignUp (n align : Nat) : Except Fault Nat :=
  if align = 0 then .error .divisionByZero
  else Fault.checkWord 32 ((n + align - 1) / align * align)

/-- The offsets of members that start at `start` or behind it. -/
def offsetsFrom (m : Module) (start : Nat) : List EntryId → Except Fault (Option (List Nat))
  | [] => pure (some [])
  | member :: members => do
    match ← extent? m member with
    | none => pure none
    | some e =>
      let offset ← alignUp start e.align
      let stop ← Fault.checkWord 32 (offset + e.size)
      return (← offsetsFrom m stop members).map (offset :: ·)

/-- The offsets of the members of a block, or nothing if one of them is neither a
numeric scalar nor a vector of such scalars. -/
def offsets? (m : Module) (members : List EntryId) : Except Fault (Option (List Nat)) :=
  offsetsFrom m 0 members

end ShaderGen.Layout
