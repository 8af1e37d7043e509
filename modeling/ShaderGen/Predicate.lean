import ShaderGen.Module

/-!
Tests on types, used to search for operands. A name ending in `Like` means a
scalar of that kind or a vector of such scalars.
-/

namespace ShaderGen

/-- A test on the type in a slot of a module. -/
abbrev Predicate := Module → EntryId → Except Fault Bool

namespace Predicate

/-- A test that looks at the type alone. -/
def ofTy (test : Ty → Bool) : Predicate := fun m id => test <$> m.typeAt id

/-- A test on the scalar at the bottom of vectors and matrices. -/
def base (test : Ty → Bool) : Predicate := fun m id => test <$> m.baseTy id

/-- Both tests, the second only where the first holds. -/
def and (p q : Predicate) : Predicate := fun m id => do
  if ← p m id then q m id else pure false

/-- One of two tests, the second only where the first fails. -/
def or (p q : Predicate) : Predicate := fun m id => do
  if ← p m id then pure true else q m id

/-- Any type, whatever is in the slot. -/
def any : Predicate := fun _ _ => pure true

/-- Exactly one type. -/
def exactly (ty : EntryId) : Predicate := fun _ id => pure (id = ty)

def bool : Predicate := ofTy (· == .bool)

def int : Predicate := ofTy fun t => t.opcode == .typeInt

def scalarOrVector : Predicate := ofTy fun t => t.isScalar || t.isVector

def vector : Predicate := ofTy Ty.isVector

def matrix : Predicate := ofTy Ty.isMatrix

def pointer : Predicate := ofTy Ty.isPointer

/-- A vector, matrix, array or struct. -/
def composite : Predicate := ofTy Ty.isComposite

/-- Anything that can be copied: no pointer, function or void. -/
def data : Predicate := ofTy Ty.isData

def boolLike : Predicate := and scalarOrVector (base (· == .bool))

def intLike : Predicate := and scalarOrVector (base fun t => t.opcode == .typeInt)

def floatLike : Predicate := and scalarOrVector (base fun t => t.opcode == .typeFloat)

def numericLike : Predicate := or intLike floatLike

def floatVector : Predicate := and vector floatLike

def boolVector : Predicate := and vector boolLike

/-- Base scalars of the given width. -/
def width (bits : Nat) : Predicate := base fun t => t.scalarWidth? == some bits

/-- Integers or vectors of them, with the signedness the opcode asks for. -/
def intLikeFor (op : Opcode) : Predicate :=
  match op.signedness with
  | none => intLike
  | some signed => and intLike (base fun t => t.signed? == some signed)

end Predicate

/-- The bits of the base scalar of a type. -/
def Module.baseWidth? (m : Module) (id : EntryId) : Except Fault (Option Nat) :=
  Ty.scalarWidth? <$> m.baseTy id

end ShaderGen
