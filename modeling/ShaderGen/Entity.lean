import ShaderGen.Literal
import ShaderGen.Opcode

/-!
What a module declares: types, constants and module-scope variables. Entities
refer to each other by the slot of the table they are stored in, so two of them
are structurally equal exactly when they are equal as values.
-/

namespace ShaderGen

/-- A slot of the entity table. -/
structure EntryId where
  index : Nat
deriving DecidableEq, Repr, Inhabited

/-- What a target must support before a module may use a type. -/
inductive Capability where
  | shader
  | int8
  | int16
  | int64
  | float16
  | float64
deriving DecidableEq, Repr

namespace Capability

/-- Every capability, in the order a module declares them. -/
def all : List Capability := [shader, int8, int16, int64, float16, float64]

/-- The capability's name. -/
def name : Capability → String
  | shader => "Shader"
  | int8 => "Int8"
  | int16 => "Int16"
  | int64 => "Int64"
  | float16 => "Float16"
  | float64 => "Float64"

/-- The capability of a name. -/
def ofName? (name : String) : Option Capability := all.find? fun c => c.name == name

/-- The capability an integer width needs, if any. -/
def ofIntWidth? : Nat → Option Capability
  | 8 => some int8
  | 16 => some int16
  | 64 => some int64
  | _ => none

/-- The capability a float width needs, if any. -/
def ofFloatWidth? : Nat → Option Capability
  | 16 => some float16
  | 64 => some float64
  | _ => none

end Capability

/-- Where a variable lives. -/
inductive StorageClass where
  /-- In a function, declared at the top of its entry block. -/
  | function
  /-- In the module, visible to no one else. -/
  | modulePrivate
  /-- In a buffer that the surroundings bind. -/
  | storageBuffer
deriving DecidableEq, Repr

namespace StorageClass

/-- Every storage class. -/
def all : List StorageClass := [function, modulePrivate, storageBuffer]

/-- The storage class's name. -/
def name : StorageClass → String
  | function => "Function"
  | modulePrivate => "Private"
  | storageBuffer => "StorageBuffer"

/-- The storage class of a name. -/
def ofName? (name : String) : Option StorageClass := all.find? fun c => c.name == name

end StorageClass

/-- A type. -/
inductive Ty where
  | void
  | bool
  | int (width : Nat) (signed : Bool)
  | float (width : Nat)
  | vector (element : EntryId) (count : Nat)
  | matrix (column : EntryId) (count : Nat)
  /-- The length is an integer constant of the table. -/
  | array (element length : EntryId)
  | struct (members : List EntryId)
  | pointer (storage : StorageClass) (pointee : EntryId)
  | function (result : EntryId) (params : List EntryId)
deriving DecidableEq, Repr

namespace Ty

/-- The opcode that declares the type. -/
def opcode : Ty → Opcode
  | void => .typeVoid
  | bool => .typeBool
  | int .. => .typeInt
  | float .. => .typeFloat
  | vector .. => .typeVector
  | matrix .. => .typeMatrix
  | array .. => .typeArray
  | struct .. => .typeStruct
  | pointer .. => .typePointer
  | function .. => .typeFunction

/-- The capability a module must declare for the type itself. The scalars a
container is made of are entries of their own. -/
def capability? : Ty → Option Capability
  | int width _ => Capability.ofIntWidth? width
  | float width => Capability.ofFloatWidth? width
  | _ => none

/-- Whether the type is a boolean or a number. -/
def isScalar : Ty → Bool
  | bool | int .. | float .. => true
  | _ => false

/-- Whether the type is a number. -/
def isNumericScalar : Ty → Bool
  | int .. | float .. => true
  | _ => false

/-- Whether the type is a vector. -/
def isVector : Ty → Bool
  | vector .. => true
  | _ => false

/-- Whether the type is a matrix. -/
def isMatrix : Ty → Bool
  | matrix .. => true
  | _ => false

/-- Whether the type has parts: vectors, matrices, arrays and structs. -/
def isComposite : Ty → Bool
  | vector .. | matrix .. | array .. | struct .. => true
  | _ => false

/-- Whether the type is a pointer. -/
def isPointer : Ty → Bool
  | pointer .. => true
  | _ => false

/-- Whether values of the type can be stored and copied: everything but void,
pointers and functions. -/
def isData : Ty → Bool
  | void | pointer .. | function .. => false
  | _ => true

/-- The bits of a number. -/
def scalarWidth? : Ty → Option Nat
  | int width _ | float width => some width
  | _ => none

/-- Whether an integer is signed. -/
def signed? : Ty → Option Bool
  | int _ signed => some signed
  | _ => none

end Ty

/-- A constant. Each one carries its type. -/
inductive Const where
  | bool (ty : EntryId) (value : Bool)
  | scalar (ty : EntryId) (value : Literal)
  | composite (ty : EntryId) (parts : List EntryId)
deriving DecidableEq, Repr

namespace Const

/-- The type of a constant. -/
def ty : Const → EntryId
  | bool ty _ | scalar ty _ | composite ty _ => ty

/-- The opcode that declares the constant. -/
def opcode : Const → Opcode
  | bool _ true => .constantTrue
  | bool _ false => .constantFalse
  | scalar .. => .constant
  | composite .. => .constantComposite

/-- The number a scalar constant holds, if it is a natural one. -/
def nat? : Const → Option Nat
  | scalar _ value => value.nat?
  | _ => none

end Const

/-- A module-scope variable. -/
structure GlobalVar where
  /-- The pointer type of the variable. -/
  ty : EntryId
  storage : StorageClass
  initializer : Option EntryId
  /-- The number of the declaration. Two variables of one type and initializer
  are still two places to store in. -/
  serial : Nat
deriving DecidableEq, Repr

/-- An entry of the table. -/
inductive Entity where
  | type (ty : Ty)
  | const (value : Const)
  | var (value : GlobalVar)
deriving DecidableEq, Repr

namespace Entity

/-- The type an entry is, if it is one. -/
def type? : Entity → Option Ty
  | type t => some t
  | _ => none

/-- The constant an entry is, if it is one. -/
def const? : Entity → Option Const
  | const c => some c
  | _ => none

/-- The variable an entry is, if it is one. -/
def var? : Entity → Option GlobalVar
  | var v => some v
  | _ => none

end Entity

end ShaderGen
