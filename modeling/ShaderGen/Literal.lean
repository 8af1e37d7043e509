import ShaderGen.Decimal.Format

/-!
Scalar literals. An integer literal has a signed or an unsigned form, and a
float literal is kept as the word of a double, so that two literals are equal
exactly when they are written alike.
-/

namespace ShaderGen

/-- The value of a scalar constant. -/
inductive Literal where
  | int (value : Int)
  | uint (value : Nat)
  /-- A float, as the word of a double. -/
  | float (word : UInt64)
deriving DecidableEq, Repr

namespace Literal

/-- The literal of a float. -/
def ofFloat (x : Float) : Literal := float x.toBits

/-- The literal of a number that a double holds. -/
def ofReading (r : Decimal.FloatReading) : Literal :=
  float (Decimal.FloatFormat.double.ofReading r).toUInt64

/-- The literal of a single-precision float. -/
def ofSingle (x : Float32) : Literal :=
  ofReading (Decimal.FloatFormat.single.decode x.toBits.toNat)

/-- The float a float literal holds. -/
def float? : Literal → Option Float
  | float word => some (Float.ofBits word)
  | _ => none

/-- The natural number an integer literal holds, if it is not negative. -/
def nat? : Literal → Option Nat
  | int v => if 0 ≤ v then some v.toNat else none
  | uint v => some v
  | float _ => none

/-- The text of the literal in a scalar of the given width. Floats of at most 32
bits are shown in single precision. -/
def render (width : Nat) : Literal → String
  | int v => toString v
  | uint v => toString v
  | float word => if width ≤ 32 then Decimal.displaySingle word else Decimal.displayDouble word

end Literal

end ShaderGen
