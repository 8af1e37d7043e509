import ShaderGen.Json.Basic

/-!
What a numeral is worth. As an unsigned word it must be written without sign,
point and exponent. As a float it is a significand of 64 bits times a power of
ten: the first digit of the whole part that does not fit the significand and all
after it only count as places, such a digit of the fraction and all after it are
dropped, and a number too large for a float is refused.
-/

namespace ShaderGen

namespace Numeral

/-- Digits gathered into a significand of 64 bits, and the digits left when the
next one does not fit. -/
def gather : Nat → List Nat → Nat × List Nat
  | significand, [] => (significand, [])
  | significand, d :: ds =>
    if 10 * significand + d < UInt64.size then gather (10 * significand + d) ds
    else (significand, d :: ds)

/-- The value of digits. -/
def value (digits : List Nat) : Nat := digits.foldl (fun n d => 10 * n + d) 0

/-- The unsigned 64-bit word a numeral denotes, if it is written as one. -/
def word? (n : Numeral) : Option Nat :=
  if n.negative || n.fraction.isSome || n.exponent.isSome then none
  else (some (value n.whole)).filter (· < UInt64.size)

/-- The float ten to the given power. -/
def tenTo (k : Nat) : Float := Float.ofScientific 1 false k

/-- A float times a power of ten. Powers beyond 308 are taken in steps; the
result is refused where it would be infinite. -/
def scaleByTen : Nat → Float → Int → Option Float
  | 0, _, _ => none
  | fuel + 1, x, exponent =>
    if exponent.natAbs ≤ 308 then
      if 0 ≤ exponent then
        let y := x * tenTo exponent.natAbs
        if y.isInf then none else some y
      else some (x / tenTo exponent.natAbs)
    else if x == 0.0 then some x
    else if 0 ≤ exponent then none
    else scaleByTen fuel (x / tenTo 308) (exponent + 308)

/-- The significand of a numeral and the power of ten its digits leave. -/
def significand (n : Numeral) : Nat × Int :=
  let (s, rest) := gather 0 n.whole
  match n.fraction with
  | none => (s, rest.length)
  | some fraction =>
    let (s, dropped) := gather s fraction
    (s, (rest.length : Int) - (fraction.length - dropped.length : Nat))

/-- The float a numeral denotes, if there is a finite one. -/
def float? (n : Numeral) : Option Float :=
  let (s, place) := n.significand
  let magnitude? : Option Float :=
    match n.exponent with
    | none => scaleByTen 8 s.toUInt64.toFloat place
    | some (negative, digits) =>
      let e := value digits
      if UInt32.size / 2 ≤ e then
        if s ≠ 0 ∧ negative = false then none else some 0.0
      else scaleByTen 8 s.toUInt64.toFloat (if negative then place - e else place + e)
  magnitude?.map fun x => if n.negative then -x else x

end Numeral

end ShaderGen
