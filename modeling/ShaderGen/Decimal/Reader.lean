import ShaderGen.Decimal.Binary

/-!
Reading floats. A decimal has digits with or without a point and perhaps a power
of ten; the float it denotes is the nearest one, a tie going to the even word.
Infinities and what is not a number are written out.
-/

namespace ShaderGen.Decimal

/-- The value of digits. -/
def digitsValue (cs : List Char) : Nat := cs.foldl (fun n c => 10 * n + (c.toNat - '0'.toNat)) 0

/-- The sign in front of a text, true for a minus, and the text after it. -/
def splitSign : List Char → Bool × List Char
  | '-' :: cs => (true, cs)
  | '+' :: cs => (false, cs)
  | cs => (false, cs)

/-- The digits at the head of a text and the text after them. -/
def splitDigits (cs : List Char) : List Char × List Char :=
  (cs.takeWhile Char.isDigit, cs.dropWhile Char.isDigit)

/-- The power of ten that ends a decimal. -/
def exponent? : List Char → Option Int
  | [] => some 0
  | mark :: cs =>
    if mark = 'e' ∨ mark = 'E' then
      match splitSign cs with
      | (_, []) => none
      | (negative, digits) =>
        if digits.all Char.isDigit then
          some (if negative then -(digitsValue digits : Int) else digitsValue digits)
        else none
    else none

/-- The word of the double nearest to `digits * 10 ^ power`. Numbers far outside
the range of doubles are told by their places alone. -/
def nearestDouble (digits : List Char) (power : Int) : Nat :=
  let significant := digits.dropWhile (· = '0')
  let places : Int := significant.length + power
  if significant.isEmpty ∨ places < -400 then 0
  else if 400 < places then FloatFormat.double.infinityWord
  else
    let (num, den) := scaleDown (digitsValue significant) 1 10 (-power)
    FloatFormat.double.nearest num den

/-- The word of the non-negative double a text without sign denotes. -/
def magnitude? (cs : List Char) : Option Nat :=
  let lower := String.ofList (cs.map Char.toLower)
  if lower = "inf" ∨ lower = "infinity" then some FloatFormat.double.infinityWord
  else if lower = "nan" then some (FloatFormat.double.ofReading .nan)
  else
    let (whole, cs) := splitDigits cs
    let (fraction, cs) := match cs with
      | '.' :: cs => splitDigits cs
      | cs => ([], cs)
    if whole.isEmpty && fraction.isEmpty then none
    else (exponent? cs).map fun e => nearestDouble (whole ++ fraction) (e - fraction.length)

/-- The float a text denotes. -/
def readFloat? (s : String) : Option Float :=
  let (negative, cs) := splitSign s.toList
  (magnitude? cs).map fun word =>
    Float.ofBits ((if negative then FloatFormat.double.signWord else 0) + word).toUInt64

end ShaderGen.Decimal
