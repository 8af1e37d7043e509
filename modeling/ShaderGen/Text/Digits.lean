/-!
Unsigned decimal numbers. A number is written with an optional plus sign and
at least one ASCII digit; leading zeros do not count, and a number that reaches
the given limit is refused.
-/

namespace ShaderGen.Text

/-- The value of a list of digits, or nothing if another character is among
them. -/
def digitsValue? (cs : List Char) : Option Nat :=
  if cs.all Char.isDigit then some (cs.foldl (fun n c => 10 * n + (c.toNat - '0'.toNat)) 0)
  else none

/-- The list without a leading plus sign. -/
def dropPlus : List Char → List Char
  | '+' :: cs => cs
  | cs => cs

/-- The number a text denotes, if it is one below `limit`. -/
def unsigned? (limit : Nat) (cs : List Char) : Option Nat :=
  match dropPlus cs with
  | [] => none
  | digits => (digitsValue? digits).filter (· < limit)

end ShaderGen.Text
