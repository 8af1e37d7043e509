import ShaderGen.Decimal.Shortest

/-!
Texts of floats. `display` is positional at every magnitude: the fewest digits
that read back, no exponent and no needless `.0`. `scientific` shows a fixed
number of significant digits and an exponent.
-/

namespace ShaderGen.Decimal

/-- The digits of a decimal without an exponent. -/
def positional (d : Decimal) : String :=
  let digits := toString d.coefficient
  match d.exponent with
  | .ofNat zeros => digits ++ "".pushn '0' zeros
  | .negSucc k =>
    let places := k + 1
    let cs := digits.toList
    if places < cs.length then
      String.ofList (cs.take (cs.length - places)) ++ "." ++
        String.ofList (cs.drop (cs.length - places))
    else
      "0." ++ "".pushn '0' (places - cs.length) ++ digits

/-- The digits of a decimal with the point after the first one, and the
exponent. -/
def scientific (d : Decimal) : String :=
  let digits := toString d.coefficient
  let exponent : Int := d.exponent + (digits.length - 1 : Nat)
  let fraction := String.ofList (digits.toList.drop 1)
  String.ofList (digits.toList.take 1) ++ (if fraction.isEmpty then "" else "." ++ fraction) ++
    "e" ++ toString exponent

/-- A minus sign where one is due. -/
def signText (negative : Bool) : String := if negative then "-" else ""

/-- The shortest positional text of a float. A NaN has no sign. -/
def FloatReading.display : FloatReading → String
  | .nan => "NaN"
  | .infinite negative => signText negative ++ "inf"
  | .zero negative => signText negative ++ "0"
  | .finite negative b => signText negative ++ b.shortest.positional

/-- The text of a float with the given number of digits, one before the point. -/
def FloatReading.scientific (digits : Nat) : FloatReading → String
  | .nan => "NaN"
  | .infinite negative => signText negative ++ "inf"
  | .zero negative =>
    let fraction := if digits ≤ 1 then "" else "." ++ "".pushn '0' (digits - 1)
    signText negative ++ "0" ++ fraction ++ "e0"
  | .finite negative b => signText negative ++ (b.rounded digits).scientific

/-- The shortest positional text of a double word. -/
def displayDouble (word : UInt64) : String := (FloatFormat.double.decode word.toNat).display

/-- The shortest positional text of a double word after rounding it to single
precision. -/
def displaySingle (word : UInt64) : String :=
  let single := FloatFormat.single.ofReading (FloatFormat.double.decode word.toNat)
  (FloatFormat.single.decode single).display

/-- The shortest positional text of a float. -/
def displayFloat (x : Float) : String := displayDouble x.toBits

/-- The text of a float with nine significant digits. -/
def scientificFloat (x : Float) : String :=
  (FloatFormat.double.decode x.toBits.toNat).scientific 9

end ShaderGen.Decimal
