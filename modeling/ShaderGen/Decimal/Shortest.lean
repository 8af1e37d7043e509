import ShaderGen.Decimal.Binary

/-!
Decimals of binary floats. `Binary.shortest` is the decimal with the fewest
digits that still reads back as the same float, and of several such decimals
the one nearest to it; `Binary.rounded` has a given number of significant
digits, a tie going to the even last digit.
-/

namespace ShaderGen

/-- The number `coefficient * 10 ^ exponent`. -/
structure Decimal where
  coefficient : Nat
  exponent : Int
deriving DecidableEq, Repr

namespace Decimal

namespace Binary

/-- A quarter of the distance to the next larger float, as an exponent of two:
the neighbourhood of a float is measured in this unit. -/
def quarter (b : Binary) : Int := b.exponent - 2

/-- The number in quarter units. -/
def centre (b : Binary) : Nat := 4 * b.mantissa

/-- The lower end, in quarter units, of the numbers that round to this float. -/
def lower (b : Binary) : Nat := b.centre - if b.narrowBelow then 1 else 2

/-- The upper end, in quarter units, of the numbers that round to this float. -/
def upper (b : Binary) : Nat := b.centre + 2

/-- Whether the ends of the interval round to this float too. -/
def closed (b : Binary) : Bool := b.mantissa % 2 = 0

/-- Whether `num / den` quarter units round to this float. -/
def holds (b : Binary) (num den : Nat) : Bool :=
  if b.closed then decide (b.lower * den ≤ num ∧ num ≤ b.upper * den)
  else decide (b.lower * den < num ∧ num < b.upper * den)

end Binary

/-- The exponent of the largest power of ten that is at most a positive
quotient, looked for downwards from `start` in `fuel` steps. -/
def decimalPlaceFrom (num den : Nat) : Nat → Int → Int
  | 0, start => start
  | fuel + 1, start =>
    let (n, d) := scaleDown num den 10 start
    if d ≤ n then start else decimalPlaceFrom num den fuel (start - 1)

/-- The exponent of the largest power of ten that is at most a positive
quotient. Since `30103 / 100000` is just above the logarithm of two, the search
starts at most two places too high. -/
def decimalPlace (num den : Nat) : Int :=
  decimalPlaceFrom num den 8 ((binaryPlace num den + 1) * 30103 / 100000 + 1)

namespace Binary

/-- The decimal of place `place` next to the float that rounds to it, if one of
the two neighbours does. The nearer one is taken, and the upper one of a tie. -/
def onGrid? (b : Binary) (num den : Nat) (place : Int) : Option Nat :=
  let (n, d) := scaleDown num den 10 place
  let below := n / d
  let rest := n % d
  -- One step of the grid, in quarter units, is `d * centre / n`.
  let fits (k : Nat) : Bool := b.holds (k * d * b.centre) n
  match fits below, fits (below + 1) with
  | true, true => some (if 2 * rest < d then below else below + 1)
  | true, false => some below
  | false, true => some (below + 1)
  | false, false => none

/-- All digits of the float. -/
def expansion (b : Binary) : Decimal :=
  match b.exponent with
  | .ofNat k => ⟨b.mantissa * Nat.pow 2 k, 0⟩
  | .negSucc k => ⟨b.mantissa * Nat.pow 5 (k + 1), .negSucc k⟩

/-- The decimal of the first of so many grids, from `place` downwards, that has one
for the float. -/
def shortestFrom (b : Binary) (num den : Nat) : Nat → Int → Decimal
  | 0, _ => b.expansion
  | fuel + 1, place =>
    match b.onGrid? num den place with
    | some k => ⟨k, place⟩
    | none => shortestFrom b num den fuel (place - 1)

/-- The decimal with the fewest digits that reads back as the float. Eighteen
digits always suffice for the formats in use, so the grids are not used up. -/
def shortest (b : Binary) : Decimal :=
  let (num, den) := scaleDown b.mantissa 1 2 (-b.exponent)
  b.shortestFrom num den 20 (decimalPlace num den + 1)

/-- The decimal with the given number of significant digits that is closest to
the float. -/
def rounded (b : Binary) (digits : Nat) : Decimal :=
  let (num, den) := scaleDown b.mantissa 1 2 (-b.exponent)
  let place := decimalPlace num den + 1 - digits
  let (n, d) := scaleDown num den 10 place
  let k := roundHalfEven n d
  if k = Nat.pow 10 digits then ⟨k / 10, place + 1⟩ else ⟨k, place⟩

end Binary

end Decimal

end ShaderGen
