/-!
Binary floating-point words. A `FloatFormat` says how many bits hold the
exponent and the fraction; `decode` reads a word as an exact number and
`nearest` is the word of the number closest to a given quotient, a tie going to
the even word.
-/

namespace ShaderGen.Decimal

/-- A positive number `mantissa * 2 ^ exponent` that a float can hold. -/
structure Binary where
  mantissa : Nat
  exponent : Int
  /-- The next smaller float is half as far away as the next larger one. -/
  narrowBelow : Bool
deriving DecidableEq, Repr

/-- What a floating-point word stands for. -/
inductive FloatReading where
  | nan
  | infinite (negative : Bool)
  | zero (negative : Bool)
  | finite (negative : Bool) (value : Binary)
deriving DecidableEq, Repr

/-- A number of quarters. -/
def FloatReading.ofQuarters (k : Int) : FloatReading :=
  if k = 0 then .zero false else .finite (k < 0) ⟨k.natAbs, -2, false⟩

/-- The division of a floating-point word into sign, exponent and fraction. -/
structure FloatFormat where
  exponentBits : Nat
  fractionBits : Nat
deriving DecidableEq, Repr

namespace FloatFormat

/-- Words of 64 bits. -/
def double : FloatFormat := ⟨11, 52⟩

/-- Words of 32 bits. -/
def single : FloatFormat := ⟨8, 23⟩

/-- The number of different fractions. -/
def fractionCount (f : FloatFormat) : Nat := Nat.pow 2 f.fractionBits

/-- The exponent of the last fraction bit of the smallest floats. -/
def leastExponent (f : FloatFormat) : Int :=
  2 - (Nat.pow 2 (f.exponentBits - 1) : Nat) - (f.fractionBits : Int)

/-- The word of positive infinity, just above the largest finite float. -/
def infinityWord (f : FloatFormat) : Nat := (Nat.pow 2 f.exponentBits - 1) * f.fractionCount

/-- The word with only the sign bit set. -/
def signWord (f : FloatFormat) : Nat := Nat.pow 2 f.exponentBits * f.fractionCount

/-- The number a word stands for. -/
def decode (f : FloatFormat) (word : Nat) : FloatReading :=
  let negative := decide (f.signWord ≤ word)
  let magnitude := word % f.signWord
  let fraction := magnitude % f.fractionCount
  let biased := magnitude / f.fractionCount
  if f.infinityWord ≤ magnitude then
    if fraction = 0 then .infinite negative else .nan
  else if magnitude = 0 then
    .zero negative
  else if biased = 0 then
    .finite negative ⟨fraction, f.leastExponent, false⟩
  else
    .finite negative
      ⟨f.fractionCount + fraction, f.leastExponent + (biased - 1 : Nat), fraction = 0 ∧ 1 < biased⟩

end FloatFormat

/-- The quotient rounded to an integer, a tie going to the even one. -/
def roundHalfEven (num den : Nat) : Nat :=
  let quotient := num / den
  let rest := num % den
  if den < 2 * rest ∨ (den = 2 * rest ∧ quotient % 2 = 1) then quotient + 1 else quotient

/-- The quotient `num / (den * base ^ power)` as a numerator and a denominator. -/
def scaleDown (num den base : Nat) (power : Int) : Nat × Nat :=
  match power with
  | .ofNat k => (num, den * Nat.pow base k)
  | .negSucc k => (num * Nat.pow base (k + 1), den)

/-- The exponent of the largest power of two that is at most a positive
quotient. -/
def binaryPlace (num den : Nat) : Int :=
  let guess : Int := (num.log2 : Int) - (den.log2 : Int)
  let (n, d) := scaleDown num den 2 guess
  if n < d then guess - 1 else guess

namespace FloatFormat

/-- The word of the non-negative float closest to `num / den`, a tie going to
the even word and too large a number to infinity. -/
def nearest (f : FloatFormat) (num den : Nat) : Nat :=
  if num = 0 then 0 else
  let exponent := max (binaryPlace num den - f.fractionBits) f.leastExponent
  let (n, d) := scaleDown num den 2 exponent
  min ((exponent - f.leastExponent).toNat * f.fractionCount + roundHalfEven n d) f.infinityWord

/-- The word of a number in this format, rounded where it does not fit. -/
def ofReading (f : FloatFormat) : FloatReading → Nat
  | .nan => f.infinityWord + f.fractionCount / 2
  | .infinite negative => (if negative then f.signWord else 0) + f.infinityWord
  | .zero negative => if negative then f.signWord else 0
  | .finite negative b =>
    let (n, d) := scaleDown b.mantissa 1 2 (-b.exponent)
    (if negative then f.signWord else 0) + f.nearest n d

end FloatFormat

end ShaderGen.Decimal
