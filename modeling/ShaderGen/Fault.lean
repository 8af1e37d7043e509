/-!
Broken preconditions. A `Fault` says that an operation was called outside its
domain: with an id nothing was stored under, with numbers that do not fit their
words, or with a distribution that does not exist. Operations that can be called
so answer in `Except Fault`.
-/

namespace ShaderGen

/-- The way in which a precondition was broken. -/
inductive Fault where
  /-- An id that names no slot of the table, arena, import list or scope tree. -/
  | unknownId
  /-- An id of a constant or a variable where a type was due. -/
  | notAType
  /-- A sum, difference or product outside the range of its word. -/
  | overflow
  | divisionByZero
  /-- A probability that is not a number. -/
  | badProbability
  /-- An empty range, or one whose ends are not finite. -/
  | badRange
  /-- A list of weights that does not have one entry per member. -/
  | lengthMismatch
  /-- A reservation larger than the address space. -/
  | tooLarge
  /-- A type that mentions itself. -/
  | cyclic
  /-- More steps than the bound computed for a loop. -/
  | outOfSteps
deriving DecidableEq, Repr

namespace Fault

/-- The number itself, if it fits a word of the given number of bits. -/
def checkWord (bits n : Nat) : Except Fault Nat :=
  if n < Nat.pow 2 bits then .ok n else .error .overflow

end Fault

end ShaderGen
