import ShaderGen.Random.KeyStream
import ShaderGen.Random.Source

/-!
Draws from a key stream. A number below `n` is the high half of a product, drawn
again while the low half shows that the product would favour some numbers. A
float is a fraction of 52 bits (23 in single precision), stretched over its
range. A weighted choice counts the partial sums a stretched fraction reaches.
-/

namespace ShaderGen.KeyStream

open RandomSource (largestFraction)

/-- How often a draw may be repeated before its last value is taken. Each
repetition has a chance below one half. -/
def patience : Nat := 256

/-- The largest low half of a product that is accepted: the last one before the
multiples of `n` run out. -/
def acceptedBelow (words n : Nat) : Nat := n * Nat.pow 2 (32 * words - 1 - n.log2) - 1

/-- Draws until the low half of the product is accepted. -/
def belowLoop (words n : Nat) : Nat → KeyStream → Nat × KeyStream
  | 0, s => (0, s)
  | fuel + 1, s =>
    let (word, s) := s.nextWords words
    let product := word * n
    if product % wordCount words ≤ acceptedBelow words n then (product / wordCount words, s)
    else belowLoop words n fuel s

/-- A number below `n`. A range that covers the whole word is the word itself. -/
def below (words n : Nat) (s : KeyStream) : Nat × KeyStream :=
  if n = wordCount words then s.nextWords words else belowLoop words n patience s

/-- A fraction of 52 bits, from zero up to but not reaching one. -/
def fraction (s : KeyStream) : Float × KeyStream :=
  let (word, s) := s.next64
  (Float.ofBits ((0x3FF0000000000000 : UInt64) ||| (word >>> 12)) - 1.0, s)

/-- A fraction of 23 bits, from zero up to but not reaching one. -/
def singleFraction (s : KeyStream) : Float32 × KeyStream :=
  let (word, s) := s.next
  (Float32.ofBits ((0x3F800000 : UInt32) ||| (word >>> 9)) - 1.0, s)

/-- The next float towards zero. -/
def nextDown (x : Float) : Float := Float.ofBits (x.toBits - 1)

/-- The first of the floats from `scale` downwards that passes a test. -/
def shrink (passes : Float → Bool) : Nat → Float → Float
  | 0, scale => scale
  | fuel + 1, scale => if passes scale then scale else shrink passes fuel (nextDown scale)

/-- Yes with probability `p`. Certainty draws nothing. -/
def chance (p : Float) (s : KeyStream) : Bool × KeyStream :=
  if p == 1.0 then (true, s)
  else
    let (word, s) := s.next64
    (word < (p * 18446744073709551616.0).toUInt64, s)

/-- A single-precision number in a half-open range. -/
def singleLoop (lo hi : Float32) : Nat → KeyStream → Float32 × KeyStream
  | 0, s => (lo, s)
  | fuel + 1, s =>
    let (u, s) := s.singleFraction
    let x := u * (hi - lo) + lo
    if x < hi then (x, s) else singleLoop lo hi fuel s

/-- A number in a half-open range. -/
def doubleLoop (lo hi : Float) : Nat → KeyStream → Float × KeyStream
  | 0, s => (lo, s)
  | fuel + 1, s =>
    let (u, s) := s.fraction
    let x := u * (hi - lo) + lo
    if x < hi then (x, s) else doubleLoop lo hi fuel s

/-- The factor that stretches fractions over a closed range: as large as it can
be without the largest fraction leaving the range. -/
def closedScale (lo hi : Float) : Float :=
  shrink (fun scale => !(hi < scale * largestFraction + lo)) patience
    ((hi - lo) / largestFraction)

/-- A number in a closed range. -/
def closed (lo hi : Float) (s : KeyStream) : Float × KeyStream :=
  let (u, s) := s.fraction
  (u * closedScale lo hi + lo, s)

/-- The partial sums of weights that follow others, without the sum of them all. -/
def partialSumsFrom (sum : Float) : List Float → List Float
  | [] => []
  | w :: ws => sum :: partialSumsFrom (sum + w) ws

/-- The partial sums of weights, without the sum of them all. -/
def partialSums : List Float → List Float
  | [] => []
  | w :: ws => partialSumsFrom w ws

/-- A position of a list of weights. -/
def weighted (weights : List Float) (s : KeyStream) : Nat × KeyStream :=
  let total := RandomSource.total weights
  let scale := shrink (fun scale => !(total ≤ scale * largestFraction)) patience total
  let (u, s) := s.fraction
  let reached := u * scale
  ((partialSums weights).countP (fun sum => sum ≤ reached), s)

instance : RandomSource KeyStream where
  chance := chance
  below := below
  single lo hi := singleLoop lo hi patience
  double lo hi := doubleLoop lo hi patience
  closed := closed
  weighted := weighted

/-- A draw below a positive number stays below it. -/
theorem below_lt {words n : Nat} (s : KeyStream) (hn : 0 < n) : (below words n s).1 < n := by
  unfold below
  split
  · rename_i h
    rw [h]
    exact nextWords_lt words s
  · suffices ∀ fuel s, (belowLoop words n fuel s).1 < n from this patience s
    intro fuel
    induction fuel with
    | zero => exact fun _ => hn
    | succ fuel ih =>
      intro s
      simp only [belowLoop]
      split
      · rw [Nat.div_lt_iff_lt_mul (wordCount_pos words), Nat.mul_comm n]
        exact Nat.mul_lt_mul_of_pos_right (nextWords_lt words s) hn
      · exact ih _

instance : BoundedRandomSource KeyStream where
  below_lt _ _ s hn := below_lt s hn

end ShaderGen.KeyStream
