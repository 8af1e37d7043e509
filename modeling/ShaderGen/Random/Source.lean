/-!
Sources of random draws. Generation asks a source for a few kinds of draw and
for nothing else, so whatever holds for every source holds for every run. A
lawful source keeps each draw in its range and never picks a weight of zero.
-/

namespace ShaderGen

/-- Something to draw from. Each draw answers a value and the source after it. -/
class RandomSource (ρ : Type) where
  /-- A yes or no, yes with the given probability. -/
  chance : Float → ρ → Bool × ρ
  /-- A number below `n`, made of so many words of 32 bits. -/
  below (words n : Nat) : ρ → Nat × ρ
  /-- A single-precision number at least `lo` and below `hi`. -/
  single (lo hi : Float32) : ρ → Float32 × ρ
  /-- A number at least `lo` and below `hi`. -/
  double (lo hi : Float) : ρ → Float × ρ
  /-- A number at least `lo` and at most `hi`. -/
  closed (lo hi : Float) : ρ → Float × ρ
  /-- A position of a list of weights, each as likely as its weight. -/
  weighted (weights : List Float) : ρ → Nat × ρ

namespace RandomSource

/-- The sum of weights, from left to right. -/
def total (weights : List Float) : Float := weights.foldl (· + ·) 0.0

/-- Whether a position can be drawn at all: no weight is negative or not a
number, and not all of them are zero. -/
def choosable (weights : List Float) : Bool :=
  weights.all (fun w => 0.0 ≤ w) && total weights != 0.0

/-- The largest fraction of 52 bits below one. -/
def largestFraction : Float := Float.ofBits 0x3FEFFFFFFFFFFFFE

/-- Whether numbers can be drawn from a closed range: its ends and its stretch
are finite, and it is not empty. -/
def isDrawable (lo hi : Float) : Bool :=
  lo.isFinite && hi.isFinite && lo ≤ hi && ((hi - lo) / largestFraction).isFinite

variable {ρ : Type} [RandomSource ρ]

/-- A number from `lo` to `hi`, both included, made of so many words of 32 bits. -/
def between (words : Nat) (lo hi : Int) (source : ρ) : Int × ρ :=
  let (k, source) := below words (hi - lo + 1).toNat source
  (lo + k, source)

/-- A member of a list. Nothing is drawn from an empty list. -/
def pick {α : Type} (items : List α) (source : ρ) : Option α × ρ :=
  match items with
  | [] => (none, source)
  | _ :: _ =>
    let (k, source) := below 1 items.length source
    (items[k]?, source)

/-- Exchanges the member at each place, from `last` down to the second, with one
that is not behind it. -/
def shuffleFrom {α : Type} : Nat → Array α → ρ → Array α × ρ
  | 0, items, source => (items, source)
  | last + 1, items, source =>
    let (k, source) := below 1 (last + 2) source
    shuffleFrom last (items.swapIfInBounds (last + 1) k) source

/-- The list in random order. -/
def shuffle {α : Type} (items : List α) (source : ρ) : List α × ρ :=
  let (shuffled, source) := shuffleFrom (items.length - 1) items.toArray source
  (shuffled.toList, source)

end RandomSource

open RandomSource in
/-- A source that keeps a number below the bound it is drawn with. -/
class BoundedRandomSource (ρ : Type) [RandomSource ρ] : Prop where
  below_lt (words n : Nat) (source : ρ) : 0 < n → (below words n source).1 < n

open RandomSource in
/-- What draws are promised to satisfy. -/
class LawfulRandomSource (ρ : Type) [RandomSource ρ] : Prop extends BoundedRandomSource ρ where
  weighted_ne_zero (weights : List Float) (source : ρ) : choosable weights = true →
    ∃ w, weights[(weighted weights source).1]? = some w ∧ w ≠ 0.0

end ShaderGen
