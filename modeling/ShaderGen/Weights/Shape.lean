/-!
Shapes of weight lists over an ordered list of variants.
-/

namespace ShaderGen.Weights

/-- All variants alike. -/
def uniform (n : Nat) : List Float := List.replicate n 1.0

/-- A bell curve: the weight falls with the square of the distance from `mean`. -/
def gaussian (n : Nat) (mean stdDev : Float) : List Float :=
  let denominator := 2.0 * stdDev * stdDev
  (List.range n).map fun i =>
    let d := i.toFloat - mean
    Float.exp (-(d * d) / denominator)

/-- The larger of two floats; one that is not a number does not count. -/
def larger (a b : Float) : Float :=
  if a.isNaN then b else if b.isNaN then a else if a < b then b else a

/-- The logarithms of the beta-binomial probabilities of `k`, `k + 1` and so on
up to `last`, starting at `log`: each follows from the one before by the ratio
of the two. -/
def betaBinomialLogs (last alpha beta : Float) : Nat → Nat → Float → List Float
  | 0, _, log => [log]
  | steps + 1, k, log =>
    let x := k.toFloat
    let ratio := Float.log ((last - x) / (x + 1.0)) +
      Float.log ((x + alpha) / (last - x - 1.0 + beta))
    log :: betaBinomialLogs last alpha beta steps (k + 1) (log + ratio)

/-- The beta-binomial distribution on `n` variants, scaled so that the largest
weight is one. -/
def betaBinomial (n : Nat) (alpha beta : Float) : List Float :=
  match n with
  | 0 => []
  | n + 1 =>
    let logs := betaBinomialLogs n.toFloat alpha beta n 0 0.0
    let largest := logs.foldl larger (-1.0 / 0.0)
    logs.map fun log => Float.exp (log - largest)

end ShaderGen.Weights
