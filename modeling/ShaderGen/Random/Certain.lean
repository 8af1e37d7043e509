import ShaderGen.Random.Draw

/-!
Sources that are sure of what is certain: a yes that is drawn with probability one is
drawn. The key stream is one of them, and every source can be made one.
-/

namespace ShaderGen

open RandomSource

/-- A source that says yes wherever yes is certain. -/
class CertainRandomSource (ρ : Type) [RandomSource ρ] : Prop where
  chance_one (source : ρ) : (chance 1.0 source).1 = true

instance : CertainRandomSource KeyStream where
  chance_one _ := rfl

/-- A source that is only asked for what is not certain. -/
structure Certain (ρ : Type) where
  source : ρ

namespace Certain

variable {ρ α : Type}

/-- A draw from the source below. -/
def draw (f : ρ → α × ρ) (s : Certain ρ) : α × Certain ρ := ((f s.source).1, ⟨(f s.source).2⟩)

instance [RandomSource ρ] : RandomSource (Certain ρ) where
  chance p s := if p == 1.0 then (true, s) else draw (chance p) s
  below words n := draw (below words n)
  single lo hi := draw (single lo hi)
  double lo hi := draw (double lo hi)
  closed lo hi := draw (closed lo hi)
  weighted weights := draw (weighted weights)

instance [RandomSource ρ] : CertainRandomSource (Certain ρ) where
  chance_one _ := rfl

instance [RandomSource ρ] [BoundedRandomSource ρ] : BoundedRandomSource (Certain ρ) where
  below_lt words n s := BoundedRandomSource.below_lt words n s.source

instance [RandomSource ρ] [LawfulRandomSource ρ] : LawfulRandomSource (Certain ρ) where
  weighted_ne_zero weights s := LawfulRandomSource.weighted_ne_zero weights s.source

end Certain

end ShaderGen
