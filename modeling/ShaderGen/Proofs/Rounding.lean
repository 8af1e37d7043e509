import Mathlib.Algebra.Order.Field.Power
import Mathlib.Tactic.FieldSimp
import Mathlib.Tactic.Linarith
import Mathlib.Tactic.Positivity
import Mathlib.Tactic.Ring
import ShaderGen.Decimal.Binary

/-!
What rounding to a float computes. The word of a non-negative float without its
sign is its magnitude, and the floats of a format stand in the order of their
magnitudes. Two neighbours meet in their midpoint, which belongs to the even one;
so a number rounds to one magnitude only, and `nearest` finds it.
-/

namespace ShaderGen.Decimal

/-- The number a positive float is. -/
def Binary.value (b : Binary) : ℚ := b.mantissa * 2 ^ b.exponent

namespace FloatFormat

variable (f : FloatFormat)

/-- How far the last bit of the floats around a magnitude is above the least
one. -/
def tier (magnitude : Nat) : Nat := magnitude / f.fractionCount - 1

/-- The float of a magnitude. -/
def floatAt (magnitude : Nat) : Binary where
  mantissa := magnitude - f.tier magnitude * f.fractionCount
  exponent := f.leastExponent + f.tier magnitude
  narrowBelow := magnitude % f.fractionCount = 0 ∧ 1 < magnitude / f.fractionCount

/-- The number of a magnitude. -/
def valueAt (magnitude : Nat) : ℚ := (f.floatAt magnitude).value

/-- Where the numbers that round to a magnitude meet those of the next one. -/
def midpoint (magnitude : Nat) : ℚ :=
  f.valueAt magnitude + 2 ^ (f.leastExponent + f.tier magnitude) / 2

/-- The number rounds to the magnitude: it is not beyond the midpoints on both
sides, and is one of them only if the magnitude is even. -/
structure RoundsTo (q : ℚ) (magnitude : Nat) : Prop where
  below : q ≤ f.midpoint magnitude
  above : ∀ k, k + 1 = magnitude → f.midpoint k ≤ q
  inside : magnitude % 2 = 1 →
    q < f.midpoint magnitude ∧ ∀ k, k + 1 = magnitude → f.midpoint k < q

/-! ### The floats in their order -/

theorem fractionCount_pos : 0 < f.fractionCount := Nat.two_pow_pos f.fractionBits

/-- A magnitude is a tier and a mantissa, which is full unless the tier is the
lowest one. -/
theorem exists_mantissa (magnitude : Nat) : ∃ k,
    magnitude = f.tier magnitude * f.fractionCount + k ∧ k < 2 * f.fractionCount ∧
      (f.fractionCount ≤ k ∨ f.tier magnitude = 0) := by
  have hpos := f.fractionCount_pos
  have hsplit := Nat.div_add_mod' magnitude f.fractionCount
  have hrest := Nat.mod_lt magnitude hpos
  unfold tier
  cases hbiased : magnitude / f.fractionCount with
  | zero =>
    rw [hbiased] at hsplit
    exact ⟨magnitude, by omega, by omega, .inr rfl⟩
  | succ t =>
    rw [hbiased, Nat.succ_mul] at hsplit
    refine ⟨f.fractionCount + magnitude % f.fractionCount, ?_, by omega, .inl (by omega)⟩
    rw [Nat.add_sub_cancel]
    omega

theorem tier_eq {t k : Nat} (hk : k < 2 * f.fractionCount) (hfull : f.fractionCount ≤ k ∨ t = 0) :
    f.tier (t * f.fractionCount + k) = t := by
  have hpos := f.fractionCount_pos
  unfold tier
  rw [Nat.mul_comm, Nat.mul_add_div hpos]
  rcases hfull with hfull | rfl
  · have : k / f.fractionCount = 1 := Nat.div_eq_of_lt_le (by omega) (by omega)
    omega
  · have : k / f.fractionCount < 2 := (Nat.div_lt_iff_lt_mul hpos).mpr hk
    omega

/-- The number of a tier and a mantissa. The mantissa may also be the first one
of the next tier. -/
theorem valueAt_tier {t k : Nat} (hk : k ≤ 2 * f.fractionCount)
    (hfull : f.fractionCount ≤ k ∨ t = 0) :
    f.valueAt (t * f.fractionCount + k) = k * 2 ^ (f.leastExponent + t) := by
  rcases Nat.lt_or_eq_of_le hk with hlt | rfl
  · simp only [valueAt, floatAt, Binary.value, f.tier_eq hlt hfull, Nat.add_sub_cancel_left]
  · have hnext : t * f.fractionCount + 2 * f.fractionCount =
        (t + 1) * f.fractionCount + f.fractionCount := by ring
    have hpos := f.fractionCount_pos
    have htier := f.tier_eq (t := t + 1) (k := f.fractionCount) (by omega) (.inl le_rfl)
    simp only [valueAt, floatAt, Binary.value, hnext, htier, Nat.add_sub_cancel_left]
    push_cast
    rw [← add_assoc, zpow_add_one₀ two_ne_zero]
    ring

theorem valueAt_zero : f.valueAt 0 = 0 := by
  simpa using f.valueAt_tier (t := 0) (k := 0) (by omega) (.inr rfl)

/-- The next larger float is one last bit away. -/
theorem valueAt_succ (magnitude : Nat) :
    f.valueAt (magnitude + 1) = f.valueAt magnitude + 2 ^ (f.leastExponent + f.tier magnitude) := by
  obtain ⟨k, hmagnitude, hk, hfull⟩ := f.exists_mantissa magnitude
  have here := f.valueAt_tier hk.le hfull
  have next := f.valueAt_tier (t := f.tier magnitude) (k := k + 1) hk (hfull.imp_left (by omega))
  rw [← hmagnitude] at here
  rw [← Nat.add_assoc, ← hmagnitude] at next
  rw [here, next]
  push_cast
  ring

theorem valueAt_lt_midpoint (magnitude : Nat) : f.valueAt magnitude < f.midpoint magnitude := by
  have : (0 : ℚ) < 2 ^ (f.leastExponent + f.tier magnitude) := by positivity
  unfold midpoint
  linarith

theorem midpoint_lt_valueAt_succ (magnitude : Nat) :
    f.midpoint magnitude < f.valueAt (magnitude + 1) := by
  have : (0 : ℚ) < 2 ^ (f.leastExponent + f.tier magnitude) := by positivity
  rw [valueAt_succ, midpoint]
  linarith

theorem valueAt_strictMono : StrictMono f.valueAt :=
  strictMono_nat_of_lt_succ fun k =>
    (f.valueAt_lt_midpoint k).trans (f.midpoint_lt_valueAt_succ k)

theorem midpoint_strictMono : StrictMono f.midpoint :=
  strictMono_nat_of_lt_succ fun k =>
    (f.midpoint_lt_valueAt_succ k).trans (f.valueAt_lt_midpoint (k + 1))

theorem valueAt_nonneg (magnitude : Nat) : 0 ≤ f.valueAt magnitude :=
  f.valueAt_zero ▸ f.valueAt_strictMono.monotone (Nat.zero_le magnitude)

theorem valueAt_pos {magnitude : Nat} (h : 0 < magnitude) : 0 < f.valueAt magnitude :=
  f.valueAt_zero ▸ f.valueAt_strictMono h

/-- A float rounds to itself. -/
theorem roundsTo_valueAt (magnitude : Nat) : f.RoundsTo (f.valueAt magnitude) magnitude where
  below := (f.valueAt_lt_midpoint magnitude).le
  above k hk := hk ▸ (f.midpoint_lt_valueAt_succ k).le
  inside _ := ⟨f.valueAt_lt_midpoint magnitude, fun k hk => hk ▸ f.midpoint_lt_valueAt_succ k⟩

variable {f}

theorem RoundsTo.not_lt {q : ℚ} {i j : Nat} (hi : f.RoundsTo q i) (hj : f.RoundsTo q j) :
    ¬i < j := by
  intro hlt
  obtain ⟨k, rfl⟩ := Nat.exists_eq_add_of_lt hlt
  have hmeet : f.midpoint (i + k) ≤ f.midpoint i := (hj.above _ rfl).trans hi.below
  -- Only neighbours meet, and one of two neighbours is odd.
  obtain rfl : k = 0 := by
    have := f.midpoint_strictMono.le_iff_le.mp hmeet
    omega
  rcases Nat.mod_two_eq_zero_or_one i with heven | hodd
  · exact absurd hi.below (not_le.mpr ((hj.inside (by omega)).2 i rfl))
  · exact absurd (hj.above i rfl) (not_le.mpr (hi.inside hodd).1)

/-- A number rounds to one magnitude only. -/
theorem RoundsTo.unique {q : ℚ} {i j : Nat} (hi : f.RoundsTo q i) (hj : f.RoundsTo q j) : i = j :=
  Nat.le_antisymm (Nat.le_of_not_lt (hj.not_lt hi)) (Nat.le_of_not_lt (hi.not_lt hj))

end FloatFormat

/-! ### Quotients -/

/-- A scaled quotient is the quotient divided by the power. -/
theorem scaleDown_spec (num : Nat) {den base : Nat} (hden : 0 < den) (hbase : 0 < base)
    (power : Int) :
    0 < (scaleDown num den base power).2 ∧
      ((scaleDown num den base power).1 : ℚ) / (scaleDown num den base power).2 =
        num / den / base ^ power := by
  have hbase' : (base : ℚ) ≠ 0 := by positivity
  cases power with
  | ofNat k =>
    refine ⟨Nat.mul_pos hden (Nat.pow_pos hbase), ?_⟩
    simp only [scaleDown, Nat.pow_eq, Nat.cast_mul, Nat.cast_pow, Int.ofNat_eq_natCast,
      zpow_natCast]
    rw [div_div]
  | negSucc k =>
    refine ⟨hden, ?_⟩
    simp only [scaleDown, Nat.pow_eq, Nat.cast_mul, Nat.cast_pow, zpow_negSucc, div_inv_eq_mul]
    ring

theorem scaleDown_pos {num base : Nat} (den : Nat) (hnum : 0 < num) (hbase : 0 < base)
    (power : Int) : 0 < (scaleDown num den base power).1 := by
  cases power with
  | ofNat k => exact hnum
  | negSucc k => exact Nat.mul_pos hnum (Nat.pow_pos hbase)

theorem log2_le {n : Nat} (h : 0 < n) : (2 : ℚ) ^ n.log2 ≤ n := by
  exact_mod_cast Nat.log2_self_le h.ne'

theorem lt_log2 (n : Nat) : (n : ℚ) < 2 ^ (n.log2 + 1) := by
  exact_mod_cast Nat.lt_log2_self

/-- A positive quotient lies between two powers of two. -/
theorem binaryPlace_spec {num den : Nat} (hnum : 0 < num) (hden : 0 < den) :
    (2 : ℚ) ^ binaryPlace num den ≤ num / den ∧
      (num / den : ℚ) < 2 ^ (binaryPlace num den + 1) := by
  have hden' : (0 : ℚ) < den := by exact_mod_cast hden
  obtain ⟨hd, hscaled⟩ := scaleDown_spec num hden two_pos (num.log2 - den.log2)
  have hd' : (0 : ℚ) < (scaleDown num den 2 (num.log2 - den.log2)).2 := by exact_mod_cast hd
  have hpow : (0 : ℚ) < 2 ^ ((num.log2 : Int) - den.log2) := by positivity
  push_cast at hscaled
  simp only [binaryPlace]
  split
  · rename_i hlt
    have hbelow : (num : ℚ) / den / 2 ^ ((num.log2 : Int) - den.log2) < 1 := by
      rw [← hscaled, div_lt_one hd']
      exact_mod_cast hlt
    refine ⟨?_, by simpa using (div_lt_one hpow).mp hbelow⟩
    rw [le_div_iff₀ hden']
    calc (2 : ℚ) ^ ((num.log2 : Int) - den.log2 - 1) * den
        ≤ 2 ^ ((num.log2 : Int) - den.log2 - 1) * 2 ^ (den.log2 + 1) := by
          gcongr
          exact (lt_log2 den).le
      _ = 2 ^ num.log2 := by
          rw [← zpow_natCast, ← zpow_natCast, ← zpow_add₀ two_ne_zero]
          congr 1
          push_cast
          ring
      _ ≤ num := log2_le hnum
  · rename_i hge
    have habove : 1 ≤ (num : ℚ) / den / 2 ^ ((num.log2 : Int) - den.log2) := by
      rw [← hscaled, le_div_iff₀ hd', one_mul]
      exact_mod_cast Nat.le_of_not_lt hge
    refine ⟨(one_le_div hpow).mp habove, ?_⟩
    rw [div_lt_iff₀ hden']
    calc (num : ℚ) < 2 ^ (num.log2 + 1) := lt_log2 num
      _ = 2 ^ ((num.log2 : Int) - den.log2 + 1) * 2 ^ den.log2 := by
          rw [← zpow_natCast, ← zpow_natCast, ← zpow_add₀ two_ne_zero]
          congr 1
          push_cast
          ring
      _ ≤ _ := by
          gcongr
          exact log2_le hden

/-- A rounded quotient is at most a half away, and if it is just that, even. -/
theorem roundHalfEven_spec (num : Nat) {den : Nat} (hden : 0 < den) :
    (2 * num ≤ (2 * roundHalfEven num den + 1) * den ∧
      2 * roundHalfEven num den * den ≤ 2 * num + den) ∧
    (roundHalfEven num den % 2 = 1 → 2 * num < (2 * roundHalfEven num den + 1) * den ∧
      2 * roundHalfEven num den * den < 2 * num + den) := by
  have hsplit := Nat.div_add_mod' num den
  have hrest := Nat.mod_lt num hden
  have hup : (2 * (num / den + 1) + 1) * den = 2 * (num / den * den) + 3 * den := by ring
  have hup' : 2 * (num / den + 1) * den = 2 * (num / den * den) + 2 * den := by ring
  have hdown : (2 * (num / den) + 1) * den = 2 * (num / den * den) + den := by ring
  have hdown' : 2 * (num / den) * den = 2 * (num / den * den) := by ring
  simp only [roundHalfEven]
  split
  · rw [hup, hup']
    omega
  · rw [hdown, hdown']
    omega

theorem le_roundHalfEven {num den m : Nat} (hden : 0 < den) (h : m * den ≤ num) :
    m ≤ roundHalfEven num den := by
  have hle := (roundHalfEven_spec num hden).1.1
  by_contra hlt
  have : (2 * roundHalfEven num den + 1 + 1) * den ≤ 2 * m * den :=
    Nat.mul_le_mul_right _ (by omega)
  rw [Nat.add_mul _ 1, Nat.mul_assoc 2 m] at this
  omega

theorem roundHalfEven_le {num den m : Nat} (hden : 0 < den) (h : num ≤ m * den) :
    roundHalfEven num den ≤ m := by
  have hge := (roundHalfEven_spec num hden).1.2
  by_contra hlt
  have : (2 * m + 1 + 1) * den ≤ 2 * roundHalfEven num den * den :=
    Nat.mul_le_mul_right _ (by omega)
  rw [Nat.add_mul _ 1, Nat.add_mul _ 1, Nat.mul_assoc 2 m] at this
  omega

/-! ### The nearest float -/

namespace FloatFormat

variable {f : FloatFormat}

theorem even_fractionCount (hf : 0 < f.fractionBits) : f.fractionCount % 2 = 0 := by
  obtain ⟨bits, hbits⟩ := Nat.exists_eq_succ_of_ne_zero hf.ne'
  rw [fractionCount, hbits, Nat.pow_eq, Nat.pow_succ]
  exact Nat.mul_mod_left _ _

theorem cast_fractionCount (f : FloatFormat) :
    (f.fractionCount : ℚ) = 2 ^ (f.fractionBits : Int) := by
  simp [fractionCount]

section Tier

variable {t k : Nat} (hk : k ≤ 2 * f.fractionCount) (hfull : f.fractionCount ≤ k ∨ t = 0)
include hk hfull

/-- Above a mantissa the last bit has the weight of the tier, or the double if the
tier ends there. -/
theorem le_midpoint_tier :
    (k + 1 / 2) * 2 ^ (f.leastExponent + t) ≤ f.midpoint (t * f.fractionCount + k) := by
  have htier : t ≤ f.tier (t * f.fractionCount + k) := by
    rcases Nat.lt_or_eq_of_le hk with hlt | rfl
    · rw [f.tier_eq hlt hfull]
    · have hpos := f.fractionCount_pos
      rw [show t * f.fractionCount + 2 * f.fractionCount =
        (t + 1) * f.fractionCount + f.fractionCount by ring, f.tier_eq (by omega) (.inl le_rfl)]
      omega
  have hweight : (2 : ℚ) ^ (f.leastExponent + t) ≤
      2 ^ (f.leastExponent + f.tier (t * f.fractionCount + k)) :=
    zpow_le_zpow_right₀ one_le_two (by omega)
  rw [midpoint, f.valueAt_tier hk hfull]
  linarith

/-- Below a mantissa the last bit has the weight of the tier, unless the tier
begins there. -/
theorem midpoint_pred_tier {j : Nat} (hj : j + 1 = t * f.fractionCount + k)
    (hinner : f.fractionCount < k ∨ t = 0) :
    f.midpoint j = (k - 1 / 2) * 2 ^ (f.leastExponent + t) := by
  have htier : f.tier j = t := by
    obtain ⟨i, rfl⟩ : ∃ i, k = i + 1 := Nat.exists_eq_succ_of_ne_zero (by
      rintro rfl
      rcases hinner with h | rfl <;> omega)
    obtain rfl : j = t * f.fractionCount + i := by omega
    exact f.tier_eq (by omega) (hinner.imp_left (by omega))
  have hnext := f.valueAt_succ j
  rw [hj, f.valueAt_tier hk hfull, htier] at hnext
  rw [midpoint, htier]
  linarith

/-- A number at most half a last bit away from a mantissa of a tier rounds to it,
if it is not below the tier. -/
theorem roundsTo_tier (hf : 0 < f.fractionBits) {q : ℚ}
    (htier : f.fractionCount * (2 : ℚ) ^ (f.leastExponent + t) ≤ q ∨ t = 0)
    (hle : q ≤ (k + 1 / 2) * 2 ^ (f.leastExponent + t))
    (hge : (k - 1 / 2) * 2 ^ (f.leastExponent + t) ≤ q)
    (hodd : k % 2 = 1 → q < (k + 1 / 2) * 2 ^ (f.leastExponent + t) ∧
      (k - 1 / 2) * 2 ^ (f.leastExponent + t) < q) :
    f.RoundsTo q (t * f.fractionCount + k) := by
  have habove := le_midpoint_tier hk hfull
  have hparity : (t * f.fractionCount + k) % 2 = k % 2 := by
    rw [Nat.add_mod, Nat.mul_mod, even_fractionCount hf]
    simp
  -- The first mantissa of a tier is even, and no number of the tier is below it.
  have hfirst : ∀ j, j + 1 = t * f.fractionCount + k → ¬(f.fractionCount < k ∨ t = 0) →
      k % 2 = 0 ∧ f.midpoint j ≤ q := by
    intro j hj houter
    obtain rfl : k = f.fractionCount := by omega
    have hlt := f.midpoint_lt_valueAt_succ j
    rw [hj, f.valueAt_tier hk hfull] at hlt
    exact ⟨even_fractionCount hf, hlt.le.trans (htier.resolve_right (by omega))⟩
  refine ⟨hle.trans habove, fun j hj => ?_, fun h => ?_⟩
  · by_cases hinner : f.fractionCount < k ∨ t = 0
    · rwa [midpoint_pred_tier hk hfull hj hinner]
    · exact (hfirst j hj hinner).2
  · obtain ⟨hlt, hgt⟩ := hodd (hparity ▸ h)
    refine ⟨hlt.trans_le habove, fun j hj => ?_⟩
    by_cases hinner : f.fractionCount < k ∨ t = 0
    · rwa [midpoint_pred_tier hk hfull hj hinner]
    · have := (hfirst j hj hinner).1
      omega

end Tier

/-- The nearest float of a positive quotient is the one it rounds to, or
infinity. -/
theorem nearest_spec (hf : 0 < f.fractionBits) {num den : Nat} (hnum : 0 < num) (hden : 0 < den) :
    ∃ magnitude, f.RoundsTo (num / den) magnitude ∧
      f.nearest num den = min magnitude f.infinityWord := by
  obtain ⟨hlow, hhigh⟩ := binaryPlace_spec hnum hden
  simp only [nearest, if_neg hnum.ne']
  generalize hexponent : max (binaryPlace num den - f.fractionBits) f.leastExponent = exponent
  obtain ⟨t, ht⟩ : ∃ t : Nat, exponent = f.leastExponent + t :=
    ⟨(exponent - f.leastExponent).toNat, by omega⟩
  obtain ⟨hd, hscaled⟩ := scaleDown_spec num hden two_pos exponent
  generalize scaleDown num den 2 exponent = scaled at hd hscaled ⊢
  obtain ⟨n, d⟩ := scaled
  have hd' : (0 : ℚ) < d := by exact_mod_cast hd
  have hunit : (0 : ℚ) < 2 ^ (f.leastExponent + t) := by positivity
  push_cast at hscaled
  -- In units of the tier the quotient is `n / d`, and `m` units are `m * d ≤ n`.
  have hle : ∀ x : ℚ, num / den ≤ x * 2 ^ (f.leastExponent + t) ↔ (n : ℚ) ≤ x * d := by
    intro x
    rw [← div_le_iff₀ hunit, ← ht, ← hscaled, div_le_iff₀ hd']
  have hge : ∀ x : ℚ, x * 2 ^ (f.leastExponent + t) ≤ num / den ↔ x * d ≤ (n : ℚ) := by
    intro x
    rw [← le_div_iff₀ hunit, ← ht, ← hscaled, le_div_iff₀ hd']
  have htier : f.fractionCount * d ≤ n ∨ t = 0 := by
    refine or_iff_not_imp_right.mpr fun hpos => ?_
    have : (f.fractionCount : ℚ) * d ≤ n := by
      rw [← hge, f.cast_fractionCount, ← zpow_add₀ two_ne_zero,
        show f.fractionBits + (f.leastExponent + t) = binaryPlace num den by omega]
      exact hlow
    exact_mod_cast this
  have htop : n ≤ 2 * f.fractionCount * d := by
    have : (n : ℚ) ≤ 2 * f.fractionCount * d := by
      rw [← hle, f.cast_fractionCount, mul_assoc, ← zpow_add₀ two_ne_zero,
        ← zpow_one_add₀ two_ne_zero]
      exact hhigh.le.trans (zpow_le_zpow_right₀ one_le_two (by omega))
    exact_mod_cast this
  obtain ⟨⟨hnear, hnear'⟩, hodd⟩ := roundHalfEven_spec n hd
  refine ⟨t * f.fractionCount + roundHalfEven n d, roundsTo_tier (roundHalfEven_le hd htop)
    (htier.imp_left (le_roundHalfEven hd)) hf (htier.imp_left fun h => ?_) ?_ ?_ fun h => ?_, ?_⟩
  · rw [hge]
    exact_mod_cast h
  · have : (2 * n : ℚ) ≤ (2 * roundHalfEven n d + 1) * d := by exact_mod_cast hnear
    rw [hle]
    linarith
  · have : (2 * roundHalfEven n d * d : ℚ) ≤ 2 * n + d := by exact_mod_cast hnear'
    rw [hge]
    linarith
  · have habove : (2 * n : ℚ) < (2 * roundHalfEven n d + 1) * d := by exact_mod_cast (hodd h).1
    have hbelow : (2 * roundHalfEven n d * d : ℚ) < 2 * n + d := by exact_mod_cast (hodd h).2
    rw [lt_iff_lt_of_le_iff_le (hge _), lt_iff_lt_of_le_iff_le (hle _)]
    constructor <;> linarith
  · rw [ht, show (f.leastExponent + (t : Int) - f.leastExponent).toNat = t by omega]

/-- The float a number is, or rounds to, is the nearest one. -/
theorem RoundsTo.nearest {magnitude num den : Nat} (h : f.RoundsTo (num / den) magnitude)
    (hf : 0 < f.fractionBits) (hnum : 0 < num) (hden : 0 < den)
    (hfinite : magnitude < f.infinityWord) : f.nearest num den = magnitude := by
  obtain ⟨found, hfound, hnearest⟩ := nearest_spec hf hnum hden
  rw [hnearest, hfound.unique h, min_eq_left hfinite.le]

end FloatFormat

end ShaderGen.Decimal
