import Mathlib.Tactic.LinearCombination
import ShaderGen.Decimal.Shortest
import ShaderGen.Proofs.FloatWords

/-!
The shortest decimal of a float rounds to the float. Each grid of decimals is
asked for one in the interval of the float, measured in quarters of the last bit;
the interval ends in the midpoints with the neighbours. If no grid has one, all
digits of the float are taken, and a float rounds to itself. Two floats of a
format therefore have decimals of different values.
-/

namespace ShaderGen

/-- The number a decimal is. -/
def Decimal.value (d : Decimal) : ℚ := d.coefficient * 10 ^ d.exponent

namespace Decimal

variable {f : FloatFormat}

/-! ### The interval of a float -/

/-- The parity of a magnitude is that of its mantissa. -/
theorem mantissa_mod_two (hf : 0 < f.fractionBits) (magnitude : Nat) :
    (f.floatAt magnitude).mantissa % 2 = magnitude % 2 := by
  obtain ⟨k, hmagnitude, -, -⟩ := f.exists_mantissa magnitude
  have hk : (f.floatAt magnitude).mantissa = k := by
    simp only [FloatFormat.floatAt]
    omega
  have hsum : magnitude % 2 = k % 2 := by
    conv_lhs => rw [hmagnitude]
    rw [Nat.add_mod, Nat.mul_mod, FloatFormat.even_fractionCount hf]
    simp
  rw [hk, hsum]

/-- The upper end of the interval is the midpoint with the next float. -/
theorem upper_eq (f : FloatFormat) (magnitude : Nat) :
    (f.floatAt magnitude).upper * (2 : ℚ) ^ (f.floatAt magnitude).quarter =
      f.midpoint magnitude := by
  simp only [Binary.upper, Binary.centre, Binary.quarter, FloatFormat.midpoint,
    FloatFormat.valueAt, Binary.value, FloatFormat.floatAt]
  rw [zpow_sub₀ two_ne_zero]
  push_cast
  ring

/-- The tier rises where a float is narrow below. -/
theorem tier_succ (f : FloatFormat) (before : Nat) : f.tier (before + 1) =
    f.tier before + if (f.floatAt (before + 1)).narrowBelow then 1 else 0 := by
  have hpos := f.fractionCount_pos
  simp only [FloatFormat.tier, FloatFormat.floatAt, decide_eq_true_eq, Nat.succ_div,
    ← Nat.dvd_iff_mod_eq_zero]
  split_ifs <;> omega

/-- The lower end of the interval is the midpoint with the float before it. -/
theorem lower_eq (f : FloatFormat) (before : Nat) :
    (f.floatAt (before + 1)).lower * (2 : ℚ) ^ (f.floatAt (before + 1)).quarter =
      f.midpoint before := by
  have hpos := (f.mantissa_floatAt (Nat.succ_pos before)).1
  have hnext := f.valueAt_succ before
  have hexponent : (f.floatAt (before + 1)).exponent =
      f.leastExponent + f.tier before + if (f.floatAt (before + 1)).narrowBelow then 1 else 0 := by
    rw [show (f.floatAt (before + 1)).exponent = f.leastExponent + f.tier (before + 1) from rfl,
      tier_succ]
    split <;> push_cast <;> ring
  rw [FloatFormat.valueAt, Binary.value] at hnext
  rw [FloatFormat.midpoint]
  generalize f.floatAt (before + 1) = b at hpos hnext hexponent ⊢
  obtain ⟨mantissa, exponent, narrow⟩ := b
  simp only [Binary.lower, Binary.centre, Binary.quarter] at hpos hnext hexponent ⊢
  cases narrow with
  | false =>
    simp only [Bool.false_eq_true, if_false, add_zero] at hexponent ⊢
    rw [hexponent] at hnext ⊢
    rw [Nat.cast_sub (by omega), zpow_sub₀ two_ne_zero]
    push_cast
    linarith
  | true =>
    simp only [if_true] at hexponent ⊢
    rw [hexponent, zpow_add_one₀ two_ne_zero] at hnext
    rw [hexponent, Nat.cast_sub (by omega), zpow_sub₀ two_ne_zero, zpow_add_one₀ two_ne_zero]
    push_cast
    linarith

/-- What the interval of a float holds rounds to the float. -/
theorem roundsTo_of_holds (hf : 0 < f.fractionBits) {magnitude num den : Nat}
    (hden : 0 < den) (h : (f.floatAt magnitude).holds num den = true) :
    f.RoundsTo (num / den * 2 ^ (f.floatAt magnitude).quarter) magnitude := by
  have hden' : (0 : ℚ) < den := by exact_mod_cast hden
  have hunit : (0 : ℚ) < 2 ^ (f.floatAt magnitude).quarter := by positivity
  have hle : ∀ k : Nat, (num / den * 2 ^ (f.floatAt magnitude).quarter : ℚ) ≤
      k * 2 ^ (f.floatAt magnitude).quarter ↔ num ≤ k * den := fun k => by
    rw [mul_le_mul_iff_of_pos_right hunit, div_le_iff₀ hden']
    exact_mod_cast Iff.rfl
  have hge : ∀ k : Nat, (k * 2 ^ (f.floatAt magnitude).quarter : ℚ) ≤
      num / den * 2 ^ (f.floatAt magnitude).quarter ↔ k * den ≤ num := fun k => by
    rw [mul_le_mul_iff_of_pos_right hunit, le_div_iff₀ hden']
    exact_mod_cast Iff.rfl
  have hmod := mantissa_mod_two hf magnitude
  have hodd : magnitude % 2 = 1 → (f.floatAt magnitude).lower * den < num ∧
      num < (f.floatAt magnitude).upper * den := fun hodd => by
    have hopen : (f.floatAt magnitude).closed = false := by
      simp [Binary.closed, hmod, hodd]
    simpa [Binary.holds, hopen] using h
  obtain ⟨hlower, hupper⟩ : (f.floatAt magnitude).lower * den ≤ num ∧
      num ≤ (f.floatAt magnitude).upper * den := by
    rw [Binary.holds] at h
    split at h
    · exact of_decide_eq_true h
    · exact (of_decide_eq_true h).imp Nat.le_of_lt Nat.le_of_lt
  refine ⟨?_, ?_, fun hm => ⟨?_, ?_⟩⟩
  · rw [← upper_eq, hle]
    exact hupper
  · rintro before rfl
    rw [← lower_eq, hge]
    exact hlower
  · rw [← upper_eq, lt_iff_lt_of_le_iff_le (hge _)]
    exact (hodd hm).2
  · rintro before rfl
    rw [← lower_eq, lt_iff_lt_of_le_iff_le (hle _)]
    exact (hodd hm).1

/-! ### The search -/

/-- The decimal a grid answers is in the interval. -/
theorem holds_of_onGrid? {b : Binary} {num den k : Nat} {place : Int}
    (h : b.onGrid? num den place = some k) :
    b.holds (k * (scaleDown num den 10 place).2 * b.centre)
      (scaleDown num den 10 place).1 = true := by
  simp only [Binary.onGrid?] at h
  split at h
  · rename_i hbelow habove
    obtain rfl := Option.some.inj h
    split <;> assumption
  · rename_i hbelow _
    obtain rfl := Option.some.inj h
    exact hbelow
  · rename_i _ habove
    obtain rfl := Option.some.inj h
    exact habove
  · cases h

/-- All digits of a float make up its value. -/
theorem value_expansion (b : Binary) : b.expansion.value = b.value := by
  obtain ⟨mantissa, exponent, narrow⟩ := b
  cases exponent with
  | ofNat k => simp [Binary.expansion, Decimal.value, Binary.value]
  | negSucc k =>
    simp only [Binary.expansion, Decimal.value, Binary.value, Nat.pow_eq, zpow_negSucc]
    push_cast
    rw [show (10 : ℚ) = 5 * 2 by norm_num, mul_pow]
    field_simp

variable {magnitude : Nat}

/-- A decimal that a grid has for a float rounds to the float. -/
theorem roundsTo_of_onGrid? (hf : 0 < f.fractionBits) (hpos : 0 < magnitude) {num den k : Nat}
    {place : Int} (hden : 0 < den) (hvalue : (num / den : ℚ) = f.valueAt magnitude)
    (h : (f.floatAt magnitude).onGrid? num den place = some k) :
    f.RoundsTo (Decimal.mk k place).value magnitude := by
  have hv : (0 : ℚ) < f.valueAt magnitude := f.valueAt_pos hpos
  have hnum : 0 < num := Nat.pos_of_ne_zero fun hzero => by
    rw [← hvalue, hzero] at hv
    simp at hv
  obtain ⟨hd, hq⟩ := scaleDown_spec num hden (by decide : 0 < 10) place
  have hn := scaleDown_pos den hnum (by decide : 0 < 10) place
  have hrounds := roundsTo_of_holds hf hn (holds_of_onGrid? h)
  rw [hvalue] at hq
  generalize scaleDown num den 10 place = scaled at hd hn hq hrounds
  obtain ⟨n, d⟩ := scaled
  -- One step of the grid is as many quarters as `d * centre / n`.
  have hcentre : ((f.floatAt magnitude).centre : ℚ) * 2 ^ (f.floatAt magnitude).quarter =
      f.valueAt magnitude := by
    simp only [Binary.centre, Binary.quarter, FloatFormat.valueAt, Binary.value]
    rw [zpow_sub₀ two_ne_zero]
    push_cast
    ring
  have hn' : (n : ℚ) ≠ 0 := by exact_mod_cast hn.ne'
  have hd' : (d : ℚ) ≠ 0 := by exact_mod_cast hd.ne'
  have hten : (10 : ℚ) ^ place ≠ 0 := zpow_ne_zero _ (by norm_num)
  have hvalue' : (k * d * (f.floatAt magnitude).centre : Nat) / (n : ℚ) *
      2 ^ (f.floatAt magnitude).quarter = (Decimal.mk k place).value := by
    push_cast at hq ⊢
    rw [div_eq_div_iff hd' hten] at hq
    rw [Decimal.value, div_mul_eq_mul_div, div_eq_iff hn', mul_assoc, hcentre]
    change (k * d * f.valueAt magnitude : ℚ) = k * 10 ^ place * n
    linear_combination -(k : ℚ) * hq
  rwa [hvalue'] at hrounds

/-- The shortest decimal of a float rounds to the float. -/
theorem roundsTo_shortest (hf : 0 < f.fractionBits) (hpos : 0 < magnitude) :
    f.RoundsTo (f.floatAt magnitude).shortest.value magnitude := by
  obtain ⟨hden, hvalue⟩ := FloatFormat.quotient_spec (f.floatAt magnitude)
  simp only [Binary.shortest]
  generalize scaleDown (f.floatAt magnitude).mantissa 1 2 (-(f.floatAt magnitude).exponent) =
    quotient at hden hvalue ⊢
  obtain ⟨num, den⟩ := quotient
  generalize 20 = fuel
  generalize decimalPlace num den + 1 = place
  induction fuel generalizing place with
  | zero =>
    rw [Binary.shortestFrom, value_expansion]
    exact f.roundsTo_valueAt magnitude
  | succ fuel ih =>
    rw [Binary.shortestFrom]
    split
    · rename_i k hk
      exact roundsTo_of_onGrid? hf hpos hden hvalue hk
    · exact ih _

/-- Two floats of a format whose shortest decimals have one value are one float. -/
theorem shortest_inj (hf : 0 < f.fractionBits) {i j : Nat} (hi : 0 < i) (hj : 0 < j)
    (h : (f.floatAt i).shortest.value = (f.floatAt j).shortest.value) : i = j :=
  (h ▸ roundsTo_shortest hf hi).unique (roundsTo_shortest hf hj)

end Decimal

end ShaderGen
