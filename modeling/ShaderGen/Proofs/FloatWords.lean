import Mathlib.Tactic.SplitIfs
import ShaderGen.Proofs.Rounding

/-!
Words of floats and what they stand for. A word is a sign and a magnitude.
Writing a reading as a word depends on the number alone, and a number the format
holds is the one that is read back; so a format loses nothing of what it has
read, and a double loses nothing of a single-precision float.
-/

namespace ShaderGen.Decimal

/-- Two readings are one number: they are alike, and equal in value if they are
finite. -/
def FloatReading.Agrees : FloatReading → FloatReading → Prop
  | .finite negative b, .finite negative' b' => negative = negative' ∧ b.value = b'.value
  | r, r' => r = r'

theorem FloatReading.Agrees.refl (r : FloatReading) : r.Agrees r := by
  cases r <;> simp [Agrees]

namespace FloatFormat

variable {f : FloatFormat}

/-- The word of a magnitude with a sign. -/
def signed (f : FloatFormat) (negative : Bool) (magnitude : Nat) : Nat :=
  (if negative then f.signWord else 0) + magnitude

/-- What a magnitude with a sign stands for. -/
def readingAt (f : FloatFormat) (negative : Bool) (magnitude : Nat) : FloatReading :=
  if f.infinityWord ≤ magnitude then
    if magnitude % f.fractionCount = 0 then .infinite negative else .nan
  else if magnitude = 0 then .zero negative
  else .finite negative (f.floatAt magnitude)

/-- The format holds the number: some word stands for it. -/
def Holds (f : FloatFormat) (r : FloatReading) : Prop := ∃ word, (f.decode word).Agrees r

/-! ### Reading words -/

theorem signWord_eq (f : FloatFormat) : f.signWord = f.infinityWord + f.fractionCount := by
  obtain ⟨n, hn⟩ := Nat.exists_eq_succ_of_ne_zero (Nat.two_pow_pos f.exponentBits).ne'
  simp only [signWord, infinityWord, Nat.pow_eq, hn, Nat.succ_mul, Nat.succ_sub_one]

theorem signWord_pos (f : FloatFormat) : 0 < f.signWord := by
  have := f.signWord_eq
  have := f.fractionCount_pos
  omega

theorem decode_eq (f : FloatFormat) (word : Nat) :
    f.decode word = f.readingAt (f.signWord ≤ word) (word % f.signWord) := by
  simp only [decode, readingAt]
  generalize word % f.signWord = magnitude
  have hsplit := Nat.div_add_mod' magnitude f.fractionCount
  split
  · rfl
  · split
    · rfl
    · split
      · rename_i hbiased
        rw [hbiased] at hsplit
        simp [floatAt, tier, hbiased]
        omega
      · rename_i hbiased
        obtain ⟨t, ht⟩ := Nat.exists_eq_succ_of_ne_zero hbiased
        rw [ht, Nat.succ_mul] at hsplit
        simp [floatAt, tier, ht]
        omega

theorem decode_signed {magnitude : Nat} (h : magnitude < f.signWord) (negative : Bool) :
    f.decode (f.signed negative magnitude) = f.readingAt negative magnitude := by
  rw [decode_eq, signed]
  cases negative with
  | false => simp [Nat.mod_eq_of_lt h, h.not_ge]
  | true => simp [Nat.mod_eq_of_lt h]

/-! ### Writing words -/

/-- The mantissa of a float is not zero, and has one bit more than a fraction. -/
theorem mantissa_floatAt (f : FloatFormat) {magnitude : Nat} (h : 0 < magnitude) :
    0 < (f.floatAt magnitude).mantissa ∧ (f.floatAt magnitude).mantissa < 2 * f.fractionCount := by
  obtain ⟨k, hmagnitude, hk, hfull⟩ := f.exists_mantissa magnitude
  have hpos := f.fractionCount_pos
  have : (f.floatAt magnitude).mantissa = k := by
    simp only [floatAt]
    omega
  rw [this]
  refine ⟨?_, hk⟩
  rcases hfull with hfull | htier
  · omega
  · rw [htier] at hmagnitude
    omega

/-- The quotient of a float is its value. -/
theorem quotient_spec (b : Binary) :
    0 < (scaleDown b.mantissa 1 2 (-b.exponent)).2 ∧
      ((scaleDown b.mantissa 1 2 (-b.exponent)).1 : ℚ) /
        (scaleDown b.mantissa 1 2 (-b.exponent)).2 = b.value := by
  obtain ⟨hd, hq⟩ := scaleDown_spec b.mantissa one_pos two_pos (-b.exponent)
  refine ⟨hd, ?_⟩
  rw [hq, Binary.value]
  push_cast
  rw [div_one, zpow_neg, div_inv_eq_mul]

/-- A float is written as its own magnitude. -/
theorem ofReading_finite (hf : 0 < f.fractionBits) {b : Binary} {magnitude : Nat}
    (hpos : 0 < b.mantissa) (hfinite : magnitude < f.infinityWord)
    (hb : b.value = f.valueAt magnitude) (negative : Bool) :
    f.ofReading (.finite negative b) = f.signed negative magnitude := by
  obtain ⟨hd, hq⟩ := quotient_spec b
  have hn := scaleDown_pos 1 hpos two_pos (-b.exponent)
  simp only [ofReading, signed]
  rw [RoundsTo.nearest _ hf hn hd hfinite]
  rw [hq, hb]
  exact f.roundsTo_valueAt magnitude

/-- The magnitude of a number that may be zero. -/
theorem nearest_congr (hf : 0 < f.fractionBits) {b b' : Binary} (h : b.value = b'.value) :
    f.nearest (scaleDown b.mantissa 1 2 (-b.exponent)).1
        (scaleDown b.mantissa 1 2 (-b.exponent)).2 =
      f.nearest (scaleDown b'.mantissa 1 2 (-b'.exponent)).1
        (scaleDown b'.mantissa 1 2 (-b'.exponent)).2 := by
  obtain ⟨hd, hq⟩ := quotient_spec b
  obtain ⟨hd', hq'⟩ := quotient_spec b'
  rw [h, ← hq'] at hq
  generalize scaleDown b.mantissa 1 2 (-b.exponent) = s at hd hq ⊢
  generalize scaleDown b'.mantissa 1 2 (-b'.exponent) = s' at hd' hq hq' ⊢
  obtain ⟨n, d⟩ := s
  obtain ⟨n', d'⟩ := s'
  have hscale : n * d' = n' * d := by
    rw [div_eq_div_iff (by exact_mod_cast hd.ne') (by exact_mod_cast hd'.ne')] at hq
    exact_mod_cast hq
  rcases Nat.eq_zero_or_pos n with rfl | hn
  · obtain rfl : n' = 0 := by
      have : n' * d = 0 := by omega
      exact (Nat.mul_eq_zero.mp this).resolve_right hd.ne'
    simp [nearest]
  · have hn' : 0 < n' := by
      have : 0 < n' * d := hscale ▸ Nat.mul_pos hn hd'
      exact Nat.pos_of_mul_pos_right this
    obtain ⟨_, hrounds, hnearest⟩ := nearest_spec hf hn hd
    obtain ⟨_, hrounds', hnearest'⟩ := nearest_spec hf hn' hd'
    rw [hq] at hrounds
    rw [hnearest, hnearest', hrounds.unique hrounds']

/-- How a number is written depends on the number alone. -/
theorem ofReading_congr (hf : 0 < f.fractionBits) {r r' : FloatReading} (h : r.Agrees r') :
    f.ofReading r = f.ofReading r' := by
  cases r <;> cases r' <;> try exact congrArg _ h
  obtain ⟨rfl, hvalue⟩ := h
  simp only [ofReading, nearest_congr hf hvalue]

/-- Writing what a word stands for gives the word back, or that of the one not a
number. -/
theorem ofReading_readingAt (hf : 0 < f.fractionBits) {magnitude : Nat}
    (h : magnitude < f.signWord) (negative : Bool) :
    f.ofReading (f.readingAt negative magnitude) = f.signed negative magnitude ∨
      f.readingAt negative magnitude = .nan := by
  unfold readingAt
  split
  · rename_i hinfinity
    split
    · rename_i hfraction
      left
      obtain rfl : magnitude = f.infinityWord := by
        have hpos := f.fractionCount_pos
        rw [f.signWord_eq] at h
        obtain ⟨k, rfl⟩ := Nat.exists_eq_add_of_le hinfinity
        have : f.infinityWord % f.fractionCount = 0 := Nat.mul_mod_left _ _
        rw [Nat.add_mod, this, Nat.zero_add, Nat.mod_mod, Nat.mod_eq_of_lt (by omega)] at hfraction
        omega
      rfl
    · exact .inr rfl
  · rename_i hfinite
    split
    · rename_i hzero
      rw [hzero]
      exact .inl rfl
    · rename_i hzero
      have hpos := (f.mantissa_floatAt (Nat.pos_of_ne_zero hzero)).1
      exact .inl (ofReading_finite hf hpos (Nat.lt_of_not_le hfinite) rfl negative)

/-- The word of what is not a number is read as that. -/
theorem decode_nan (hf : 0 < f.fractionBits) : f.decode (f.ofReading .nan) = .nan := by
  have hpos := f.fractionCount_pos
  have heven := even_fractionCount hf
  have hlt : f.infinityWord + f.fractionCount / 2 < f.signWord := by
    rw [f.signWord_eq]
    omega
  have hfraction : (f.infinityWord + f.fractionCount / 2) % f.fractionCount ≠ 0 := by
    rw [infinityWord, Nat.add_comm, Nat.add_mul_mod_self_right, Nat.mod_eq_of_lt (by omega)]
    omega
  have hword := f.decode_signed hlt false
  simp only [signed, readingAt, Nat.zero_add, Bool.false_eq_true, if_false] at hword
  rw [ofReading, hword, if_pos (Nat.le_add_right _ _), if_neg hfraction]

/-- A format loses nothing of what it has read. -/
theorem decode_ofReading_decode (hf : 0 < f.fractionBits) (word : Nat) :
    f.decode (f.ofReading (f.decode word)) = f.decode word := by
  rw [f.decode_eq word]
  have hlt := Nat.mod_lt word f.signWord_pos
  rcases ofReading_readingAt hf hlt (f.signWord ≤ word) with hword | hnan
  · rw [hword, f.decode_signed hlt]
  · rw [hnan, decode_nan hf]

/-- A number that the format holds is read back. -/
theorem Holds.agrees {r : FloatReading} (h : f.Holds r) (hf : 0 < f.fractionBits) :
    (f.decode (f.ofReading r)).Agrees r := by
  obtain ⟨word, hword⟩ := h
  rwa [← ofReading_congr hf hword, decode_ofReading_decode hf]

theorem ofReading_lt (f : FloatFormat) (r : FloatReading) : f.ofReading r < 2 * f.signWord := by
  have hcount := f.fractionCount_pos
  have hsign := f.signWord_eq
  have hnearest : ∀ num den, f.nearest num den ≤ f.infinityWord := fun num den => by
    unfold nearest
    split
    · exact Nat.zero_le _
    · exact Nat.min_le_right ..
  cases r with
  | nan =>
    simp only [ofReading]
    omega
  | infinite negative => cases negative <;> simp [ofReading] <;> omega
  | zero negative => cases negative <;> simp [ofReading] <;> omega
  | finite negative b =>
    simp only [ofReading]
    have := hnearest (scaleDown b.mantissa 1 2 (-b.exponent)).1
      (scaleDown b.mantissa 1 2 (-b.exponent)).2
    split <;> omega

/-! ### What a format holds -/

theorem holds_of_readingAt {r : FloatReading} (magnitude : Nat) (h : magnitude < f.signWord)
    (negative : Bool) (hr : (f.readingAt negative magnitude).Agrees r) : f.Holds r :=
  ⟨f.signed negative magnitude, by rwa [f.decode_signed h]⟩

/-- A number is held if its digits fit a mantissa and its place is in the middle
of the range. -/
theorem holds_finite {m : Nat} {e : Int} (hm : 0 < m) (hdigits : m < 2 * f.fractionCount)
    (hlow : f.leastExponent + f.fractionBits ≤ e)
    (hhigh : e - f.leastExponent + 3 ≤ (2 ^ f.exponentBits : Nat)) (negative narrowBelow : Bool) :
    f.Holds (.finite negative ⟨m, e, narrowBelow⟩) := by
  have hcount : f.fractionCount = 2 ^ f.fractionBits := rfl
  have hlog : m.log2 ≤ f.fractionBits := by
    have := (Nat.log2_lt hm.ne').mpr
      (by rwa [Nat.pow_succ', ← hcount] : m < 2 ^ (f.fractionBits + 1))
    omega
  -- The mantissa is shifted until it is full.
  obtain ⟨s, hs⟩ := Nat.exists_eq_add_of_le hlog
  obtain ⟨t, ht⟩ : ∃ t : Nat, f.leastExponent + t = e - s :=
    ⟨(e - s - f.leastExponent).toNat, by omega⟩
  have hfull : f.fractionCount ≤ m * 2 ^ s := by
    rw [hcount, hs, Nat.pow_add]
    exact Nat.mul_le_mul_right _ (Nat.log2_self_le hm.ne')
  have hfits : m * 2 ^ s < 2 * f.fractionCount := by
    rw [hcount, hs, Nat.pow_add, ← Nat.mul_assoc, ← Nat.pow_succ']
    exact Nat.mul_lt_mul_of_pos_right Nat.lt_log2_self (Nat.two_pow_pos s)
  have hvalue := f.valueAt_tier (t := t) hfits.le (.inl hfull)
  have htop : t * f.fractionCount + m * 2 ^ s < f.infinityWord := by
    have : (t + 2) * f.fractionCount ≤ f.infinityWord :=
      Nat.mul_le_mul_right _ (by simp only [Nat.pow_eq]; omega)
    rw [Nat.add_mul] at this
    omega
  have hpos := f.fractionCount_pos
  refine holds_of_readingAt _ (htop.trans_le (by rw [f.signWord_eq]; omega)) negative ?_
  rw [readingAt, if_neg (Nat.not_le.mpr htop), if_neg (by omega)]
  refine ⟨rfl, ?_⟩
  rw [← valueAt, hvalue, ht, Binary.value]
  push_cast
  rw [zpow_sub₀ two_ne_zero, zpow_natCast]
  field_simp

/-- The sign and the magnitude of a word make up the word. -/
theorem signed_mod {word : Nat} (h : word < 2 * f.signWord) :
    f.signed (f.signWord ≤ word) (word % f.signWord) = word := by
  unfold signed
  by_cases hneg : f.signWord ≤ word
  · rw [Nat.mod_eq_sub_mod hneg, Nat.mod_eq_of_lt (by omega)]
    simp [hneg]
  · rw [Nat.mod_eq_of_lt (by omega)]
    simp [hneg]

/-- A double holds every single-precision float. -/
theorem double_holds_single (word : Nat) : double.Holds (single.decode word) := by
  rw [single.decode_eq]
  generalize decide (single.signWord ≤ word) = negative
  generalize word % single.signWord = magnitude
  rw [readingAt]
  split
  · split
    · exact holds_of_readingAt double.infinityWord (by decide) negative
        (FloatReading.Agrees.refl _)
    · exact ⟨_, by rw [decode_nan (by decide)]; exact FloatReading.Agrees.refl _⟩
  · rename_i hfinite
    split
    · exact holds_of_readingAt 0 (by decide) negative (FloatReading.Agrees.refl _)
    · rename_i hzero
      obtain ⟨hpos, hdigits⟩ := single.mantissa_floatAt (Nat.pos_of_ne_zero hzero)
      have htier : single.tier magnitude ≤ 253 := by
        have : magnitude / single.fractionCount < 255 :=
          (Nat.div_lt_iff_lt_mul single.fractionCount_pos).mpr (Nat.lt_of_not_le hfinite)
        unfold tier
        omega
      have hleast : single.leastExponent = -149 := by decide
      have hleast' : double.leastExponent = -1074 := by decide
      refine holds_finite hpos (hdigits.trans (by decide)) ?_ ?_ negative _
      · rw [hleast, hleast', show double.fractionBits = 52 from rfl]
        omega
      · rw [hleast, hleast', show double.exponentBits = 11 from rfl]
        omega

section Native

open Float.Model

theorem toNat_unpackExponent (b : BitVec 64) :
    (@UnpackedFloat.unpackExponent .binary64 b).toNat = b.toNat / 2 ^ 52 % 2 ^ 11 := by
  simp [UnpackedFloat.unpackExponent, BitVec.extractLsb, BitVec.extractLsb',
    Nat.shiftRight_eq_div_pow]

theorem toNat_unpackMantissa (b : BitVec 64) :
    (@UnpackedFloat.unpackMantissa .binary64 b).toNat = b.toNat % 2 ^ 52 := by
  simp [UnpackedFloat.unpackMantissa, BitVec.extractLsb, BitVec.extractLsb']

/-- A float is the word it is written as: only one word is not a number. -/
theorem ofReading_decode_toBits (x : Float) :
    double.ofReading (double.decode x.toBits.toNat) = x.toBits.toNat := by
  have hword : x.toBits.toNat < 2 * double.signWord := x.toBits.toNat_lt
  have hmagnitude := Nat.mod_lt x.toBits.toNat double.signWord_pos
  rw [double.decode_eq]
  rcases ofReading_readingAt (f := double) (by decide) hmagnitude
    (double.signWord ≤ x.toBits.toNat) with h | hnan
  · rw [h, signed_mod hword]
  · obtain ⟨hexponent, hfraction⟩ : double.infinityWord ≤ x.toBits.toNat % double.signWord ∧
        x.toBits.toNat % double.signWord % double.fractionCount ≠ 0 := by
      rw [readingAt] at hnan
      split_ifs at hnan with h h'
      exact ⟨h, h'⟩
    rw [show double.signWord = 2 ^ 63 from rfl, show double.infinityWord = 2047 * 2 ^ 52 from rfl]
      at hexponent
    rw [show double.signWord = 2 ^ 63 from rfl, show double.fractionCount = 2 ^ 52 from rfl]
      at hfraction
    -- The exponent has all its bits and the fraction has some.
    have hcanonical := x.toModel.valid.eq_packedNaN
      (BitVec.eq_of_toNat_eq (by
        rw [toNat_unpackExponent]
        change x.toBits.toNat / 2 ^ 52 % 2 ^ 11 = 2047
        omega))
      (fun h => by
        have hzero := congrArg BitVec.toNat h
        rw [toNat_unpackMantissa] at hzero
        change x.toBits.toNat % 2 ^ 52 = 0 at hzero
        omega)
    rw [hnan]
    exact (congrArg BitVec.toNat hcanonical).symm

end Native

end FloatFormat

end ShaderGen.Decimal
