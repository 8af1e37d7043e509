import ShaderGen.Decimal.Format
import ShaderGen.Decimal.Reader
import ShaderGen.Proofs.Reading
import ShaderGen.Proofs.ShortestDecimals

/-!
Floats that are shown alike. The positional text of a decimal denotes the value of
the decimal, so the text of a float tells its sign, its kind and, since it shows a
decimal that rounds to the float, the float.
-/

namespace ShaderGen.Decimal

/-! ### Digits -/

theorem digitsValue_eq (cs : List Char) : digitsValue cs = Nat.ofDigitChars 10 cs 0 := rfl

theorem digitsValue_digits (n : Nat) : digitsValue (Text.digits n) = n := by
  rw [digitsValue_eq, Text.digits_eq, Nat.ofDigitChars_ten_toDigits]

theorem digitsValue_append_zeros (cs : List Char) (k : Nat) :
    digitsValue (cs ++ List.replicate k '0') = digitsValue cs * 10 ^ k := by
  rw [digitsValue_eq, Nat.ofDigitChars_append, Nat.ofDigitChars_replicate_zero, Nat.mul_comm]
  rfl

theorem digitsValue_zeros_append (cs : List Char) (k : Nat) :
    digitsValue (List.replicate k '0' ++ cs) = digitsValue cs := by
  rw [digitsValue_eq, Nat.ofDigitChars_append, Nat.ofDigitChars_replicate_zero, Nat.mul_zero]
  rfl

theorem toList_pushn (s : String) (c : Char) (k : Nat) :
    (s.pushn c k).toList = s.toList ++ List.replicate k c := by
  rw [String.pushn_eq_repeat_push]
  induction k with
  | zero => simp [Nat.repeat]
  | succ k ih => rw [Nat.repeat, String.toList_push, ih, List.replicate_succ', List.append_assoc]

/-! ### Positional texts -/

/-- The digits after a point, if a text starts with one. -/
def fractionDigits : List Char → List Char
  | '.' :: cs => (splitDigits cs).1
  | _ => []

/-- The number that digits with or without a point denote, and zero if a text does
not start with a digit. -/
def textValue (cs : List Char) : ℚ :=
  let fraction := fractionDigits (splitDigits cs).2
  digitsValue ((splitDigits cs).1 ++ fraction) / 10 ^ fraction.length

theorem splitDigits_of_all {cs : List Char} (h : ∀ c ∈ cs, c.isDigit = true) :
    splitDigits cs = (cs, []) := by
  have htake := @List.takeWhile_append_of_pos Char Char.isDigit cs [] h
  have hdrop := @List.dropWhile_append_of_pos Char Char.isDigit cs [] h
  simp only [List.append_nil, List.takeWhile_nil, List.dropWhile_nil] at htake hdrop
  rw [splitDigits, htake, hdrop]

theorem splitDigits_append {cs rest : List Char} (h : ∀ c ∈ cs, c.isDigit = true) {c : Char}
    (hc : c.isDigit = false) : splitDigits (cs ++ c :: rest) = (cs, c :: rest) := by
  rw [splitDigits, List.takeWhile_append_of_pos h, List.dropWhile_append_of_pos h,
    List.takeWhile_cons_of_neg (by simp [hc]), List.dropWhile_cons_of_neg (by simp [hc]),
    List.append_nil]

theorem textValue_whole {whole : List Char} (h : ∀ c ∈ whole, c.isDigit = true) :
    textValue whole = digitsValue whole := by
  simp [textValue, splitDigits_of_all h, fractionDigits]

theorem textValue_point {whole fraction : List Char} (h : ∀ c ∈ whole, c.isDigit = true)
    (h' : ∀ c ∈ fraction, c.isDigit = true) : textValue (whole ++ '.' :: fraction) =
      digitsValue (whole ++ fraction) / 10 ^ fraction.length := by
  simp only [textValue, splitDigits_append h (by decide : '.'.isDigit = false), fractionDigits,
    splitDigits_of_all h']

/-- What is not a number in digits denotes zero. -/
theorem textValue_of_sign {c : Char} {cs : List Char} (hc : c.isDigit = false) (hpoint : c ≠ '.') :
    textValue (c :: cs) = 0 := by
  have hsplit : splitDigits (c :: cs) = ([], c :: cs) := @splitDigits_append [] cs nofun c hc
  simp [textValue, hsplit, fractionDigits, hpoint, digitsValue]

/-! The three forms of a decimal: whole, with its point between two digits, and with its
point in front of them. -/

theorem toList_positional_ofNat (coefficient zeros : Nat) :
    (positional ⟨coefficient, .ofNat zeros⟩).toList =
      Text.digits coefficient ++ List.replicate zeros '0' := by
  simp [positional, toList_pushn, Text.digits_eq]

theorem toList_positional_of_lt {coefficient k : Nat}
    (h : k + 1 < (Text.digits coefficient).length) :
    (positional ⟨coefficient, .negSucc k⟩).toList =
      (Text.digits coefficient).take ((Text.digits coefficient).length - (k + 1)) ++
        '.' :: (Text.digits coefficient).drop ((Text.digits coefficient).length - (k + 1)) := by
  have htoList : (toString coefficient).toList = Text.digits coefficient := rfl
  simp only [positional, htoList]
  rw [if_pos h]
  simp

theorem toList_positional_of_le {coefficient k : Nat}
    (h : (Text.digits coefficient).length ≤ k + 1) :
    (positional ⟨coefficient, .negSucc k⟩).toList = List.replicate 1 '0' ++
      '.' :: (List.replicate (k + 1 - (Text.digits coefficient).length) '0' ++
        Text.digits coefficient) := by
  have htoList : (toString coefficient).toList = Text.digits coefficient := rfl
  simp only [positional, htoList]
  rw [if_neg (Nat.not_lt.mpr h)]
  simp [toList_pushn, Text.digits_eq]

/-- The text of a decimal denotes its value. -/
theorem textValue_positional (d : Decimal) : textValue d.positional.toList = d.value := by
  obtain ⟨coefficient, exponent⟩ := d
  have hdigits := @Text.isDigit_of_mem_digits coefficient
  have hzeros : ∀ k, ∀ c ∈ List.replicate k '0', c.isDigit = true := fun k c hc => by
    rw [List.eq_of_mem_replicate hc]
    decide
  cases exponent with
  | ofNat zeros =>
    rw [toList_positional_ofNat,
      textValue_whole fun c hc => (List.mem_append.mp hc).elim (hdigits ·) (hzeros _ c),
      digitsValue_append_zeros, digitsValue_digits, Decimal.value]
    simp
  | negSucc k =>
    have hvalue : (Decimal.mk coefficient (.negSucc k)).value = coefficient / 10 ^ (k + 1) := by
      rw [Decimal.value, zpow_negSucc, div_eq_mul_inv]
    rw [hvalue]
    by_cases hlong : k + 1 < (Text.digits coefficient).length
    · rw [toList_positional_of_lt hlong,
        textValue_point (fun c hc => hdigits (List.mem_of_mem_take hc))
          fun c hc => hdigits (List.mem_of_mem_drop hc),
        List.take_append_drop, digitsValue_digits, List.length_drop, Nat.sub_sub_self hlong.le]
    · have hshort := Nat.le_of_not_lt hlong
      rw [toList_positional_of_le hshort,
        textValue_point (hzeros 1)
          fun c hc => (List.mem_append.mp hc).elim (hzeros _ c) (hdigits ·),
        digitsValue_zeros_append, digitsValue_zeros_append, digitsValue_digits, List.length_append,
        List.length_replicate, Nat.sub_add_cancel hshort]

/-! ### Shown floats -/

/-- Whether a minus is due. -/
def FloatReading.negative : FloatReading → Bool
  | .nan => false
  | .infinite negative | .zero negative | .finite negative _ => negative

/-- The text of a float without its sign. -/
def FloatReading.unsigned : FloatReading → String
  | .nan => "NaN"
  | .infinite _ => "inf"
  | .zero _ => "0"
  | .finite _ b => b.shortest.positional

theorem FloatReading.display_eq (r : FloatReading) :
    r.display = signText r.negative ++ r.unsigned := by
  cases r <;> rfl

/-- The digits of a decimal are a word, with or without a point. -/
theorem bare_positional (d : Decimal) : Text.Bare d.positional.toList := by
  obtain ⟨coefficient, exponent⟩ := d
  have hdigits : ∀ c ∈ Text.digits coefficient, Text.isBlank c = false :=
    (Text.bare_digits coefficient).unbroken
  have hzeros : ∀ k, ∀ c ∈ List.replicate k '0', Text.isBlank c = false := fun k c hc => by
    rw [List.eq_of_mem_replicate hc]
    decide
  cases exponent with
  | ofNat zeros =>
    rw [toList_positional_ofNat]
    exact (Text.bare_digits coefficient).append (hzeros zeros)
  | negSucc k =>
    by_cases hlong : k + 1 < (Text.digits coefficient).length
    · rw [toList_positional_of_lt hlong]
      have hwhole : Text.Bare ((Text.digits coefficient).take
          ((Text.digits coefficient).length - (k + 1))) := by
        refine Text.bare_of_isDigit (List.ne_nil_of_length_pos ?_) fun c hc =>
          Text.isDigit_of_mem_digits (List.mem_of_mem_take hc)
        rw [List.length_take]
        omega
      exact hwhole.append (List.forall_mem_cons.mpr
        ⟨by decide, fun c hc => hdigits c (List.mem_of_mem_drop hc)⟩)
    · rw [toList_positional_of_le (Nat.le_of_not_lt hlong)]
      have hzero : Text.Bare (List.replicate 1 '0') := by decide
      exact hzero.append (List.forall_mem_cons.mpr
        ⟨by decide, List.forall_mem_append.mpr ⟨hzeros _, hdigits⟩⟩)

/-- What is shown of a float is a word, whichever float it is. -/
theorem bare_display (r : FloatReading) : Text.Bare r.display.toList := by
  have hunsigned : Text.Bare r.unsigned.toList := by
    cases r with
    | finite _ b => exact bare_positional b.shortest
    | nan => exact (by decide : Text.Bare "NaN".toList)
    | infinite => exact (by decide : Text.Bare "inf".toList)
    | zero => exact (by decide : Text.Bare "0".toList)
  rw [r.display_eq, String.toList_append]
  cases r.negative with
  | false => exact hunsigned
  | true => exact hunsigned.minus

/-- What a format reads: a finite number is one of its floats. -/
inductive FloatFormat.Reads (f : FloatFormat) : FloatReading → Prop
  | nan : Reads f .nan
  | infinite (negative : Bool) : Reads f (.infinite negative)
  | zero (negative : Bool) : Reads f (.zero negative)
  | finite (negative : Bool) {magnitude : Nat} (h : 0 < magnitude) :
    Reads f (.finite negative (f.floatAt magnitude))

variable {f : FloatFormat}

theorem FloatFormat.reads_decode (f : FloatFormat) (word : Nat) : f.Reads (f.decode word) := by
  rw [f.decode_eq, FloatFormat.readingAt]
  split_ifs with _ _ hzero
  · exact .infinite _
  · exact .nan
  · exact .zero _
  · exact .finite _ (Nat.pos_of_ne_zero hzero)

/-- The text of a finite number denotes a positive value. -/
theorem textValue_shortest_pos (hf : 0 < f.fractionBits) {magnitude : Nat} (h : 0 < magnitude) :
    0 < textValue (f.floatAt magnitude).shortest.positional.toList := by
  obtain ⟨before, rfl⟩ := Nat.exists_eq_succ_of_ne_zero h.ne'
  rw [textValue_positional]
  have hlow : 0 < f.midpoint before :=
    (f.valueAt_nonneg before).trans_lt (f.valueAt_lt_midpoint before)
  exact hlow.trans_le ((roundsTo_shortest hf h).above before rfl)

/-- No other text does. -/
theorem textValue_others :
    textValue "NaN".toList = 0 ∧ textValue "inf".toList = 0 ∧ textValue "0".toList = 0 := by
  refine ⟨textValue_of_sign (by decide) (by decide), textValue_of_sign (by decide) (by decide), ?_⟩
  rw [show "0".toList = Text.digits 0 from rfl,
    textValue_whole fun _ hc => Text.isDigit_of_mem_digits hc, digitsValue_digits, Nat.cast_zero]

/-- A text without its sign starts with no minus. -/
theorem minus_ne_unsigned (hf : 0 < f.fractionBits) {r : FloatReading} (h : f.Reads r)
    (text : String) : "-" ++ text ≠ r.unsigned := by
  intro heq
  have hlist : '-' :: text.toList = r.unsigned.toList := by
    rw [← heq, String.toList_append]
    rfl
  have hhead : some '-' = r.unsigned.toList.head? := congrArg List.head? hlist
  cases h with
  | nan => exact absurd hhead (show some '-' ≠ "NaN".toList.head? by decide)
  | infinite => exact absurd hhead (show some '-' ≠ "inf".toList.head? by decide)
  | zero => exact absurd hhead (show some '-' ≠ "0".toList.head? by decide)
  | finite negative h =>
    have hpos := textValue_shortest_pos hf h
    rw [show (f.floatAt _).shortest.positional.toList = _ from hlist.symm,
      textValue_of_sign (by decide) (by decide)] at hpos
    exact lt_irrefl 0 hpos

/-- Two numbers that a format reads and that are shown alike are one number. -/
theorem display_injective (hf : 0 < f.fractionBits) {r r' : FloatReading} (h : f.Reads r)
    (h' : f.Reads r') (heq : r.display = r'.display) : r = r' := by
  rw [r.display_eq, r'.display_eq] at heq
  have hsign : r.negative = r'.negative := by
    cases hn : r.negative <;> cases hn' : r'.negative <;> rw [hn, hn'] at heq <;>
      simp only [signText, Bool.false_eq_true, if_false, if_true, String.empty_append] at heq
    · exact (minus_ne_unsigned hf h _ heq.symm).elim
    · exact (minus_ne_unsigned hf h' _ heq).elim
  rw [hsign] at heq
  have htext : r.unsigned = r'.unsigned := (String.append_right_inj _).mp heq
  have hvalue : textValue r.unsigned.toList = textValue r'.unsigned.toList := by rw [htext]
  obtain ⟨hnan, hinf, hzero⟩ := textValue_others
  cases h with
  | nan | infinite | zero =>
    cases h' with
    | nan | infinite | zero => simp_all [FloatReading.unsigned, FloatReading.negative]
    | finite _ h' =>
      have hpos := textValue_shortest_pos hf h'
      simp only [FloatReading.unsigned] at hvalue
      linarith
  | finite _ h =>
    have hpos := textValue_shortest_pos hf h
    cases h' with
    | nan | infinite | zero =>
      simp only [FloatReading.unsigned] at hvalue
      linarith
    | finite _ h' =>
      simp only [FloatReading.unsigned, textValue_positional] at hvalue
      simp only [FloatReading.negative] at hsign
      rw [shortest_inj hf h h' hvalue, hsign]

end ShaderGen.Decimal
