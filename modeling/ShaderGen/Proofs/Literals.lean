import ShaderGen.Proofs.DecimalTexts
import ShaderGen.Proofs.WellFormed

/-!
Literals that are shown alike. Within one type the text of a literal determines
it: integers are written in full, and the floats that a run draws are held by the
format they are shown in, so that rounding them for display loses nothing.
-/

namespace ShaderGen

open Decimal

namespace Text

theorem toString_nat_injective {n k : Nat} (h : toString n = toString k) : n = k :=
  digits_injective (congrArg String.toList h)

/-- A minus in front of an integer is no digit. -/
theorem toString_int_injective {v v' : Int} (h : toString v = toString v') : v = v' := by
  have hsign (n k : Nat) : (toString n).toList ≠ ("-" ++ toString k).toList := by
    rw [String.toList_append, show "-".toList = ['-'] from rfl, List.singleton_append]
    intro heq
    have hmem : '-' ∈ digits n := by
      rw [digits, heq]
      exact List.mem_cons_self
    exact absurd (isDigit_of_mem_digits hmem) (by decide)
  cases v with
  | ofNat n =>
    cases v' with
    | ofNat k => exact congrArg _ (toString_nat_injective h)
    | negSucc k => exact absurd (congrArg String.toList h) (hsign n (k + 1))
  | negSucc n =>
    cases v' with
    | ofNat k => exact absurd (congrArg String.toList h).symm (hsign k (n + 1))
    | negSucc k =>
      have htail : toString (n + 1) = toString (k + 1) := (String.append_right_inj "-").mp h
      exact congrArg _ (Nat.succ.inj (toString_nat_injective htail))

end Text

namespace Literal

/-! ### Floats -/

theorem fractionBits_shownIn (width : Nat) : 0 < (shownIn width).fractionBits := by
  unfold shownIn
  split <;> decide

theorem toNat_ofReading (r : FloatReading) :
    (FloatFormat.double.ofReading r).toUInt64.toNat = FloatFormat.double.ofReading r :=
  Nat.mod_eq_of_lt (FloatFormat.double.ofReading_lt r)

/-- A float literal is shown as the number that the format of its width holds. -/
theorem render_of_shown {width shown : Nat} {word : UInt64}
    (h : word.toNat = FloatFormat.double.ofReading ((shownIn width).decode shown)) :
    (float word).render width = ((shownIn width).decode shown).display := by
  by_cases hwidth : width ≤ 32
  · simp only [shownIn, if_pos hwidth] at h ⊢
    simp only [render, if_pos hwidth, displaySingle, h]
    -- a double holds the number, so narrowing gives it back
    have hheld := (FloatFormat.double_holds_single shown).agrees (by decide)
    rw [FloatFormat.ofReading_congr (by decide) hheld,
      FloatFormat.decode_ofReading_decode (by decide)]
  · simp only [shownIn, if_neg hwidth] at h ⊢
    simp only [render, if_neg hwidth, displayDouble, h]
    rw [FloatFormat.decode_ofReading_decode (by decide)]

/-- Two float literals of a width that are shown alike are one literal. -/
theorem IsShown.render_injective {width : Nat} {v v' : Literal} (h : v.IsShown width)
    (h' : v'.IsShown width) (heq : v.render width = v'.render width) : v = v' := by
  cases v with
  | float word =>
    cases v' with
    | float word' =>
      obtain ⟨shown, hshown⟩ := h
      obtain ⟨shown', hshown'⟩ := h'
      rw [render_of_shown hshown, render_of_shown hshown'] at heq
      have hread := display_injective (fractionBits_shownIn width)
        (FloatFormat.reads_decode _ _) (FloatFormat.reads_decode _ _) heq
      rw [hread, ← hshown'] at hshown
      rw [UInt64.toNat_inj.mp hshown]
    | int | uint => exact h'.elim
  | int | uint => exact h.elim

/-! ### Drawn floats -/

theorem isShown_ofSingle {width : Nat} (hwidth : width ≤ 32) (x : Float32) :
    (ofSingle x).IsShown width :=
  ⟨x.toBits.toNat, by rw [toNat_ofReading, shownIn, if_pos hwidth]⟩

/-- Quarters below `2 ^ 22` are held in single precision. -/
theorem isShown_ofQuarters {width : Nat} (hwidth : width ≤ 32) {k : Int}
    (hlow : -1023 ≤ k) (hhigh : k ≤ 1023) : (ofReading (.ofQuarters k)).IsShown width := by
  have hholds : FloatFormat.single.Holds (.ofQuarters k) := by
    unfold FloatReading.ofQuarters
    split
    · exact FloatFormat.holds_of_readingAt 0 (by decide) false (FloatReading.Agrees.refl _)
    · exact FloatFormat.holds_finite (by omega)
        (show k.natAbs < 2 * 8388608 by omega) (by decide) (by decide) _ _
  refine ⟨FloatFormat.single.ofReading (.ofQuarters k), ?_⟩
  rw [toNat_ofReading, shownIn, if_pos hwidth]
  exact (FloatFormat.ofReading_congr (by decide) (hholds.agrees (by decide))).symm

theorem isShown_ofFloat {width : Nat} (hwidth : 32 < width) (x : Float) :
    (ofFloat x).IsShown width :=
  ⟨x.toBits.toNat, by
    rw [shownIn, if_neg (Nat.not_le.mpr hwidth), FloatFormat.ofReading_decode_toBits]⟩

/-- Zero has one word in all formats. -/
theorem isShown_zero (width : Nat) : (ofFloat 0.0).IsShown width := by
  refine ⟨0, ?_⟩
  unfold shownIn
  split <;> decide

/-! ### Integers -/

/-- Two integer literals of a type that are shown alike are one literal. -/
theorem Fits.render_injective {width : Nat} {signed : Bool} {v v' : Literal}
    (h : v.Fits width signed) (h' : v'.Fits width signed)
    (heq : v.render width = v'.render width) : v = v' := by
  cases v with
  | int =>
    cases v' with
    | int => exact congrArg _ (Text.toString_int_injective heq)
    | uint => exact absurd (h.1.symm.trans h'.1) (by decide)
    | float => exact h'.elim
  | uint =>
    cases v' with
    | int => exact absurd (h.1.symm.trans h'.1) (by decide)
    | uint => exact congrArg _ (Text.toString_nat_injective heq)
    | float => exact h'.elim
  | float => exact h.elim

end Literal

end ShaderGen
