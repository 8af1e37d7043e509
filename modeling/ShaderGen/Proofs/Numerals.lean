import ShaderGen.Text.Digits

/-!
The numerals the program reads: an optional plus sign and ASCII digits. Numbers of
options and numbers of ids are given the same way, with limits of their own.
-/

namespace ShaderGen.Text

/-- Digits, behind an optional plus sign, that write a number below `limit`. -/
def Denotes (limit : Nat) (cs : List Char) (n : Nat) : Prop :=
  ∃ sign ds, cs = sign ++ ds ∧ (sign = [] ∨ sign = ['+']) ∧ ds ≠ [] ∧
    (∀ d ∈ ds, d.isDigit = true) ∧ n = Nat.ofDigitChars 10 ds 0 ∧ n < limit

theorem Denotes.lt {limit n : Nat} {cs : List Char} (h : Denotes limit cs n) : n < limit := by
  obtain ⟨_, _, -, -, -, -, -, hlt⟩ := h
  exact hlt

theorem digitsValue?_eq_some_iff {ds : List Char} {n : Nat} :
    digitsValue? ds = some n ↔ (∀ d ∈ ds, d.isDigit = true) ∧ n = Nat.ofDigitChars 10 ds 0 := by
  have hvalue : ds.foldl (fun n c => 10 * n + (c.toNat - '0'.toNat)) 0 = Nat.ofDigitChars 10 ds 0 :=
    rfl
  rw [digitsValue?, hvalue]
  split
  case isTrue hall =>
    rw [Option.some.injEq]
    exact ⟨fun h => ⟨List.all_eq_true.mp hall, h.symm⟩, fun h => h.2.symm⟩
  case isFalse hall => exact ⟨nofun, fun h => absurd (List.all_eq_true.mpr h.1) hall⟩

/-- A sign is only dropped in front of the digits. -/
theorem dropPlus_sign {sign ds : List Char} (hsign : sign = [] ∨ sign = ['+'])
    (hds : ∀ d ∈ ds, d.isDigit = true) : dropPlus (sign ++ ds) = ds := by
  rcases hsign with rfl | rfl
  · rw [List.nil_append, dropPlus.eq_def]
    split
    · exact absurd (hds '+' List.mem_cons_self) (by decide)
    · rfl
  · rfl

theorem exists_sign (cs : List Char) :
    ∃ sign, (sign = [] ∨ sign = ['+']) ∧ cs = sign ++ dropPlus cs := by
  rw [dropPlus.eq_def]
  split
  · exact ⟨['+'], .inr rfl, rfl⟩
  · exact ⟨[], .inl rfl, rfl⟩

theorem unsigned?_eq_filter {limit : Nat} {cs : List Char} (h : dropPlus cs ≠ []) :
    unsigned? limit cs = (digitsValue? (dropPlus cs)).filter (· < limit) := by
  rw [unsigned?]
  split
  · contradiction
  · rfl

/-- A number is read exactly from its numerals. -/
theorem unsigned?_eq_some_iff {limit n : Nat} {cs : List Char} :
    unsigned? limit cs = some n ↔ Denotes limit cs n := by
  constructor
  · intro h
    have hne : dropPlus cs ≠ [] := by
      intro hnil
      rw [unsigned?, hnil] at h
      cases h
    rw [unsigned?_eq_filter hne, Option.filter_eq_some_iff] at h
    obtain ⟨hds, hvalue⟩ := digitsValue?_eq_some_iff.mp h.1
    obtain ⟨sign, hsign, hcs⟩ := exists_sign cs
    exact ⟨sign, dropPlus cs, hcs, hsign, hne, hds, hvalue, of_decide_eq_true h.2⟩
  · rintro ⟨sign, ds, rfl, hsign, hne, hds, hvalue, hlt⟩
    have hdrop : dropPlus (sign ++ ds) = ds := dropPlus_sign hsign hds
    rw [unsigned?_eq_filter (by rwa [hdrop]), hdrop, Option.filter_eq_some_iff]
    exact ⟨digitsValue?_eq_some_iff.mpr ⟨hds, hvalue⟩, decide_eq_true hlt⟩

theorem unsigned?_eq_none_iff {limit : Nat} {cs : List Char} :
    unsigned? limit cs = none ↔ ∀ n, ¬ Denotes limit cs n := by
  simp only [Option.eq_none_iff_forall_ne_some, ne_eq, unsigned?_eq_some_iff]

example : Denotes 256 ['+', '0', '7'] 7 := unsigned?_eq_some_iff.mp (by decide)

end ShaderGen.Text
