import ShaderGen.Proofs.Production
import ShaderGen.Statement.Recipe

/-!
Statements that work component by component keep their typing rules: what the
search for operands asks of their types is what the rules ask, and booleans are
made with as many components as the operands have.
-/

namespace ShaderGen

/-! ### Tests and rules -/

section Rules

variable {c : Config} {m : Module} {ty : EntryId} {op : Opcode} {test : Predicate}
  (hwf : m.table.WellFormed c)
include hwf

/-- The operand of a unary operation has a type that yields itself. -/
theorem yields_of_unary (hop : op.recipe? = some (.unary test)) (h : test m ty = .ok true) :
    m.table.Yields op [ty] ty := by
  cases op with
  | sNegate | not =>
    cases hop
    obtain ⟨n, width, signed, hi⟩ := Predicate.intLanes_of_intLike hwf h
    exact .intUnary (by decide) hi
  | fNegate =>
    cases hop
    obtain ⟨n, width, hf⟩ := Predicate.floatLanes_of_floatLike hwf h
    exact .floatUnary hf
  | logicalNot =>
    cases hop
    obtain ⟨n, hb⟩ := Predicate.boolLanes_of_boolLike hwf h
    exact .boolUnary hb
  | bitCount | bitReverse =>
    cases hop
    obtain ⟨hlike, hwidth⟩ := Predicate.and_eq_true.mp h
    obtain ⟨n, width, signed, scalar, hl, hs⟩ := Predicate.intLanes_of_intLike hwf hlike
    cases Predicate.width_of_lanes hl hs hwidth
    exact .bitUnary (by decide) ⟨scalar, hl, hs⟩
  | copyObject =>
    cases hop
    exact .copy (Predicate.isData_of_data h)
  | _ => cases hop

/-- Two operands of one type have a type that yields itself. -/
theorem yields_of_binary (hop : op.recipe? = some (.binary test)) (h : test m ty = .ok true) :
    m.table.Yields op [ty, ty] ty := by
  cases op with
  | iAdd | iSub | iMul | uDiv | sDiv | uMod | sRem | sMod =>
    cases hop
    obtain ⟨n, width, signed, hi, hs⟩ := Predicate.intLanes_of_intLikeFor hwf h
    exact .intBinary (by decide) hi hs
  | bitwiseOr | bitwiseXor | bitwiseAnd =>
    cases hop
    obtain ⟨n, width, signed, hi⟩ := Predicate.intLanes_of_intLike hwf h
    exact .intBinary (by decide) hi (fun _ hs => by cases hs)
  | fAdd | fSub | fMul | fDiv | fRem | fMod =>
    cases hop
    obtain ⟨n, width, hf⟩ := Predicate.floatLanes_of_floatLike hwf h
    exact .floatBinary (by decide) hf
  | logicalEqual | logicalNotEqual | logicalOr | logicalAnd =>
    cases hop
    obtain ⟨n, hb⟩ := Predicate.boolLanes_of_boolLike hwf h
    exact .boolBinary (by decide) hb
  | _ => cases hop

end Rules

/-- What the operands of a comparison are: lanes that an opcode compares. -/
def Table.Comparable (t : Table) (op : Opcode) (id : EntryId) (n width : Nat) : Prop :=
  (op ∈ Opcode.intComparisons ∧ ∃ signed, t.IntLanes id n width signed ∧ op.Admits signed) ∨
    op ∈ Opcode.floatComparisons ∧ t.FloatLanes id n width

namespace Table.Comparable

variable {t t' : Table} {op : Opcode} {a b r : EntryId} {n width : Nat}

theorem mono (hle : t ≤ t') (h : t.Comparable op a n width) : t'.Comparable op a n width := by
  rcases h with ⟨hop, signed, hi, hs⟩ | ⟨hop, hf⟩
  · exact .inl ⟨hop, signed, hi.mono hle, hs⟩
  · exact .inr ⟨hop, hf.mono hle⟩

theorem lanes (h : t.Comparable op a n width) :
    ∃ scalar ty, t.Lanes a scalar n ∧ t.IsType scalar ty ∧ ty.scalarWidth? = some width := by
  rcases h with ⟨_, signed, ⟨scalar, hl, hs⟩, _⟩ | ⟨_, scalar, hl, hs⟩
  · exact ⟨scalar, _, hl, hs, rfl⟩
  · exact ⟨scalar, _, hl, hs, rfl⟩

theorem yields (ha : t.Comparable op a n width) (hb : t.Comparable op b n width)
    (hr : t.BoolLanes r n) : t.Yields op [a, b] r := by
  -- No opcode compares both kinds, so the operands are of the same one.
  have hdisjoint : ∀ op ∈ Opcode.intComparisons, op ∉ Opcode.floatComparisons := by decide
  rcases ha with ⟨hop, signed, ha, hs⟩ | ⟨hop, ha⟩ <;>
    rcases hb with ⟨hop', signed', hb, hs'⟩ | ⟨hop', hb⟩
  · exact .intCompare hop ha hb hs hs' hr
  · exact absurd hop' (hdisjoint op hop)
  · exact absurd hop (hdisjoint op hop')
  · exact .floatCompare hop ha hb hr

theorem of_test {c : Config} {m : Module} {test : Predicate} (hwf : m.table.WellFormed c)
    (hop : op.recipe? = some (.compare test)) (h : test m a = .ok true) :
    ∃ n width, m.table.Comparable op a n width := by
  cases op with
  | iEqual | iNotEqual | uGreaterThan | sGreaterThan | uGreaterThanEqual | sGreaterThanEqual
  | uLessThan | sLessThan | uLessThanEqual | sLessThanEqual =>
    cases hop
    obtain ⟨n, width, signed, hi, hs⟩ := Predicate.intLanes_of_intLikeFor hwf h
    exact ⟨n, width, .inl ⟨by decide, signed, hi, hs⟩⟩
  | fOrdEqual | fOrdNotEqual | fOrdLessThan | fOrdGreaterThan | fOrdLessThanEqual
  | fOrdGreaterThanEqual =>
    cases hop
    obtain ⟨n, width, hf⟩ := Predicate.floatLanes_of_floatLike hwf h
    exact ⟨n, width, .inr ⟨by decide, hf⟩⟩
  | _ => cases hop

end Table.Comparable

/-! ### Routines -/

namespace Gen

variable {ρ : Type} {c : Config} {s : State ρ} {op : Opcode} {test : Predicate}

theorem boolWithComponents_quietly (hs : s.Sound c) {n : Nat} (hn : 1 ≤ n ∧ n ≤ 4) :
    Quietly c s (boolWithComponents n) fun id s' => s'.code.table.BoolLanes id n := by
  refine (Quietly.internType hs .bool trivial).seq fun scalar s₁ q₁ hscalar => ?_
  refine (withComponents_quietly q₁.sound ⟨.bool, hscalar, by decide⟩ hn).mono fun id s₂ q₂ h => ?_
  exact ⟨scalar, h, q₂.table_le hscalar⟩

variable [RandomSource ρ]

theorem unary_leads (hs : s.Sound c) (scope : ScopeId) (hop : op.recipe? = some (.unary test)) :
    Leads c s (unary scope op test) (Produces c scope) := by
  refine (typedOperand_quietly hs scope test).lead rebases_produces ?_
  rintro ⟨a, ty⟩ s₁ q₁ ⟨ha, htest, hreads⟩
  exact apply_leads q₁.sound [a] (.cons ha .nil) (by simpa using hreads)
    (yields_of_unary q₁.sound.table hop htest)

theorem binary_leads (hs : s.Sound c) (scope : ScopeId) (hop : op.recipe? = some (.binary test)) :
    Leads c s (binary scope op test) (Produces c scope) := by
  refine (typedOperand_quietly hs scope test).lead rebases_produces ?_
  rintro ⟨a, ty⟩ s₁ q₁ ⟨ha, htest, hreads⟩
  have hyields := yields_of_binary q₁.sound.table hop htest
  refine (operandOf_quietly q₁.sound scope ty).lead rebases_produces ?_
  rintro b s₂ q₂ ⟨hb, hreads'⟩
  exact apply_leads q₂.sound [a, b] (.cons (ha.mono q₂.later) (.cons hb .nil))
    (by simpa using ⟨hreads.after q₂, hreads'⟩) (hyields.mono q₂.table_le)

theorem shift_leads (hs : s.Sound c) (scope : ScopeId)
    (hop : op ∈ [.shiftRightLogical, .shiftRightArithmetic, .shiftLeftLogical]) :
    Leads c s (shift scope op) (Produces c scope) := by
  refine (typedOperand_quietly hs scope _).lead rebases_produces ?_
  rintro ⟨base, ty⟩ s₁ q₁ ⟨hbase, htest, hreads⟩
  obtain ⟨n, width, signed, hi⟩ := Predicate.intLanes_of_intLike q₁.sound.table htest
  obtain ⟨_, hl, _⟩ := id hi
  refine (Quietly.answer q₁.sound (Module.componentCount_of_lanes hl)).lead rebases_produces ?_
  rintro _ s₁ - ⟨rfl, rfl⟩
  refine (operand_quietly q₁.sound scope _).lead rebases_produces ?_
  rintro amount s₂ q₂ ⟨ty', hamount, htest', hreads'⟩
  obtain ⟨hlike, hsame⟩ := Predicate.and_eq_true.mp htest'
  obtain ⟨k, width', signed', hi'⟩ := Predicate.intLanes_of_intLike q₂.sound.table hlike
  have heq : k = n := by
    obtain ⟨_, hl, _⟩ := hi'
    have := Predicate.componentCount_eq_true hsame
    rw [Module.componentCount_of_lanes hl] at this
    exact Except.ok.inj this
  subst heq
  exact apply_leads q₂.sound [base, amount] (.cons (hbase.mono q₂.later) (.cons hamount .nil))
    (by simpa using ⟨hreads.after q₂, hreads'⟩) (.shift hop (hi.mono q₂.table_le) hi')

theorem reduceBool_leads (hs : s.Sound c) (scope : ScopeId) (hop : op ∈ [.any, .all]) :
    Leads c s (reduceBool scope op) (Produces c scope) := by
  refine (operand_quietly hs scope _).lead rebases_produces ?_
  rintro v s₁ q₁ ⟨ty, hv, htest, hreads⟩
  obtain ⟨scalar, n, hty, hscalar⟩ := Predicate.vector_of_boolVector q₁.sound.table htest
  refine (Quietly.internType q₁.sound .bool trivial).lead rebases_produces fun r s₂ q₂ hr => ?_
  exact apply_leads q₂.sound [v] (.cons (hv.mono q₂.later) .nil) (by simpa using hreads.after q₂)
    (.reduceBool hop (q₂.table_le hty) (q₂.table_le hscalar) hr)

theorem floatTest_leads (hs : s.Sound c) (scope : ScopeId) (hop : op ∈ [.isNan, .isInf]) :
    Leads c s (floatTest scope op) (Produces c scope) := by
  refine (typedOperand_quietly hs scope _).lead rebases_produces ?_
  rintro ⟨x, ty⟩ s₁ q₁ ⟨hx, htest, hreads⟩
  obtain ⟨n, width, hf⟩ := Predicate.floatLanes_of_floatLike q₁.sound.table htest
  obtain ⟨scalar, hl, _⟩ := id hf
  refine (Quietly.answer q₁.sound (Module.componentCount_of_lanes hl)).lead rebases_produces ?_
  rintro _ s₁ - ⟨rfl, rfl⟩
  refine (boolWithComponents_quietly q₁.sound (hl.bounds q₁.sound.table)).lead rebases_produces
    fun r s₂ q₂ hr => ?_
  exact apply_leads q₂.sound [x] (.cons (hx.mono q₂.later) .nil) (by simpa using hreads.after q₂)
    (.floatTest hop (hf.mono q₂.table_le) hr)

theorem compare_leads (hs : s.Sound c) (scope : ScopeId)
    (hop : op.recipe? = some (.compare test)) :
    Leads c s (compare scope op test) (Produces c scope) := by
  refine (typedOperand_quietly hs scope test).lead rebases_produces ?_
  rintro ⟨a, ty⟩ s₁ q₁ ⟨ha, htest, hreads⟩
  obtain ⟨n, width, hcmp⟩ := Table.Comparable.of_test q₁.sound.table hop htest
  refine (operand_quietly q₁.sound scope _).lead rebases_produces ?_
  rintro b s₂ q₂ ⟨ty', hb, htest', hreads'⟩
  obtain ⟨htest', hshape⟩ := Predicate.and_eq_true.mp htest'
  obtain ⟨k, width', hcmp'⟩ := Table.Comparable.of_test q₂.sound.table hop htest'
  replace hcmp := hcmp.mono q₂.table_le
  obtain ⟨sa, ta, hla, hta, hwa⟩ := hcmp.lanes
  obtain ⟨sb, tb, hlb, htb, hwb⟩ := hcmp'.lanes
  -- one shape is one number of components and one width
  obtain ⟨rfl, hwidths⟩ := Predicate.lanes_of_sameShape hlb htb hla hta hshape
  obtain rfl : width' = width := by
    rw [hwa, hwb] at hwidths
    exact Option.some.inj hwidths
  refine (Quietly.answer q₂.sound (Module.componentCount_of_lanes hla)).lead rebases_produces ?_
  rintro _ s₂ - ⟨rfl, rfl⟩
  refine (boolWithComponents_quietly q₂.sound (hla.bounds q₂.sound.table)).lead rebases_produces
    fun r s₃ q₃ hr => ?_
  exact apply_leads q₃.sound [a, b]
    (.cons (ha.mono (q₂.trans q₃).later) (.cons (hb.mono q₃.later) .nil))
    (by simpa using ⟨hreads.after (q₂.trans q₃), hreads'.after q₃⟩)
    ((hcmp.mono q₃.table_le).yields (hcmp'.mono q₃.table_le) hr)

theorem select_leads (hs : s.Sound c) (scope : ScopeId) :
    Leads c s (select scope) (Produces c scope) := by
  refine (typedOperand_quietly hs scope _).lead rebases_produces ?_
  rintro ⟨a, ty⟩ s₁ q₁ ⟨ha, htest, hreads⟩
  obtain ⟨scalar, n, hl⟩ := Predicate.lanes_of_scalarOrVector q₁.sound.table htest
  refine (operandOf_quietly q₁.sound scope ty).lead rebases_produces ?_
  rintro b s₂ q₂ ⟨hb, hreads'⟩
  have hl₂ := hl.mono q₂.table_le
  refine (Quietly.answer q₂.sound (Module.componentCount_of_lanes hl₂)).lead rebases_produces ?_
  rintro _ s₂ - ⟨rfl, rfl⟩
  refine (boolWithComponents_quietly q₂.sound (hl₂.bounds q₂.sound.table)).lead rebases_produces
    fun bty s₃ q₃ hbty => ?_
  refine (operandOf_quietly q₃.sound scope bty).lead rebases_produces ?_
  rintro condition s₄ q₄ ⟨hcondition, hreads''⟩
  have q₃₄ := q₃.trans q₄
  exact apply_leads q₄.sound [condition, a, b]
    (.cons hcondition (.cons (ha.mono (q₂.trans q₃₄).later) (.cons (hb.mono q₃₄.later) .nil)))
    (by simpa using ⟨hreads'', hreads.after (q₂.trans q₃₄), hreads'.after q₃₄⟩)
    (.select (hbty.mono q₄.table_le) (hl₂.mono q₃₄.table_le))

end Gen

end ShaderGen
