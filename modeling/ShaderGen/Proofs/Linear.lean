import ShaderGen.Proofs.Elementwise

/-!
Linear algebra keeps its typing rules: rows and columns are counted through the
column type of a matrix, and the types of results are made of the same scalars.
-/

namespace ShaderGen.Gen

variable {ρ : Type} [RandomSource ρ] {c : Config} {s : State ρ} {op : Opcode} {test : Predicate}

/-- An operand that is a matrix. -/
theorem matrixOperand_quietly (hs : s.Sound c) (scope : ScopeId) :
    Quietly c s (matrixOperand scope) fun x s' => ∃ ty scalar rows, s'.code.Has x.1 ty ∧
      s'.code.table.IsMatrix ty x.2.1 scalar x.2.2 rows ∧ s'.Reads scope x.1 := by
  refine (typedOperand_quietly hs scope _).seq ?_
  rintro ⟨a, ty⟩ s₁ q₁ ⟨ha, htest, hreads⟩
  refine (Quietly.typeAt q₁.sound _).seq ?_
  rintro t s₁ - ⟨rfl, ht⟩
  cases t with
  | matrix column columns =>
    obtain ⟨scalar, rows, hm⟩ := Predicate.isMatrix_of_isType q₁.sound.table ht
    exact .pure q₁.sound ⟨ty, scalar, rows, ha, hm, hreads⟩
  | _ => exact .infeasible q₁.sound

/-- The types a product with a scalar is made for. -/
theorem yields_of_timesScalar {m : Module} (hwf : m.table.WellFormed c) {ty : EntryId}
    (hop : op.recipe? = some (.timesScalar test)) (h : test m ty = .ok true) :
    ∃ scalar, m.baseType ty = .ok scalar ∧ m.table.Yields op [ty, scalar] ty := by
  cases op with
  | vectorTimesScalar =>
    cases hop
    obtain ⟨scalar, n, hv⟩ := Predicate.isFloatVector_of_floatVector hwf h
    exact ⟨scalar, Module.baseType_of_lanes hv.lanes, .vectorTimesScalar hv⟩
  | matrixTimesScalar =>
    cases hop
    obtain ⟨column, scalar, columns, rows, hm⟩ := Predicate.isMatrix_of_matrix hwf h
    exact ⟨scalar, Module.baseType_of_isMatrix hm, .matrixTimesScalar hm⟩
  | _ => cases hop

theorem timesScalar_leads (hs : s.Sound c) (scope : ScopeId)
    (hop : op.recipe? = some (.timesScalar test)) :
    Leads c s (timesScalar scope op test) (Produces c scope) := by
  refine (typedOperand_quietly hs scope test).lead rebases_produces ?_
  rintro ⟨a, ty⟩ s₁ q₁ ⟨ha, htest, hreads⟩
  obtain ⟨scalar, hbase, hyields⟩ := yields_of_timesScalar q₁.sound.table hop htest
  refine (Quietly.answer q₁.sound hbase).lead rebases_produces ?_
  rintro _ s₁ - ⟨rfl, rfl⟩
  refine (operandOf_quietly q₁.sound scope scalar).lead rebases_produces ?_
  rintro b s₂ q₂ ⟨hb, hreads'⟩
  exact apply_leads q₂.sound [a, b] (.cons (ha.mono q₂.later) (.cons hb .nil))
    (by simpa using ⟨hreads.after q₂, hreads'⟩) (hyields.mono q₂.table_le)

omit [RandomSource ρ] in
/-- A vector of the scalars of a matrix, one for each column. -/
theorem rowType_quietly (hs : s.Sound c) {ty column scalar : EntryId} {columns rows : Nat}
    (hm : s.code.table.IsMatrix ty column scalar columns rows) :
    Quietly c s (internType (.vector scalar columns)) fun id s' =>
      s'.code.table.IsFloatVector id scalar columns := by
  obtain ⟨hty, _, width, hscalar⟩ := id hm
  obtain ⟨hcolumns, _⟩ := hs.table.entry hty
  refine (Quietly.internType hs (.vector scalar columns)
    ⟨hcolumns, _, hscalar, by simp [Ty.opcode, Category.members]⟩).mono fun id s' q hid => ?_
  exact ⟨hid, width, q.table_le hscalar⟩

theorem vectorTimesMatrix_leads (hs : s.Sound c) (scope : ScopeId) :
    Leads c s (vectorTimesMatrix scope) (Produces c scope) := by
  refine (matrixOperand_quietly hs scope).lead rebases_produces ?_
  rintro ⟨a, column, columns⟩ s₁ q₁ ⟨ty, scalar, rows, ha, hm, hreads⟩
  refine (operandOf_quietly q₁.sound scope column).lead rebases_produces ?_
  rintro v s₂ q₂ ⟨hv, hreads'⟩
  have hm₂ := hm.mono q₂.table_le
  refine (Quietly.answer q₂.sound (Module.baseType_of_lanes hm₂.2.lanes)).lead rebases_produces ?_
  rintro _ s₂ - ⟨rfl, rfl⟩
  refine (rowType_quietly q₂.sound hm₂).lead rebases_produces fun r s₃ q₃ hr => ?_
  exact apply_leads q₃.sound [v, a]
    (.cons (hv.mono q₃.later) (.cons (ha.mono (q₂.trans q₃).later) .nil))
    (by simpa using ⟨hreads'.after q₃, hreads.after (q₂.trans q₃)⟩)
    (.vectorTimesMatrix (hm₂.mono q₃.table_le) hr)

theorem matrixTimesVector_leads (hs : s.Sound c) (scope : ScopeId) :
    Leads c s (matrixTimesVector scope) (Produces c scope) := by
  refine (matrixOperand_quietly hs scope).lead rebases_produces ?_
  rintro ⟨a, column, columns⟩ s₁ q₁ ⟨ty, scalar, rows, ha, hm, hreads⟩
  refine (Quietly.answer q₁.sound (Module.baseType_of_lanes hm.2.lanes)).lead rebases_produces ?_
  rintro _ s₁ - ⟨rfl, rfl⟩
  refine (rowType_quietly q₁.sound hm).lead rebases_produces fun row s₂ q₂ hrow => ?_
  refine (operandOf_quietly q₂.sound scope row).lead rebases_produces ?_
  rintro v s₃ q₃ ⟨hv, hreads'⟩
  have q₂₃ := q₂.trans q₃
  exact apply_leads q₃.sound [a, v] (.cons (ha.mono q₂₃.later) (.cons hv .nil))
    (by simpa using ⟨hreads.after q₂₃, hreads'⟩)
    (.matrixTimesVector (hm.mono q₂₃.table_le) (hrow.mono q₃.table_le))

theorem matrixTimesMatrix_leads (hs : s.Sound c) (scope : ScopeId) :
    Leads c s (matrixTimesMatrix scope) (Produces c scope) := by
  refine (matrixOperand_quietly hs scope).lead rebases_produces ?_
  rintro ⟨left, column, columns⟩ s₁ q₁ ⟨ty, scalar, rows, hleft, hm, hreads⟩
  refine (Quietly.answer q₁.sound (Module.baseType_of_lanes hm.2.lanes)).lead rebases_produces ?_
  rintro _ s₁ - ⟨rfl, rfl⟩
  refine (rowType_quietly q₁.sound hm).lead rebases_produces fun row s₂ q₂ hrow => ?_
  refine (typedOperand_quietly q₂.sound scope _).lead rebases_produces ?_
  rintro ⟨right, rty⟩ s₃ q₃ ⟨hright, htest, hreads'⟩
  -- the columns of the second matrix are the rows just made
  obtain ⟨t, ht, hcol⟩ := Predicate.ofTy_eq_true.mp htest
  cases t with
  | matrix column' columns' =>
    obtain rfl := beq_iff_eq.mp hcol
    have q₂₃ := q₂.trans q₃
    have hm₃ := hm.mono q₂₃.table_le
    have hright₃ : s₃.code.table.IsMatrix rty column' scalar columns' columns :=
      ⟨ht, hrow.mono q₃.table_le⟩
    have hcount := Module.componentCount_of_arity q₃.sound.table (.matrix ht)
    refine (Quietly.answer q₃.sound hcount).lead rebases_produces ?_
    rintro _ s₃ - ⟨rfl, rfl⟩
    obtain ⟨hcolumns', _⟩ := q₃.sound.table.entry ht
    refine (Quietly.internType q₃.sound (.matrix column columns')
      ⟨hcolumns', scalar, rows, hm₃.2⟩).lead rebases_produces fun r s₄ q₄ hr => ?_
    exact apply_leads q₄.sound [left, right]
      (.cons (hleft.mono (q₂₃.trans q₄).later) (.cons (hright.mono q₄.later) .nil))
      (by simpa using ⟨hreads.after (q₂₃.trans q₄), hreads'.after q₄⟩)
      (.matrixTimesMatrix (hm₃.mono q₄.table_le) (hright₃.mono q₄.table_le)
        ⟨hr, hm₃.2.mono q₄.table_le⟩)
  | _ => simp at hcol

theorem outerProduct_leads (hs : s.Sound c) (scope : ScopeId) :
    Leads c s (outerProduct scope) (Produces c scope) := by
  refine (typedOperand_quietly hs scope _).lead rebases_produces ?_
  rintro ⟨a, column⟩ s₁ q₁ ⟨ha, htest, hreads⟩
  obtain ⟨scalar, rows, hcolumn⟩ := Predicate.isFloatVector_of_floatVector q₁.sound.table htest
  refine (Quietly.answer q₁.sound (Module.baseType_of_lanes hcolumn.lanes)).lead rebases_produces ?_
  rintro _ s₁ - ⟨rfl, rfl⟩
  refine (typedOperand_quietly q₁.sound scope _).lead rebases_produces ?_
  rintro ⟨b, row⟩ s₂ q₂ ⟨hb, htest', hreads'⟩
  obtain ⟨hvector, hscalar⟩ := Predicate.and_eq_true.mp htest'
  obtain ⟨scalar', columns, hrow⟩ := Predicate.isFloatVector_of_floatVector q₂.sound.table hvector
  have hcolumn₂ := hcolumn.mono q₂.table_le
  obtain rfl : scalar' = scalar := by
    simpa [Module.baseType_of_lanes hrow.lanes, bind, Except.bind, pure, Except.pure] using hscalar
  have hcount := Module.componentCount_of_lanes hrow.lanes
  refine (Quietly.answer q₂.sound hcount).lead rebases_produces ?_
  rintro _ s₂ - ⟨rfl, rfl⟩
  obtain ⟨hcolumns, _⟩ := q₂.sound.table.entry hrow.1
  refine (Quietly.internType q₂.sound (.matrix column columns)
    ⟨hcolumns, scalar', rows, hcolumn₂⟩).lead rebases_produces fun r s₃ q₃ hr => ?_
  exact apply_leads q₃.sound [a, b]
    (.cons (ha.mono (q₂.trans q₃).later) (.cons (hb.mono q₃.later) .nil))
    (by simpa using ⟨hreads.after (q₂.trans q₃), hreads'.after q₃⟩)
    (.outerProduct (hcolumn₂.mono q₃.table_le) (hrow.mono q₃.table_le)
      ⟨hr, hcolumn₂.mono q₃.table_le⟩)

theorem dot_leads (hs : s.Sound c) (scope : ScopeId) :
    Leads c s (dot scope) (Produces c scope) := by
  refine (typedOperand_quietly hs scope _).lead rebases_produces ?_
  rintro ⟨a, ty⟩ s₁ q₁ ⟨ha, htest, hreads⟩
  obtain ⟨scalar, n, hv⟩ := Predicate.isFloatVector_of_floatVector q₁.sound.table htest
  refine (operandOf_quietly q₁.sound scope ty).lead rebases_produces ?_
  rintro b s₂ q₂ ⟨hb, hreads'⟩
  have hv₂ := hv.mono q₂.table_le
  refine (Quietly.answer q₂.sound (Module.baseType_of_lanes hv₂.lanes)).lead rebases_produces ?_
  rintro _ s₂ - ⟨rfl, rfl⟩
  exact apply_leads q₂.sound [a, b] (.cons (ha.mono q₂.later) (.cons hb .nil))
    (by simpa using ⟨hreads.after q₂, hreads'⟩) (.dot hv₂)

end ShaderGen.Gen
