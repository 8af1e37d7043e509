import ShaderGen.Generator.Nesting
import ShaderGen.Proofs.CalmEntries
import ShaderGen.Proofs.Composites
import ShaderGen.Proofs.Conversions
import ShaderGen.Proofs.Extended
import ShaderGen.Proofs.Linear

/-!
Statements other than selections are produced calmly. Each search has an answer in a
scope that shows instructions of the arena, and the operands that are found have
types, about which the questions of a routine have answers too.
-/

namespace ShaderGen.Gen

variable {ρ α : Type} {c : Config} {s : State ρ} {scope : ScopeId} {op : Opcode}
  {test : Predicate}

theorem emit_calmly (ty : EntryId) (operands : List Operand) :
    Calmly c s (emit op ty operands) :=
  (Calmly.alloc _).andThen fun _ _ _ => Settles.pure

theorem boolWithComponents_calmly (count : Nat) :
    Calmly c s (boolWithComponents count : Gen ρ EntryId) :=
  (Calmly.internType _).andThen fun _ _ _ => withComponents_calmly _ _

/-- The type of a value that has one. -/
theorem typeOf_calmly {v : Value} {ty : EntryId} (h : s.code.Has v ty) :
    Calmly c s (typeOf v) :=
  Settles.query_bind ⟨_, h⟩ fun _ _ => Calmly.require

variable [RandomSource ρ]

section Searches

variable (hs : s.Sound c) (hshows : s.Shows scope)
include hs hshows

/-! ### Operands -/

theorem operand_calmly (htest : test.Total s.code) : Calmly c s (operand scope test) :=
  (Calmly.ask (State.operandsWhere_answers hs hshows htest)).andThen fun _ _ _ => pick_calmly _

theorem operandOf_calmly (ty : EntryId) : Calmly c s (operandOf scope ty) :=
  operand_calmly hs hshows (Predicate.total_exactly ty)

theorem typedOperand_calmly (htest : test.Total s.code) :
    Calmly c s (typedOperand scope test) := by
  refine (operand_calmly hs hshows htest).seq (operand_quietly hs scope test) ?_
  rintro v s₁ q₁ ⟨ty, hv, _⟩
  exact Calmly.andThen (typeOf_calmly hv) fun _ _ _ => Settles.pure

theorem pointerOperand_calmly (htest : test.Total s.code) :
    Calmly c s (pointerOperand scope test) := by
  refine Calmly.bind (Calmly.ask (pointersWhere_answers hs hshows htest)) (Quietly.ask hs) ?_
  rintro vs s' ⟨q, rfl, hvs⟩ -
  refine (pick_calmly vs).seq (hit_quietly hs fun v hv => mem_pointersWhere hvs hv) ?_
  rintro v s₁ q₁ ⟨ty, hv, _⟩
  refine (typeOf_calmly hv).seq (typeOf_quietly q₁.sound v) ?_
  rintro ty' s₁ - ⟨rfl, hty'⟩
  refine Settles.query_bind (Module.pointee?_answers (hty'.holdsType q₁.sound.table q₁.sound.typed))
    fun o _ => ?_
  exact Calmly.require.andThen fun _ _ _ => Settles.pure

/-- A typed operand in front of a step, which learns the type of the operand. -/
theorem Settles.typedOperand_bind {k : Nat} {f : Value × EntryId → Gen ρ α}
    (htest : test.Total s.code) (hf : ∀ v ty s', Quiet c s s' → s'.Shows scope →
      s'.code.Has v ty → s'.code.table.HoldsType ty → test s'.code ty = .ok true →
        Settles k c s' (f (v, ty))) :
    Settles k c s (typedOperand scope test >>= f) := by
  refine (typedOperand_calmly hs hshows htest).seq (typedOperand_quietly hs scope test) ?_
  rintro ⟨v, ty⟩ s' q ⟨hv, hty, _⟩
  exact hf v ty s' q (hshows.after q) hv (hv.holdsType q.sound.table q.sound.typed) hty

/-! ### Component by component -/

theorem unary_calmly (htest : test.Total s.code) : Calmly c s (unary scope op test) :=
  Settles.typedOperand_bind hs hshows htest fun _ _ _ _ _ _ _ _ => emit_calmly _ _

theorem binary_calmly (htest : test.Total s.code) : Calmly c s (binary scope op test) := by
  refine Settles.typedOperand_bind hs hshows htest fun v ty s₁ q₁ hshows₁ hv hty _ => ?_
  exact (operandOf_calmly q₁.sound hshows₁ ty).andThen fun _ _ _ => emit_calmly _ _

theorem shift_calmly : Calmly c s (shift scope op) := by
  refine Settles.typedOperand_bind hs hshows (Predicate.total_intLike hs.table)
    fun v ty s₁ q₁ hshows₁ hv hty _ => ?_
  refine Settles.query_bind (Module.componentCount_answers q₁.sound.table hty) fun n _ => ?_
  have htotal := (Predicate.total_intLike q₁.sound.table).and
    (Predicate.total_componentCount q₁.sound.table n)
  exact (operand_calmly q₁.sound hshows₁ htotal).andThen fun _ _ _ => emit_calmly _ _

theorem reduceBool_calmly : Calmly c s (reduceBool scope op) := by
  have htotal : Predicate.boolVector.Total s.code :=
    (Predicate.total_ofTy _).and (Predicate.total_boolLike hs.table)
  refine (operand_calmly hs hshows htotal).andThen fun _ _ _ => ?_
  exact (Calmly.internType _).andThen fun _ _ _ => emit_calmly _ _

theorem floatTest_calmly : Calmly c s (floatTest scope op) := by
  refine Settles.typedOperand_bind hs hshows (Predicate.total_floatLike hs.table)
    fun v ty s₁ q₁ hshows₁ hv hty _ => ?_
  refine Settles.query_bind (Module.componentCount_answers q₁.sound.table hty) fun n _ => ?_
  exact (boolWithComponents_calmly n).andThen fun _ _ _ => emit_calmly _ _

theorem compare_calmly (hop : op.recipe? = some (.compare test)) :
    Calmly c s (compare scope op test) := by
  have htotal {s : State ρ} (hs : s.Sound c) : test.Total s.code :=
    Recipe.total_of_test? hs.table hop rfl
  refine Settles.typedOperand_bind hs hshows (htotal hs) fun v ty s₁ q₁ hshows₁ hv hty _ => ?_
  have hlike := (htotal q₁.sound).and (Predicate.total_sameShape q₁.sound.table hty)
  refine (operand_calmly q₁.sound hshows₁ hlike).seq (operand_quietly q₁.sound scope _) ?_
  rintro b s₂ q₂ -
  refine Settles.query_bind
    (Module.componentCount_answers q₂.sound.table (hty.mono q₂.table_le)) fun n _ => ?_
  exact (boolWithComponents_calmly n).andThen fun _ _ _ => emit_calmly _ _

theorem select_calmly : Calmly c s (select scope) := by
  refine Settles.typedOperand_bind hs hshows (Predicate.total_ofTy _)
    fun v ty s₁ q₁ hshows₁ hv hty htest => ?_
  obtain ⟨scalar, n, hl⟩ := Predicate.lanes_of_scalarOrVector q₁.sound.table htest
  refine (operandOf_calmly q₁.sound hshows₁ ty).seq (operandOf_quietly q₁.sound scope ty) ?_
  rintro b s₂ q₂ -
  have hl₂ := hl.mono q₂.table_le
  refine Settles.query_bind ⟨n, Module.componentCount_of_lanes hl₂⟩ fun k hk => ?_
  obtain rfl : n = k := Except.ok.inj ((Module.componentCount_of_lanes hl₂).symm.trans hk)
  refine (boolWithComponents_calmly n).seq
    (boolWithComponents_quietly q₂.sound (hl₂.bounds q₂.sound.table)) ?_
  rintro bty s₃ q₃ -
  exact (operandOf_calmly q₃.sound (hshows₁.after (q₂.trans q₃)) bty).andThen
    fun _ _ _ => emit_calmly _ _

/-! ### Conversions and extended instructions -/

omit hs hshows in
theorem convertedScalar_calmly (source : Ty) :
    Calmly c s (convertedScalar op source : Gen ρ Ty) := by
  unfold convertedScalar
  split
  · exact intWidth_calmly.andThen fun _ _ _ => Settles.pure
  · exact intWidth_calmly.andThen fun _ _ _ => Settles.pure
  · exact floatWidth_calmly.andThen fun _ _ _ => Settles.pure
  · exact floatWidth_calmly.andThen fun _ _ _ => Settles.pure
  · exact Calmly.read.andThen fun _ _ _ => (pick_calmly _).andThen fun _ _ _ => Settles.pure
  · exact Calmly.read.andThen fun _ _ _ => (pick_calmly _).andThen fun _ _ _ => Settles.pure
  · exact Calmly.read.andThen fun _ _ _ => (pick_calmly _).andThen fun _ _ _ => Settles.pure
  · refine Calmly.read.andThen fun _ _ _ => ?_
    split
    · refine (chance_calmly isProbability_half).andThen fun _ _ _ => ?_
      split
      · exact Settles.pure
      · exact Settles.pure
    · exact Settles.pure
  · exact (chance_calmly isProbability_half).andThen fun _ _ _ => Settles.pure
  · exact Settles.infeasible

theorem conversion_calmly : Calmly c s (conversion scope op) := by
  have htotal : op.conversionTest.Total s.code := by
    unfold Opcode.conversionTest
    split
    · exact Predicate.total_floatLike hs.table
    · exact Predicate.total_floatLike hs.table
    · exact Predicate.total_floatLike hs.table
    · exact (Predicate.total_intLike hs.table).or (Predicate.total_floatLike hs.table)
    · exact Predicate.total_intLikeFor hs.table op
  refine Settles.typedOperand_bind hs hshows htotal fun v ty s₁ q₁ hshows₁ hv hty _ => ?_
  refine Settles.query_bind (Module.componentCount_answers q₁.sound.table hty) fun n _ => ?_
  refine Settles.query_bind (Module.baseTy_answers q₁.sound.table hty) fun t _ => ?_
  refine (convertedScalar_calmly t).andThen fun target s₂ _ => ?_
  refine (Calmly.internType target).andThen fun scalar s₃ _ => ?_
  exact (withComponents_calmly scalar n).andThen fun _ _ _ => emit_calmly _ _

omit hshows [RandomSource ρ] in
theorem total_shapeTest (shape : ExtendedShape) : shape.test.Total s.code := by
  have hbase := Predicate.total_base hs.table
  have hfloat : Predicate.float32Like.Total s.code :=
    (Predicate.total_floatLike hs.table).and (hbase _)
  have hint (signed : Bool) : (Predicate.int32Like signed).Total s.code :=
    ((Predicate.total_intLike hs.table).and (hbase _)).and (hbase _)
  cases shape with
  | float | floatReduce => exact hfloat
  | signedInt => exact hint true
  | unsignedInt => exact hint false
  | cross =>
    exact ((Predicate.total_floatVector hs.table).and hfloat).and
      (Predicate.total_componentCount hs.table 3)

theorem extendedWith_calmly (op : ExtendedOp) : Calmly c s (extendedWith scope op) := by
  refine Settles.typedOperand_bind hs hshows (total_shapeTest hs _)
    fun v ty s₁ q₁ hshows₁ hv hty _ => ?_
  have hothers := Quietly.mapM (fun (_ : Nat) v s' => s'.code.Has v ty ∧ s'.Reads scope v)
    (fun _ _ _ _ q h => ⟨h.1.mono q.later, h.2.after q⟩) q₁.sound
    (fun _ _ s' q => operandOf_quietly q.sound scope ty : ∀ b ∈ List.range (op.shape.arity - 1), _)
  refine Calmly.seq (Calmly.mapM q₁.sound (fun _ _ s' q => operandOf_quietly q.sound scope ty)
    fun _ _ s' q _ => operandOf_calmly q.sound (hshows₁.after q) ty) hothers ?_
  rintro others s₂ q₂ -
  have hrest {s : State ρ} (r : EntryId) : Calmly c s (do
      let set ← build (·.importSet ExtendedOp.setName)
      emit .extInst r (.importSet set :: .extended op :: .value v :: others.map Operand.value)) := by
    refine (Calmly.build ?_).andThen fun _ _ _ => emit_calmly _ _
    unfold Module.importSet
    split
    · exact Nat.le_refl _
    · exact Nat.le_refl _
  dsimp only
  split
  · obtain ⟨base, hbase, _⟩ := Module.baseType_answers q₂.sound.table (hty.mono q₂.table_le)
    exact Settles.query_bind ⟨base, hbase⟩ fun _ _ => hrest _
  · exact hrest _

theorem firstExtended_calmly (ops : List ExtendedOp) : Calmly c s (firstExtended scope ops) := by
  induction ops generalizing s with
  | nil => exact Settles.infeasible
  | cons op ops ih =>
    refine Calmly.bind (Settles.attempt (extendedWith_calmly hs hshows op))
      (extendedWith_leads hs scope op).attempt ?_
    rintro (_ | production) s' ⟨-, hnone⟩ -
    · have q := hnone rfl
      exact ih q.sound (hshows.after q)
    · exact Settles.pure

theorem extended_calmly : Calmly c s (extended scope) := by
  unfold extended
  generalize ExtendedOp.all = ops
  exact Calmly.draw.seq (Quietly.draw hs) fun ops s' q _ =>
    firstExtended_calmly q.sound (hshows.after q) ops

/-! ### Linear algebra -/

theorem matrixOperand_calmly : Calmly c s (matrixOperand scope) := by
  refine Settles.typedOperand_bind hs hshows (Predicate.total_ofTy _)
    fun v ty s₁ q₁ hshows₁ hv hty htest => ?_
  obtain ⟨t, ht⟩ := hty
  refine Settles.query_bind ⟨t, Module.typeAt_eq_ok.mpr ht⟩ fun t _ => ?_
  split
  · exact Settles.pure
  · exact Settles.infeasible

theorem timesScalar_calmly (htest : test.Total s.code) :
    Calmly c s (timesScalar scope op test) := by
  refine Settles.typedOperand_bind hs hshows htest fun v ty s₁ q₁ hshows₁ hv hty _ => ?_
  obtain ⟨base, hbase, _⟩ := Module.baseType_answers q₁.sound.table hty
  refine Settles.query_bind ⟨base, hbase⟩ fun scalar _ => ?_
  exact (operandOf_calmly q₁.sound hshows₁ scalar).andThen fun _ _ _ => emit_calmly _ _

/-- A matrix in front of a step, which learns that its columns have a scalar. -/
theorem Settles.matrixOperand_bind {k : Nat} {f : Value × EntryId × Nat → Gen ρ α}
    (hf : ∀ v column columns s', Quiet c s s' → s'.Shows scope → s'.code.table.HoldsType column →
      (∃ ty scalar rows, s'.code.table.IsMatrix ty column scalar columns rows) →
        Settles k c s' (f (v, column, columns))) :
    Settles k c s (matrixOperand scope >>= f) := by
  refine (matrixOperand_calmly hs hshows).seq (matrixOperand_quietly hs scope) ?_
  rintro ⟨v, column, columns⟩ s' q ⟨ty, scalar, rows, _, hm, _⟩
  exact hf v column columns s' q (hshows.after q) hm.2.lanes.holdsType ⟨ty, scalar, rows, hm⟩

theorem vectorTimesMatrix_calmly : Calmly c s (vectorTimesMatrix scope) := by
  refine Settles.matrixOperand_bind hs hshows fun v column columns s₁ q₁ hshows₁ hcolumn _ => ?_
  refine (operandOf_calmly q₁.sound hshows₁ column).seq
    (operandOf_quietly q₁.sound scope column) ?_
  rintro u s₂ q₂ -
  obtain ⟨base, hbase, _⟩ := Module.baseType_answers q₂.sound.table (hcolumn.mono q₂.table_le)
  refine Settles.query_bind ⟨base, hbase⟩ fun scalar _ => ?_
  exact (Calmly.internType _).andThen fun _ _ _ => emit_calmly _ _

theorem matrixTimesVector_calmly : Calmly c s (matrixTimesVector scope) := by
  refine Settles.matrixOperand_bind hs hshows fun v column columns s₁ q₁ hshows₁ hcolumn hm => ?_
  obtain ⟨ty, scalar, rows, hm⟩ := hm
  have hbase := Module.baseType_of_lanes hm.2.lanes
  refine Settles.query_bind ⟨scalar, hbase⟩ fun scalar' h => ?_
  obtain rfl : scalar = scalar' := Except.ok.inj (hbase.symm.trans h)
  refine (Calmly.internType _).seq (rowType_quietly q₁.sound hm) fun row s₂ q₂ _ => ?_
  exact (operandOf_calmly q₂.sound (hshows₁.after q₂) row).andThen fun _ _ _ => emit_calmly _ _

theorem matrixTimesMatrix_calmly : Calmly c s (matrixTimesMatrix scope) := by
  refine Settles.matrixOperand_bind hs hshows fun v column columns s₁ q₁ hshows₁ hcolumn hm => ?_
  obtain ⟨ty, scalar, rows, hm⟩ := hm
  have hbase := Module.baseType_of_lanes hm.2.lanes
  refine Settles.query_bind ⟨scalar, hbase⟩ fun scalar' h => ?_
  obtain rfl : scalar = scalar' := Except.ok.inj (hbase.symm.trans h)
  refine (Calmly.internType _).seq (rowType_quietly q₁.sound hm) fun row s₂ q₂ _ => ?_
  refine Settles.typedOperand_bind q₂.sound (hshows₁.after q₂) (Predicate.total_ofTy _)
    fun u ty s₃ q₃ hshows₃ hu hty _ => ?_
  refine Settles.query_bind (Module.componentCount_answers q₃.sound.table hty) fun n _ => ?_
  exact (Calmly.internType _).andThen fun _ _ _ => emit_calmly _ _

theorem outerProduct_calmly : Calmly c s (outerProduct scope) := by
  refine Settles.typedOperand_bind hs hshows (Predicate.total_floatVector hs.table)
    fun v column s₁ q₁ hshows₁ hv hcolumn _ => ?_
  obtain ⟨base, hbase, _⟩ := Module.baseType_answers q₁.sound.table hcolumn
  refine Settles.query_bind ⟨base, hbase⟩ fun scalar _ => ?_
  have hbases : Predicate.Total (fun m id => return decide ((← m.baseType id) = scalar))
      s₁.code := by
    intro id hid
    obtain ⟨base, hbase, _⟩ := Module.baseType_answers q₁.sound.table hid
    exact ⟨decide (base = scalar), by simp [hbase, bind, Except.bind, pure, Except.pure]⟩
  refine Settles.typedOperand_bind q₁.sound hshows₁
    ((Predicate.total_floatVector q₁.sound.table).and hbases) fun u row s₂ q₂ hshows₂ hu hrow _ => ?_
  refine Settles.query_bind (Module.componentCount_answers q₂.sound.table hrow) fun n _ => ?_
  exact (Calmly.internType _).andThen fun _ _ _ => emit_calmly _ _

theorem dot_calmly : Calmly c s (dot scope) := by
  refine Settles.typedOperand_bind hs hshows (Predicate.total_floatVector hs.table)
    fun v ty s₁ q₁ hshows₁ hv hty _ => ?_
  refine (operandOf_calmly q₁.sound hshows₁ ty).seq (operandOf_quietly q₁.sound scope ty) ?_
  rintro u s₂ q₂ -
  obtain ⟨base, hbase, _⟩ := Module.baseType_answers q₂.sound.table (hty.mono q₂.table_le)
  exact Settles.query_bind ⟨base, hbase⟩ fun _ _ => emit_calmly _ _

/-! ### Storage -/

omit hshows in
theorem localVariable_calmly : Calmly c s (localVariable : Gen ρ Production) := by
  refine variableType_calmly.seq (variableType_quietly hs) fun ty s₁ q₁ hty => ?_
  refine (newVariable_function_calmly q₁.sound hty).andThen fun v s₂ _ => ?_
  split
  · exact Settles.pure
  · exact Settles.infeasible

theorem load_calmly : Calmly c s (load scope) :=
  (pointerOperand_calmly hs hshows (Predicate.total_ofTy _)).andThen fun _ _ _ => emit_calmly _ _

theorem store_calmly : Calmly c s (store scope) := by
  refine (pointerOperand_calmly hs hshows (Predicate.total_ofTy _)).seq
    (pointerOperand_quietly hs scope _) ?_
  rintro ⟨pointer, storage, pointee⟩ s₁ q₁ -
  refine (operandOf_calmly q₁.sound (hshows.after q₁) pointee).andThen fun _ _ _ => ?_
  exact (Calmly.alloc _).andThen fun _ _ _ => Settles.pure

/-! ### Composites -/

theorem vectorOperand_calmly : Calmly c s (vectorOperand scope) := by
  refine Settles.typedOperand_bind hs hshows (Predicate.total_ofTy _)
    fun v ty s₁ q₁ hshows₁ hv hty htest => ?_
  obtain ⟨t, ht⟩ := hty
  refine Settles.query_bind ⟨t, Module.typeAt_eq_ok.mpr ht⟩ fun t _ => ?_
  split
  · exact Settles.pure
  · exact Settles.infeasible

theorem extractDynamic_calmly : Calmly c s (extractDynamic scope) := by
  refine (vectorOperand_calmly hs hshows).seq (vectorOperand_quietly hs scope) ?_
  rintro ⟨v, ty, element, n⟩ s₁ q₁ -
  exact (operand_calmly q₁.sound (hshows.after q₁) (Predicate.total_ofTy _)).andThen
    fun _ _ _ => emit_calmly _ _

theorem insertDynamic_calmly : Calmly c s (insertDynamic scope) := by
  refine (vectorOperand_calmly hs hshows).seq (vectorOperand_quietly hs scope) ?_
  rintro ⟨v, ty, element, n⟩ s₁ q₁ -
  refine (operandOf_calmly q₁.sound (hshows.after q₁) element).seq
    (operandOf_quietly q₁.sound scope element) ?_
  rintro component s₂ q₂ -
  exact (operand_calmly q₂.sound (hshows.after (q₁.trans q₂)) (Predicate.total_ofTy _)).andThen
    fun _ _ _ => emit_calmly _ _

theorem construct_calmly : Calmly c s (construct scope) := by
  refine (existingType_calmly _).seq (existingType_quietly hs _) ?_
  rintro ty s₁ q₁ ⟨t, ht, _⟩
  have hty : s₁.code.table.HoldsType ty := ⟨t, ht⟩
  refine Settles.query_bind (Module.componentCount_answers q₁.sound.table hty) fun n _ => ?_
  refine Calmly.andThen (Calmly.mapM q₁.sound
    (fun index _ s' q => constructPart_quietly q.sound scope ty index) fun index _ s' q _ => ?_)
    fun _ _ _ => emit_calmly _ _
  refine Settles.query_bind
    (Module.memberType?_answers q.sound.table (hty.mono q.table_le) index) fun part _ => ?_
  refine Calmly.require.seq (Quietly.require (fun _ _ => True) q.sound fun _ _ => trivial)
    fun part s₂ q₂ _ => ?_
  exact (operandOf_calmly q₂.sound (hshows.after (q₁.trans (q.trans q₂))) part).andThen
    fun _ _ _ => Settles.pure

theorem shuffle_calmly : Calmly c s (shuffle scope) := by
  refine (vectorOperand_calmly hs hshows).seq (vectorOperand_quietly hs scope) ?_
  rintro ⟨first, ty, element, j⟩ s₁ q₁ ⟨_, hty, _⟩
  have helement : (vectorOf element).Total s₁.code := by
    refine (Predicate.total_ofTy _).and fun id hid => ?_
    obtain ⟨o, ho⟩ := Module.elementType?_answers hid
    exact ⟨decide (o = some element), by simp [ho, bind, Except.bind, pure, Except.pure]⟩
  refine Settles.typedOperand_bind q₁.sound (hshows.after q₁) helement
    fun second ty' s₂ q₂ _ _ hty' htest => ?_
  -- a vector has two to four components, so a pair has a number that is not zero and fits
  obtain ⟨hvector, _⟩ := Predicate.and_eq_true.mp htest
  obtain ⟨element', k, hvector⟩ := Predicate.isType_of_vector hvector
  have hcount := Module.componentCount_of_arity q₂.sound.table (.vector hvector)
  obtain ⟨⟨_, hk⟩, _⟩ := q₂.sound.table.entry hvector
  obtain ⟨⟨hj, hj'⟩, _⟩ := q₁.sound.table.entry hty
  refine Settles.query_bind ⟨k, hcount⟩ fun k' h => ?_
  obtain rfl : k = k' := Except.ok.inj (hcount.symm.trans h)
  refine (range_calmly 2 4).andThen fun count s₃ _ => ?_
  refine (withComponents_calmly element count).andThen fun r s₄ _ => ?_
  refine Calmly.andThen ?_ fun components s₅ _ => emit_calmly _ _
  have hfits : j + k < Nat.pow 2 32 := by
    have : 4 + 4 < Nat.pow 2 32 := by decide
    dsimp only at hj hj'
    omega
  have hword : Fault.checkWord 32 (j + k) = .ok (j + k) := if_pos hfits
  refine Calmly.each fun _ _ s' => ?_
  refine Settles.checked_bind hword ?_
  rw [if_neg (by dsimp only at hj; omega)]
  exact (range_calmly _ _).andThen fun _ _ _ => Settles.pure

theorem transpose_calmly : Calmly c s (transpose scope) := by
  refine Settles.typedOperand_bind hs hshows (Predicate.total_ofTy _)
    fun v ty s₁ q₁ hshows₁ hv hty _ => ?_
  obtain ⟨t, ht⟩ := hty
  refine Settles.query_bind ⟨t, Module.typeAt_eq_ok.mpr ht⟩ fun t' ht' => ?_
  obtain rfl : t = t' := ht.unique (Module.typeAt_eq_ok.mp ht')
  split
  · rename_i column columns
    obtain ⟨scalar, rows, hm⟩ := Predicate.isMatrix_of_isType q₁.sound.table ht
    refine Settles.query_bind ⟨rows, Module.componentCount_of_lanes hm.2.lanes⟩ fun _ _ => ?_
    refine Settles.query_bind ⟨scalar, Module.baseType_of_lanes hm.2.lanes⟩ fun _ _ => ?_
    refine (withComponents_calmly _ _).andThen fun _ _ _ => ?_
    exact (Calmly.internType _).andThen fun _ _ _ => emit_calmly _ _
  · exact Settles.infeasible

end Searches

/-! ### Paths and components -/

variable [BoundedRandomSource ρ] (hs : s.Sound c)
include hs

theorem randomPart_calmly {ty : EntryId} (hty : s.code.table.HoldsType ty) :
    Calmly c s (randomPart ty : Gen ρ (Nat × EntryId)) := by
  refine Settles.query_bind (Module.componentCount_answers hs.table hty) fun n _ => ?_
  refine (range_calmly 0 (n - 1)).seq (range_quietly hs (Nat.zero_le _)) fun index s₁ q₁ _ => ?_
  refine Settles.query_bind
    (Module.memberType?_answers q₁.sound.table (hty.mono q₁.table_le) index) fun _ _ => ?_
  exact Calmly.require.andThen fun _ _ _ => Settles.pure

theorem constantPath_calmly (levels : Nat) {ty : EntryId} (hty : s.code.table.HoldsType ty) :
    Calmly c s (constantPath levels ty : Gen ρ (List EntryId × EntryId)) := by
  induction levels generalizing s ty with
  | zero => exact Settles.pure
  | succ levels ih =>
    obtain ⟨t, ht⟩ := id hty
    refine Settles.query_bind ⟨t, Module.typeAt_eq_ok.mpr ht⟩ fun t _ => ?_
    split
    · refine (randomPart_calmly hs hty).seq (randomPart_quietly hs ty) ?_
      rintro ⟨index, part⟩ s₁ q₁ hpart
      have hlt := hpart.lt q₁.sound.table
      refine (indexConstant_calmly index).seq (indexConstant_quietly q₁.sound (by omega))
        fun constant s₂ q₂ _ => ?_
      exact (ih q₂.sound ((hpart.holdsType q₁.sound.table).mono q₂.table_le)).andThen
        fun _ _ _ => Settles.pure
    · exact Settles.pure

theorem literalPath_calmly (levels : Nat) {ty : EntryId} (hty : s.code.table.HoldsType ty) :
    Calmly c s (literalPath levels ty : Gen ρ (List Nat × EntryId)) := by
  induction levels generalizing s ty with
  | zero => exact Settles.pure
  | succ levels ih =>
    obtain ⟨t, ht⟩ := id hty
    refine Settles.query_bind ⟨t, Module.typeAt_eq_ok.mpr ht⟩ fun t _ => ?_
    split
    · refine (randomPart_calmly hs hty).seq (randomPart_quietly hs ty) ?_
      rintro ⟨index, part⟩ s₁ q₁ hpart
      exact (ih q₁.sound (hpart.holdsType q₁.sound.table)).andThen fun _ _ _ => Settles.pure
    · exact Settles.pure

variable (hshows : s.Shows scope)
include hshows

theorem accessChain_calmly : Calmly c s (accessChain scope) := by
  refine (pointerOperand_calmly hs hshows (Predicate.total_ofTy _)).seq
    (pointerOperand_quietly hs scope _) ?_
  rintro ⟨base, storage, pointee⟩ s₁ q₁ ⟨_, _, _, htest, _⟩
  obtain ⟨t, ht, _⟩ := Predicate.ofTy_eq_true.mp htest
  refine (range_calmly 1 2).seq (range_quietly q₁.sound (by decide)) fun levels s₂ q₂ _ => ?_
  refine (constantPath_calmly q₂.sound levels ⟨t, q₂.table_le ht⟩).andThen fun path s₃ _ => ?_
  exact (Calmly.internType _).andThen fun _ _ _ => emit_calmly _ _

theorem extract_calmly : Calmly c s (extract scope) := by
  refine Settles.typedOperand_bind hs hshows (Predicate.total_ofTy _)
    fun v ty s₁ q₁ hshows₁ hv hty _ => ?_
  refine (range_calmly 1 2).seq (range_quietly q₁.sound (by decide)) fun levels s₂ q₂ _ => ?_
  exact (literalPath_calmly q₂.sound levels (hty.mono q₂.table_le)).andThen
    fun _ _ _ => emit_calmly _ _

theorem insert_calmly : Calmly c s (insert scope) := by
  refine Settles.typedOperand_bind hs hshows (Predicate.total_ofTy _)
    fun v ty s₁ q₁ hshows₁ hv hty _ => ?_
  refine (range_calmly 1 2).seq (range_quietly q₁.sound (by decide)) fun levels s₂ q₂ _ => ?_
  obtain ⟨t, ht⟩ := hty.mono q₂.table_le
  refine (literalPath_calmly q₂.sound levels ⟨t, ht⟩).seq (literalPath_quietly levels q₂.sound ht) ?_
  rintro ⟨path, part⟩ s₃ q₃ -
  exact (operandOf_calmly q₃.sound (hshows₁.after (q₂.trans q₃)) part).andThen
    fun _ _ _ => emit_calmly _ _

/-! ### Statements of any kind but selections -/

theorem variantWith_calmly (arm : Option (ScopeId → Gen ρ Block)) {recipe : Recipe}
    (hop : op.recipe? = some recipe) (hne : recipe ≠ .selection) :
    Calmly c s (variantWith arm scope op) := by
  unfold variantWith
  rw [hop]
  cases recipe with
  | selection => exact absurd rfl hne
  | localVariable => exact localVariable_calmly hs
  | load => exact load_calmly hs hshows
  | store => exact store_calmly hs hshows
  | accessChain => exact accessChain_calmly hs hshows
  | unary test => exact unary_calmly hs hshows (Recipe.total_of_test? hs.table hop rfl)
  | binary test => exact binary_calmly hs hshows (Recipe.total_of_test? hs.table hop rfl)
  | shift => exact shift_calmly hs hshows
  | reduceBool => exact reduceBool_calmly hs hshows
  | floatTest => exact floatTest_calmly hs hshows
  | compare test => exact compare_calmly hs hshows hop
  | select => exact select_calmly hs hshows
  | timesScalar test => exact timesScalar_calmly hs hshows (Recipe.total_of_test? hs.table hop rfl)
  | vectorTimesMatrix => exact vectorTimesMatrix_calmly hs hshows
  | matrixTimesVector => exact matrixTimesVector_calmly hs hshows
  | matrixTimesMatrix => exact matrixTimesMatrix_calmly hs hshows
  | outerProduct => exact outerProduct_calmly hs hshows
  | dot => exact dot_calmly hs hshows
  | conversion => exact conversion_calmly hs hshows
  | extractDynamic => exact extractDynamic_calmly hs hshows
  | insertDynamic => exact insertDynamic_calmly hs hshows
  | shuffle => exact shuffle_calmly hs hshows
  | construct => exact construct_calmly hs hshows
  | extract => exact extract_calmly hs hshows
  | insert => exact insert_calmly hs hshows
  | transpose => exact transpose_calmly hs hshows
  | extended => exact extended_calmly hs hshows

end ShaderGen.Gen
