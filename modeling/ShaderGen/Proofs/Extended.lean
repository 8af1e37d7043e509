import ShaderGen.Proofs.Elementwise
import ShaderGen.Statement.Extended

/-!
Extended instructions keep their typing rules: all operands have the type of the
first, which has the shape the instruction asks for, and the set is imported.
-/

namespace ShaderGen

/-- The result type of an extended instruction on operands of one type. -/
theorem extendedYields_of_test {c : Config} {m : Module} (hwf : m.table.WellFormed c)
    {op : ExtendedOp} {ty : EntryId} (h : op.shape.test m ty = .ok true) :
    ∃ r, (if op.shape.reduces then ∃ n, m.table.Lanes ty r n else r = ty) ∧
      m.table.ExtendedYields op (List.replicate op.shape.arity ty) r := by
  have hfloat (h : Predicate.float32Like m ty = .ok true) : ∃ scalar n,
      m.table.Lanes ty scalar n ∧ m.table.IsType scalar (.float 32) := by
    obtain ⟨hlike, hwidth⟩ := Predicate.and_eq_true.mp h
    obtain ⟨n, width, scalar, hl, hs⟩ := Predicate.floatLanes_of_floatLike hwf hlike
    cases Predicate.width_of_lanes hl hs hwidth
    exact ⟨scalar, n, hl, hs⟩
  have hint {signed : Bool} (h : Predicate.int32Like signed m ty = .ok true) :
      ∃ n, m.table.IntLanes ty n 32 signed := by
    obtain ⟨h, hbase⟩ := Predicate.and_eq_true.mp h
    obtain ⟨hlike, hwidth⟩ := Predicate.and_eq_true.mp h
    obtain ⟨n, width, signed', scalar, hl, hs⟩ := Predicate.intLanes_of_intLike hwf hlike
    cases Predicate.width_of_lanes hl hs hwidth
    obtain ⟨t, ht, hsigned⟩ := Predicate.base_of_lanes hl hbase
    obtain rfl := hs.unique ht
    cases Option.some.inj (beq_iff_eq.mp hsigned)
    exact ⟨n, scalar, hl, hs⟩
  cases hshape : op.shape with
  | float arity =>
    rw [hshape] at h
    obtain ⟨scalar, n, hl, hs⟩ := hfloat h
    exact ⟨ty, rfl, .float hshape ⟨scalar, hl, hs⟩⟩
  | signedInt arity =>
    rw [hshape] at h
    obtain ⟨n, hi⟩ := hint h
    exact ⟨ty, rfl, .signedInt hshape hi⟩
  | unsignedInt arity =>
    rw [hshape] at h
    obtain ⟨n, hi⟩ := hint h
    exact ⟨ty, rfl, .unsignedInt hshape hi⟩
  | floatReduce arity =>
    rw [hshape] at h
    obtain ⟨scalar, n, hl, hs⟩ := hfloat h
    exact ⟨scalar, ⟨n, hl⟩, .floatReduce hshape hl hs⟩
  | cross =>
    rw [hshape] at h
    replace h : Predicate.float32Triple m ty = .ok true := h
    obtain ⟨h, hthree⟩ := Predicate.and_eq_true.mp h
    obtain ⟨hvector, hlike⟩ := Predicate.and_eq_true.mp h
    obtain ⟨scalar, n, hl, hs⟩ := hfloat hlike
    have hn := Predicate.componentCount_eq_true hthree
    rw [Module.componentCount_of_lanes hl] at hn
    cases hn
    exact ⟨ty, rfl, .cross hshape (hl.isVector (by decide)) hs⟩

namespace Gen

variable {ρ : Type} [RandomSource ρ] {c : Config} {s : State ρ}

theorem extendedWith_leads (hs : s.Sound c) (scope : ScopeId) (op : ExtendedOp) :
    Leads c s (extendedWith scope op) (Produces c scope) := by
  refine (typedOperand_quietly hs scope _).lead rebases_produces ?_
  rintro ⟨first, ty⟩ s₁ q₁ ⟨hfirst, htest, hreads⟩
  obtain ⟨r, hr, hyields⟩ := extendedYields_of_test q₁.sound.table htest
  refine (Quietly.mapM (fun _ v s' => s'.code.Has v ty ∧ s'.Reads scope v)
    (fun _ _ _ _ q h => ⟨h.1.mono q.later, h.2.after q⟩) q₁.sound
    fun _ _ s' q => operandOf_quietly q.sound scope ty).lead rebases_produces
    fun others s₂ q₂ hothers => ?_
  obtain ⟨hlength, hothers⟩ := forall₂_range hothers
  have hrest (s₃ : State ρ) (q₃ : Quiet c s₂ s₃) : Leads c s₃ (do
      let set ← build (·.importSet ExtendedOp.setName)
      emit .extInst r (.importSet set :: .extended op :: .value first :: others.map Operand.value))
      (Produces c scope) := by
    refine (Quietly.importSet q₃.sound).lead rebases_produces fun set s₄ q₄ hset => ?_
    have q := q₃.trans q₄
    -- The first operand was found before the others and before the set was imported.
    have hvalues : ∀ v ∈ first :: others, s₄.code.Has v ty ∧ s₄.Reads scope v := by
      intro v hv
      rcases List.mem_cons.mp hv with rfl | hv
      · exact ⟨hfirst.mono (q₂.trans q).later, hreads.after (q₂.trans q)⟩
      · obtain ⟨i, hi⟩ := List.mem_iff_getElem?.mp hv
        exact ⟨(hothers i v hi).1.mono q.later, (hothers i v hi).2.after q⟩
    have hargs : List.Forall₂ s₄.code.Has (first :: others)
        (List.replicate op.shape.arity ty) := by
      have hpos : 1 ≤ op.shape.arity := by cases op <;> decide
      refine List.forall₂_iff_get.mpr ⟨by simp; omega, fun i hi hi' => ?_⟩
      simpa using (hvalues _ (List.getElem_mem hi)).1
    refine emit_leads q₄.sound
      (@Module.Typed.extended _ _ _ (first :: others) _ _ hset hargs
        (hyields.mono (q₂.trans q).table_le)) rfl fun v hv => ?_
    have hmem : Operand.value v ∈ (first :: others).map Operand.value := by simpa using hv
    obtain ⟨u, hu, huv⟩ := List.mem_map.mp hmem
    cases huv
    exact (hvalues _ hu).2
  dsimp only
  split at hr <;> rename_i hreduces
  · rw [if_pos hreduces]
    obtain ⟨n, hl⟩ := hr
    have hscalar := Module.baseType_of_lanes (hl.mono q₂.table_le)
    refine (Quietly.answer q₂.sound hscalar).lead rebases_produces ?_
    rintro _ s₂ - ⟨rfl, rfl⟩
    exact hrest s₂ (.refl q₂.sound)
  · rw [if_neg hreduces]
    subst hr
    exact hrest s₂ (.refl q₂.sound)

/-- The first instruction whose operands are found does what each of them does. -/
theorem firstExtended_leads (scope : ScopeId) (ops : List ExtendedOp) (hs : s.Sound c) :
    Leads c s (firstExtended scope ops) (Produces c scope) := by
  induction ops generalizing s with
  | nil => exact Quiet.refl hs
  | cons op ops ih =>
    refine Ends.bind (Ends.attempt (Ends.mono (extendedWith_leads hs scope op) ?_ ?_))
    · exact fun p s' hp => hp
    · rintro (_ | cause) s' he
      · exact Ends.mono (ih he.sound) (fun _ _ hp => rebases_produces he hp)
          fun _ _ he' => he'.after he
      · exact he

theorem extended_leads (hs : s.Sound c) (scope : ScopeId) :
    Leads c s (extended scope) (Produces c scope) := by
  unfold extended
  -- the order does not matter, nor does what is put in order
  generalize ExtendedOp.all = ops
  exact (Quietly.draw hs).lead rebases_produces fun ops _ q _ =>
    firstExtended_leads scope ops q.sound

end Gen

end ShaderGen
