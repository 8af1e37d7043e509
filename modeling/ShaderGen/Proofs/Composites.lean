import ShaderGen.Proofs.Elementwise
import ShaderGen.Proofs.Memory
import ShaderGen.Statement.Composite

/-!
Taking composites apart and putting them together keeps the typing rules. Indices
are drawn below the number of parts, so every path leads to a part; a composite is
made of a value for each of its parts.
-/

namespace ShaderGen

/-- A list all of whose members are images is the image of a list. -/
theorem exists_map_eq {α β : Type} {P : α → Prop} {f : α → β} (bs : List β)
    (h : ∀ b ∈ bs, ∃ a, b = f a ∧ P a) : ∃ as : List α, bs = as.map f ∧ ∀ a ∈ as, P a := by
  induction bs with
  | nil => exact ⟨[], rfl, by simp⟩
  | cons b bs ih =>
    obtain ⟨a, rfl, ha⟩ := h b (by simp)
    obtain ⟨as, rfl, has⟩ := ih fun b hb => h b (by simp [hb])
    exact ⟨a :: as, rfl, by simpa using ⟨ha, has⟩⟩

namespace Gen

variable {ρ : Type} [RandomSource ρ] {c : Config} {s : State ρ}

theorem vectorOperand_quietly (hs : s.Sound c) (scope : ScopeId) :
    Quietly c s (vectorOperand scope) fun x s' => s'.code.Has x.1 x.2.1 ∧
      s'.code.table.IsType x.2.1 (.vector x.2.2.1 x.2.2.2) ∧ s'.Reads scope x.1 := by
  refine (typedOperand_quietly hs scope _).seq ?_
  rintro ⟨v, ty⟩ s₁ q₁ ⟨hv, _, hreads⟩
  refine (Quietly.typeAt q₁.sound _).seq ?_
  rintro t s₁ - ⟨rfl, ht⟩
  cases t with
  | vector element n => exact .pure q₁.sound ⟨hv, ht, hreads⟩
  | _ => exact .infeasible q₁.sound

/-! ### Dynamic indices -/

theorem extractDynamic_leads (hs : s.Sound c) (scope : ScopeId) :
    Leads c s (extractDynamic scope) (Produces c scope) := by
  refine (vectorOperand_quietly hs scope).lead rebases_produces ?_
  rintro ⟨v, ty, element, n⟩ s₁ q₁ ⟨hv, hty, hreads⟩
  refine (operand_quietly q₁.sound scope _).lead rebases_produces ?_
  rintro index s₂ q₂ ⟨ity, hindex, htest, hreads'⟩
  obtain ⟨width, signed, hity⟩ := Predicate.isType_of_int htest
  exact apply_leads q₂.sound [v, index] (.cons (hv.mono q₂.later) (.cons hindex .nil))
    (by simpa using ⟨hreads.after q₂, hreads'⟩) (.extractDynamic (q₂.table_le hty) hity)

theorem insertDynamic_leads (hs : s.Sound c) (scope : ScopeId) :
    Leads c s (insertDynamic scope) (Produces c scope) := by
  refine (vectorOperand_quietly hs scope).lead rebases_produces ?_
  rintro ⟨v, ty, element, n⟩ s₁ q₁ ⟨hv, hty, hreads⟩
  refine (operandOf_quietly q₁.sound scope element).lead rebases_produces ?_
  rintro component s₂ q₂ ⟨hcomponent, hreads'⟩
  refine (operand_quietly q₂.sound scope _).lead rebases_produces ?_
  rintro index s₃ q₃ ⟨ity, hindex, htest, hreads''⟩
  obtain ⟨width, signed, hity⟩ := Predicate.isType_of_int htest
  have q := q₂.trans q₃
  exact apply_leads q₃.sound [v, component, index]
    (.cons (hv.mono q.later) (.cons (hcomponent.mono q₃.later) (.cons hindex .nil)))
    (by simpa using ⟨hreads.after q, hreads'.after q₃, hreads''⟩)
    (.insertDynamic (q.table_le hty) hity)

/-! ### Construction -/

/-- Values and their types out of what is known of each operand. -/
theorem exists_values {m : Module} {P : Value → Prop} {Q : Nat → EntryId → Prop}
    {operands : List Operand}
    (h : ∀ i o, operands[i]? = some o → ∃ v ty, o = .value v ∧ m.Has v ty ∧ P v ∧ Q i ty) :
    ∃ args tys, operands = args.map .value ∧ List.Forall₂ m.Has args tys ∧ (∀ v ∈ args, P v) ∧
      ∀ i ty, tys[i]? = some ty → Q i ty := by
  induction operands generalizing Q with
  | nil => exact ⟨[], [], rfl, .nil, by simp, by simp⟩
  | cons o os ih =>
    obtain ⟨v, ty, rfl, hv, hp, hq⟩ := h 0 o rfl
    obtain ⟨args, tys, rfl, hargs, hps, hqs⟩ := @ih (fun i ty => Q (i + 1) ty)
      fun i o ho => h (i + 1) o ho
    refine ⟨v :: args, ty :: tys, rfl, .cons hv hargs, by simpa using ⟨hp, hps⟩, ?_⟩
    rintro (_ | i) ty' hty
    · cases hty
      exact hq
    · exact hqs i ty' hty

/-- A value for a part of a type. -/
theorem constructPart_quietly (hs : s.Sound c) (scope : ScopeId) (ty : EntryId) (index : Nat) :
    Quietly c s (do
      let part ← require (← query (·.memberType? ty index))
      return Operand.value (← operandOf scope part)) fun o s' => ∃ v part, o = .value v ∧
        s'.code.Has v part ∧ s'.Reads scope v ∧ s'.code.table.Part ty index part := by
  refine .part hs fun part hpart => ?_
  refine (operandOf_quietly hs scope part).seq fun v s' q hv => .pure q.sound ?_
  exact ⟨v, part, rfl, hv.1, hv.2, hpart.mono q.table_le⟩

theorem construct_leads (hs : s.Sound c) (scope : ScopeId) :
    Leads c s (construct scope) (Produces c scope) := by
  refine (existingType_quietly hs _).lead rebases_produces ?_
  rintro ty s₁ q₁ ⟨t, ht, hcomposite⟩
  refine (Quietly.query q₁.sound).lead rebases_produces ?_
  rintro count s₁ - ⟨rfl, hcount⟩
  have harity := Module.arity_of_componentCount q₁.sound.table ht hcomposite hcount
  refine (Quietly.mapM (fun index o s' => ∃ v part, o = .value v ∧ s'.code.Has v part ∧
    s'.Reads scope v ∧ s'.code.table.Part ty index part) ?_ q₁.sound
    fun index _ s' q => constructPart_quietly q.sound scope ty index).lead rebases_produces
      fun parts s₂ q₂ hparts => ?_
  · rintro index o s s' q ⟨v, part, ho, hv, hreads, hpart⟩
    exact ⟨v, part, ho, hv.mono q.later, hreads.after q, hpart.mono q.table_le⟩
  · obtain ⟨hlength, hparts⟩ := forall₂_range hparts
    obtain ⟨args, tys, rfl, hargs, hreads, htys⟩ := exists_values hparts
    have htysLength : tys.length = count := by
      rw [← hargs.length_eq, ← hlength, List.length_map]
    exact apply_leads q₂.sound args hargs hreads
      (.construct (htysLength ▸ harity.mono q₂.table_le) htys)

section Bounded

variable [BoundedRandomSource ρ]

theorem shuffle_leads (hs : s.Sound c) (scope : ScopeId) :
    Leads c s (shuffle scope) (Produces c scope) := by
  refine (vectorOperand_quietly hs scope).lead rebases_produces ?_
  rintro ⟨first, ty, element, j⟩ s₁ q₁ ⟨hfirst, hty, hreads⟩
  refine (typedOperand_quietly q₁.sound scope _).lead rebases_produces ?_
  rintro ⟨second, ty'⟩ s₂ q₂ ⟨hsecond, htest, hreads'⟩
  obtain ⟨k, hty'⟩ : ∃ k, s₂.code.table.IsType ty' (.vector element k) := by
    obtain ⟨hvector, helement⟩ := Predicate.and_eq_true.mp htest
    obtain ⟨element', k, hty'⟩ := Predicate.isType_of_vector hvector
    simp [Module.elementType?, Module.typeAt_eq_ok.mpr hty', bind, Except.bind, pure,
      Except.pure] at helement
    exact ⟨k, helement ▸ hty'⟩
  have hcount := Module.componentCount_of_arity q₂.sound.table (.vector hty')
  refine (Quietly.answer q₂.sound hcount).lead rebases_produces ?_
  rintro _ s₂ - ⟨rfl, rfl⟩
  refine (range_quietly q₂.sound (by decide)).lead rebases_produces fun n s₃ q₃ hn => ?_
  have hty₃ := (q₂.trans q₃).table_le hty
  obtain ⟨_, helement⟩ := q₃.sound.table.entry hty₃
  refine (withComponents_quietly q₃.sound helement (by omega)).lead rebases_produces
    fun r s₄ q₄ hr => ?_
  -- Components count through both vectors; there are some, so one can be drawn.
  have hcomponent (s : State ρ) (hs : s.Sound c) : Quietly c s (do
      let all ← checked (Fault.checkWord 32 (j + k))
      if all = 0 then fault .overflow
      return Operand.literal (← range 0 (all - 1))) fun o _ => ∃ i, o = .literal i ∧ i < j + k := by
    refine (Quietly.checked (fun all s' => s' = s ∧ all = j + k) hs fun all hall => ?_).seq ?_
    · unfold Fault.checkWord at hall
      split at hall <;> cases hall
      exact ⟨rfl, rfl⟩
    · rintro all s - ⟨rfl, rfl⟩
      split
      · exact .fault hs
      · refine (range_quietly hs (by omega)).seq fun i s' q hi => .pure q.sound ⟨i, rfl, ?_⟩
        omega
  refine (Quietly.mapM (fun (_ : Nat) (o : Operand) (_ : State ρ) =>
    ∃ i, o = .literal i ∧ i < j + k) (fun _ _ _ _ _ h => h) q₄.sound
    fun _ _ s' q => hcomponent s' q.sound).lead rebases_produces
      fun components s₅ q₅ hcomponents => ?_
  obtain ⟨hlength, hcomponents⟩ := forall₂_range hcomponents
  obtain ⟨literals, rfl, hliterals⟩ := exists_map_eq components fun o ho => by
    obtain ⟨i, hi⟩ := List.mem_iff_getElem?.mp ho
    exact hcomponents i o hi
  have q := q₃.trans (q₄.trans q₅)
  have hr₅ := q₅.table_le (hr.isVector (by omega))
  refine emit_leads q₅.sound (.shuffle (hfirst.mono (q₂.trans q).later) (hsecond.mono q.later)
    ((q₂.trans q).table_le hty) (q.table_le hty') ?_ hliterals) rfl fun v hv => ?_
  · rw [List.length_map] at hlength
    rw [hlength]
    exact hr₅
  · simp at hv
    rcases hv with rfl | rfl
    · exact hreads.after (q₂.trans q)
    · exact hreads'.after q

/-! ### Literal paths -/

/-- Indices that lead along parts, one level at least into a composite. -/
theorem literalPath_quietly (levels : Nat) (hs : s.Sound c) {ty : EntryId} {t : Ty}
    (ht : s.code.table.IsType ty t) :
    Quietly c s (literalPath levels ty) fun x s' => s'.code.table.Path ty x.1 x.2 ∧
      (levels ≠ 0 → t.isComposite = true → x.1 ≠ []) := by
  induction levels generalizing s ty t with
  | zero => exact .pure hs ⟨.nil, by simp⟩
  | succ levels ih =>
    refine (Quietly.typeAt hs _).seq ?_
    rintro t' s - ⟨rfl, ht'⟩
    obtain rfl := ht.unique ht'
    split
    · refine (randomPart_quietly hs ty).seq ?_
      rintro ⟨index, part⟩ s₁ q₁ hpart
      obtain ⟨pt, hpt, _⟩ := hpart.isData q₁.sound.table
      refine (ih q₁.sound hpt).seq ?_
      rintro ⟨path, target⟩ s₂ q₂ ⟨hpath, _⟩
      exact .pure q₂.sound ⟨.cons (hpart.mono q₂.table_le) hpath, by simp⟩
    · rename_i hnot
      exact .pure hs ⟨.nil, fun _ hc => absurd hc hnot⟩

omit [RandomSource ρ] [BoundedRandomSource ρ] in
/-- Values are read in front of literals. -/
theorem reads_literals {scope : ScopeId} {path : List Nat} (vs : List Value)
    (h : ∀ v ∈ vs, s.Reads scope v) :
    ∀ v, Operand.value v ∈ vs.map Operand.value ++ path.map Operand.literal → s.Reads scope v := by
  intro v hv
  rcases List.mem_append.mp hv with hv | hv
  · obtain ⟨u, hu, huv⟩ := List.mem_map.mp hv
    cases huv
    exact h _ hu
  · obtain ⟨_, _, h⟩ := List.mem_map.mp hv
    cases h

theorem extract_leads (hs : s.Sound c) (scope : ScopeId) :
    Leads c s (extract scope) (Produces c scope) := by
  refine (typedOperand_quietly hs scope _).lead rebases_produces ?_
  rintro ⟨v, ty⟩ s₁ q₁ ⟨hv, htest, hreads⟩
  obtain ⟨t, ht, hcomposite⟩ := Predicate.ofTy_eq_true.mp htest
  refine (range_quietly q₁.sound (by decide)).lead rebases_produces fun levels s₂ q₂ hlevels => ?_
  refine (literalPath_quietly levels q₂.sound (q₂.table_le ht)).lead rebases_produces ?_
  rintro ⟨path, part⟩ s₃ q₃ ⟨hpath, hne⟩
  have q := q₂.trans q₃
  exact emit_leads q₃.sound (.extract (hv.mono q.later) (hne (by omega) hcomposite) hpath) rfl
    (reads_literals [v] (by simpa using hreads.after q))

theorem insert_leads (hs : s.Sound c) (scope : ScopeId) :
    Leads c s (insert scope) (Produces c scope) := by
  refine (typedOperand_quietly hs scope _).lead rebases_produces ?_
  rintro ⟨v, ty⟩ s₁ q₁ ⟨hv, htest, hreads⟩
  obtain ⟨t, ht, hcomposite⟩ := Predicate.ofTy_eq_true.mp htest
  refine (range_quietly q₁.sound (by decide)).lead rebases_produces fun levels s₂ q₂ hlevels => ?_
  refine (literalPath_quietly levels q₂.sound (q₂.table_le ht)).lead rebases_produces ?_
  rintro ⟨path, part⟩ s₃ q₃ ⟨hpath, hne⟩
  refine (operandOf_quietly q₃.sound scope part).lead rebases_produces ?_
  rintro object s₄ q₄ ⟨hobject, hreads'⟩
  have q := q₂.trans (q₃.trans q₄)
  exact emit_leads q₄.sound (.insert hobject (hv.mono q.later) (hne (by omega) hcomposite)
    (hpath.mono q₄.table_le)) rfl
    (reads_literals [object, v] (by simpa using ⟨hreads', hreads.after q⟩))

end Bounded

theorem transpose_leads (hs : s.Sound c) (scope : ScopeId) :
    Leads c s (transpose scope) (Produces c scope) := by
  refine (typedOperand_quietly hs scope _).lead rebases_produces ?_
  rintro ⟨a, ty⟩ s₁ q₁ ⟨ha, _, hreads⟩
  refine (Quietly.typeAt q₁.sound _).lead rebases_produces ?_
  rintro t s₁ - ⟨rfl, ht⟩
  cases t with
  | matrix column columns =>
    obtain ⟨scalar, rows, hm⟩ := Predicate.isMatrix_of_isType q₁.sound.table ht
    have hrows := Module.componentCount_of_lanes hm.2.lanes
    refine (Quietly.answer q₁.sound hrows).lead rebases_produces ?_
    rintro _ s₁ - ⟨rfl, rfl⟩
    refine (Quietly.answer q₁.sound (Module.baseType_of_lanes hm.2.lanes)).lead rebases_produces ?_
    rintro _ s₁ - ⟨rfl, rfl⟩
    obtain ⟨hcolumns, _⟩ := q₁.sound.table.entry ht
    obtain ⟨hrows, _⟩ := q₁.sound.table.entry hm.2.1
    refine (withComponents_quietly q₁.sound hm.2.lanes.isOf (by omega)).lead rebases_produces
      fun column' s₂ q₂ hcolumn' => ?_
    obtain ⟨_, width, hwidth⟩ := hm.2
    have hcol : s₂.code.table.IsFloatVector column' scalar columns :=
      ⟨hcolumn'.isVector hcolumns.1, width, q₂.table_le hwidth⟩
    refine (Quietly.internType q₂.sound (.matrix column' rows) ⟨hrows, scalar, columns, hcol⟩).lead
      rebases_produces fun r s₃ q₃ hr => ?_
    have q := q₂.trans q₃
    exact apply_leads q₃.sound [a] (.cons (ha.mono q.later) .nil) (by simpa using hreads.after q)
      (.transpose (hm.mono q.table_le) ⟨hr, hcol.mono q₃.table_le⟩)
  | _ => exact Quiet.refl q₁.sound

end Gen

end ShaderGen
