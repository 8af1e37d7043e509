import ShaderGen.Proofs.Elementwise
import ShaderGen.Statement.Conversion

/-!
Conversions keep their typing rules: the components are counted once, and the new
scalar type is one the opcode makes of the old one.
-/

namespace ShaderGen

/-- What a conversion may be applied to has a scalar of the signedness its opcode
asks for. -/
theorem lanes_of_conversionTest {c : Config} {m : Module} (hwf : m.table.WellFormed c)
    {op : Opcode} {ty : EntryId} (h : op.conversionTest m ty = .ok true) :
    ∃ scalar n t, m.table.Lanes ty scalar n ∧ m.table.IsType scalar t ∧
      ∀ signed, t.signed? = some signed → op.Admits signed := by
  have hfloat (h : Predicate.floatLike m ty = .ok true) : ∃ scalar n t,
      m.table.Lanes ty scalar n ∧ m.table.IsType scalar t ∧
        ∀ signed, t.signed? = some signed → op.Admits signed := by
    obtain ⟨n, width, scalar, hl, hs⟩ := Predicate.floatLanes_of_floatLike hwf h
    exact ⟨scalar, n, _, hl, hs, fun _ hsigned => by cases hsigned⟩
  unfold Opcode.conversionTest at h
  split at h
  · exact hfloat h
  · exact hfloat h
  · exact hfloat h
  · rcases Predicate.or_eq_true h with h | h
    · obtain ⟨n, width, signed, scalar, hl, hs⟩ := Predicate.intLanes_of_intLike hwf h
      exact ⟨scalar, n, _, hl, hs, fun _ _ _ hasked => by cases hasked⟩
    · exact hfloat h
  · obtain ⟨n, width, signed, ⟨scalar, hl, hs⟩, hadmits⟩ := Predicate.intLanes_of_intLikeFor hwf h
    refine ⟨scalar, n, _, hl, hs, fun signed' hsigned => ?_⟩
    cases hsigned
    exact hadmits

namespace Gen

variable {ρ : Type} [RandomSource ρ] {c : Config} {s : State ρ}

/-- A width of a list other than a given one. -/
theorem otherWidth_quietly (hs : s.Sound c) (widths : List Nat) (width : Nat) :
    Quietly c s (pick (widths.filter (· != width))) fun w _ => w ∈ widths ∧ w ≠ width :=
  (pick_quietly hs _).mono fun w s' q hw => by simpa using hw.1

theorem convertedScalar_quietly (hs : s.Sound c) {op : Opcode} {source : Ty}
    (hsource : source.WellFormed c s.code.table)
    (hsigned : ∀ signed, source.signed? = some signed → op.Admits signed) :
    Quietly c s (convertedScalar op source) fun target s' =>
      target.WellFormed c s'.code.table ∧ target.opcode ∈ Category.scalarType.members ∧
        op.Converts source target := by
  have hint {width : Nat} {signed : Bool} :
      (Ty.int width signed).opcode ∈ Category.scalarType.members := by
    simp [Ty.opcode, Category.members]
  have hfloat {width : Nat} : (Ty.float width).opcode ∈ Category.scalarType.members := by
    simp [Ty.opcode, Category.members]
  unfold convertedScalar
  split
  · refine (intWidth_quietly hs).seq fun w s₁ q₁ hw => .pure q₁.sound ?_
    exact ⟨.inl hw, hint, .floatToInt (by decide) rfl⟩
  · refine (intWidth_quietly hs).seq fun w s₁ q₁ hw => .pure q₁.sound ?_
    exact ⟨.inl hw, hint, .floatToInt (by decide) rfl⟩
  · refine (floatWidth_quietly hs).seq fun w s₁ q₁ hw => .pure q₁.sound ?_
    cases hsigned _ rfl true rfl
    exact ⟨hw, hfloat, .intToFloat (by decide) rfl⟩
  · refine (floatWidth_quietly hs).seq fun w s₁ q₁ hw => .pure q₁.sound ?_
    cases hsigned _ rfl false rfl
    exact ⟨hw, hfloat, .intToFloat (by decide) rfl⟩
  · refine (Quietly.read hs).seq ?_
    rintro _ s - ⟨rfl, rfl⟩
    refine (otherWidth_quietly hs _ _).seq fun w s₁ q₁ hw => .pure q₁.sound ?_
    cases hsigned _ rfl false rfl
    exact ⟨.inl hw.1, hint, .intResize (by decide) rfl hw.2⟩
  · refine (Quietly.read hs).seq ?_
    rintro _ s - ⟨rfl, rfl⟩
    refine (otherWidth_quietly hs _ _).seq fun w s₁ q₁ hw => .pure q₁.sound ?_
    cases hsigned _ rfl true rfl
    exact ⟨.inl hw.1, hint, .intResize (by decide) rfl hw.2⟩
  · refine (Quietly.read hs).seq ?_
    rintro _ s - ⟨rfl, rfl⟩
    refine (otherWidth_quietly hs _ _).seq fun w s₁ q₁ hw => .pure q₁.sound ?_
    exact ⟨hw.1, hfloat, .floatResize hw.2⟩
  · rename_i width signed
    have hflip {s' : State ρ} (hs' : s'.Sound c) : Quietly c s' (pure (Ty.int width !signed))
        fun target s'' => target.WellFormed c s''.code.table ∧
          target.opcode ∈ Category.scalarType.members ∧
            Opcode.Converts .bitcast (.int width signed) target :=
      .pure hs' ⟨hsource, hint, .bitcast rfl rfl (by simp)⟩
    refine (Quietly.read hs).seq ?_
    rintro _ s - ⟨rfl, rfl⟩
    split
    · rename_i hwidth
      refine (chance_quietly hs _).seq fun _ s₁ q₁ _ => ?_
      split
      · have hmem := List.contains_iff_mem.mp hwidth
        exact .pure q₁.sound ⟨hmem, hfloat, .bitcast rfl rfl (by simp)⟩
      · exact hflip q₁.sound
    · exact hflip hs
  · -- the one integer whose width need not be one of integers
    refine (chance_quietly hs _).seq fun signed s₁ q₁ _ => .pure q₁.sound ?_
    exact ⟨.inr hsource, hint, .bitcast rfl rfl (by simp)⟩
  · exact .infeasible hs

theorem conversion_leads (hs : s.Sound c) (scope : ScopeId) (op : Opcode) :
    Leads c s (conversion scope op) (Produces c scope) := by
  refine (typedOperand_quietly hs scope _).lead rebases_produces ?_
  rintro ⟨x, ty⟩ s₁ q₁ ⟨hx, htest, hreads⟩
  obtain ⟨scalar, n, t, hl, ht, hsigned⟩ := lanes_of_conversionTest q₁.sound.table htest
  refine (Quietly.answer q₁.sound (Module.componentCount_of_lanes hl)).lead rebases_produces ?_
  rintro _ s₁ - ⟨rfl, rfl⟩
  have hsource := Module.baseTy_eq_ok.mpr ⟨scalar, Module.baseType_of_lanes hl, ht⟩
  refine (Quietly.answer q₁.sound hsource).lead rebases_produces ?_
  rintro _ s₁ - ⟨rfl, rfl⟩
  refine (convertedScalar_quietly q₁.sound (q₁.sound.table.entry ht) hsigned).lead
    rebases_produces ?_
  rintro target s₂ q₂ ⟨htarget, hmem, hconverts⟩
  refine (Quietly.internType q₂.sound target htarget).lead rebases_produces
    fun scalar' s₃ q₃ hscalar' => ?_
  refine (withComponents_quietly q₃.sound ⟨target, hscalar', hmem⟩
    (hl.bounds q₁.sound.table)).lead rebases_produces fun r s₄ q₄ hr => ?_
  have q := q₂.trans (q₃.trans q₄)
  exact apply_leads q₄.sound [x] (.cons (hx.mono q.later) .nil) (by simpa using hreads.after q)
    (.convert (hl.mono q.table_le) (q.table_le ht) hr (q₄.table_le hscalar') hconverts)

end Gen

end ShaderGen
