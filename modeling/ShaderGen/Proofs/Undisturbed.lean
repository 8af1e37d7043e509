import ShaderGen.Proofs.Pinning
import ShaderGen.Proofs.Retries

/-!
Types and constants are drawn without disturbing statements. Their draws go through the same
books as those of statements, and through several categories when they nest, but each writes
to the weights of its own category only, and what it adds to the module is types and
constants. The list of function types is all that a draw may touch besides: one that makes a
function type lists it, and function types are made in no category but that of all types.
-/

namespace ShaderGen

variable {ρ α β : Type} {c : Config}

/-- A session goes on with types and constants only, and weighs statements as before. -/
abbrev State.SparesStatements (s s' : State ρ) : Prop :=
  s.Untouched s' ∧ s.WeighsAlike .statement s'

/-- A session goes on like that, but for one function type that is listed. -/
structure State.Lists (s s' : State ρ) : Prop extends s.Undisturbed s' where
  weighs : s.WeighsAlike .statement s'
  functionTypes : ∃ id, s'.functionTypes = s.functionTypes.push id

theorem State.Lists.behind {s s₁ s' : State ρ} (h : s₁.Lists s') (h₁ : s.SparesStatements s₁) :
    s.Lists s' where
  toUndisturbed := h₁.1.toUndisturbed.trans h.toUndisturbed
  weighs := h₁.2.trans h.weighs
  functionTypes := h₁.1.functionTypes ▸ h.functionTypes

theorem State.Lists.before {s s₁ s' : State ρ} (h : s.Lists s₁) (h₁ : s₁.SparesStatements s') :
    s.Lists s' where
  toUndisturbed := h.toUndisturbed.trans h₁.1.toUndisturbed
  weighs := h.weighs.trans h₁.2
  functionTypes := h₁.1.functionTypes ▸ h.functionTypes

namespace Gen

theorem overlooks_sparesStatements :
    Overlooks (State.SparesStatements (ρ := ρ)) fun cat => False ∨ cat = .statement :=
  overlooks_untouched.and_weighsAlike .statement

/-! ### Function types -/

/-- A step lists a function type and spares statements, or ends before it gets there. -/
def Enrolls (x : Gen ρ α) : Prop :=
  ∀ c s, Ends x c s (fun _ s' => s.Lists s') fun _ s' => s.SparesStatements s'

theorem Enrolls.behind {x : Gen ρ α} {g : α → Gen ρ β} (hx : Relates State.SparesStatements x)
    (hg : ∀ a, Enrolls (g a)) : Enrolls (x >>= g) := by
  intro c s
  refine .bind ((hx c s).mono (fun a s₁ h₁ => ?_) fun _ _ h => h)
  exact (hg a c s₁).mono (fun _ _ h => h.behind h₁) fun _ _ h =>
    overlooks_sparesStatements.trans h₁ h

variable [RandomSource ρ]

/-- The weights of types are always there to be pinned. -/
theorem pinZero_type_ends (c : Config) (s : State ρ) (op : Opcode) :
    Ends (pinZero .type op) c s (fun _ s' => s.SparesStatements s') fun _ _ => False := by
  have hR := overlooks_sparesStatements (ρ := ρ)
  have hspares := hR.ensureParametrized (by simp : ¬(False ∨ Category.type = .statement)) c s
  refine .bind (((ensureParametrized_ends .type).and hspares).mono ?_ ?_)
  · rintro _ s₁ ⟨-, h₁⟩
    refine .modify (hR.trans h₁ (hR.weigh s₁ _ s₁.pruned fun cat hcat => ⟨?_, rfl⟩))
    exact WeightTable.row_pinZero_of_ne (by rintro rfl; simp at hcat)
  · rintro e s₁ ⟨⟨-, hne, -⟩, -⟩
    exact absurd hne nofun

theorem addFunctionType_ends (c : Config) (s : State ρ) (id : EntryId) :
    Ends (addFunctionType id) c s (fun _ s' => s.Lists s') fun _ _ => False := by
  have hpush : s.Lists { s with functionTypes := s.functionTypes.push id } :=
    ⟨⟨.refl _, rfl, rfl, rfl⟩, ⟨rfl, rfl⟩, id, rfl⟩
  refine .bind (.modify (.bind (.bind (.read (.bind (.get (.pure ?_)))))))
  split
  · exact (pinZero_type_ends c _ .typeFunction).mono (fun _ _ h => hpush.before h)
      fun _ _ h => h.elim
  · exact .pure hpush

theorem functionType_enrolls {nested : Category → Gen ρ EntryId}
    (hnested : Relates State.SparesStatements (nested .arithmeticType)) :
    Enrolls (functionType nested) := by
  have hR := overlooks_sparesStatements (ρ := ρ)
  have hlists : Enrolls (do
      let result ← internType .void
      let count ← range 0 3
      let params ← (List.replicate count Category.arithmeticType).mapM nested
      let id ← internType (.function result params)
      addFunctionType id
      return id : Gen ρ EntryId) := by
    refine .behind (hR.searching (.internType _ nofun)) fun result =>
      .behind (hR.searching (range_searching _ _)) fun count => .behind ?_ fun params =>
        .behind (hR.searching (.internType _ nofun)) fun id c s => ?_
    · exact hR.searching (.mapM_replicate (.but hnested) count)
    · exact .bind ((addFunctionType_ends c s id).mono (fun _ _ h => .pure h)
        fun _ _ h => h.elim)
  refine .behind (hR.searching functionsFull_searching) fun full => ?_
  split
  · exact .behind (hR.searching .infeasible) fun _ => hlists
  · exact hlists

/-! ### Draws -/

omit [RandomSource ρ] in
theorem ne_typeFunction {cat : Category} (hcat : cat ≠ .type) {op : Opcode}
    (hop : op ∈ cat.members) : op ≠ .typeFunction := by
  rintro rfl
  cases cat <;> first | exact absurd hop (by decide) | exact absurd rfl hcat

theorem typeVariant_sparesStatements {nested : Category → Gen ρ EntryId} {op : Opcode}
    (hnested : ∀ cat, cat.isType = true → cat ≠ .type →
      Relates State.SparesStatements (nested cat)) (hop : op ≠ .typeFunction) :
    Relates State.SparesStatements (typeVariant nested op) := by
  have hR := overlooks_sparesStatements (ρ := ρ)
  refine hR.searching (typeVariant_searching op (fun _ _ => .but fun _ s => ?_)
    (fun heq => absurd heq hop) fun cat htype hne => .but (hnested cat htype hne))
  exact .build (hR.internType s _)

/-- Types of any other category list no function type. -/
theorem typeWithin_sparesStatements (nesting : Nat) {cat : Category} (hcat : cat.isType = true)
    (hne : cat ≠ .type) : Relates (ρ := ρ) State.SparesStatements (typeWithin nesting cat) := by
  have hR := overlooks_sparesStatements (ρ := ρ)
  have hstatement : ∀ {cat : Category}, cat.isType = true → cat ≠ .statement := by
    rintro cat htype rfl
    cases htype
  induction nesting generalizing cat with
  | zero =>
    exact hR.dispatch (by simpa using hstatement hcat) (hstatement hcat) fun op hop =>
      typeVariant_sparesStatements (fun _ _ _ _ s => .fault (hR.refl s)) (ne_typeFunction hne hop)
  | succ nesting ih =>
    exact hR.dispatch (by simpa using hstatement hcat) (hstatement hcat) fun op hop =>
      typeVariant_sparesStatements (fun cat' => ih) (ne_typeFunction hne hop)

theorem constant_sparesStatements : Relates (ρ := ρ) State.SparesStatements constant := by
  have hR := overlooks_sparesStatements (ρ := ρ)
  refine hR.dispatch (by simp) nofun fun op _ => ?_
  have htype : Relates (ρ := ρ) State.SparesStatements (type .numericType) :=
    typeWithin_sparesStatements _ rfl nofun
  exact hR.searching (constantVariant_searching (.but htype) op)

/-- A type of the category of all types may be a function type. -/
theorem type_type_relates : Relates (ρ := ρ)
    (fun s s' => s.SparesStatements s' ∨ s.Lists s') (type .type) := by
  have hR := overlooks_sparesStatements (ρ := ρ)
  have hnested : ∀ cat, cat.isType = true → cat ≠ .type →
      Relates (ρ := ρ) State.SparesStatements (typeWithin 2 cat) :=
    fun _ => typeWithin_sparesStatements 2
  have hvariant : ∀ op c s, Ends (ρ := ρ) (typeVariant (typeWithin 2) op) c s
      (fun _ s' => s.SparesStatements s' ∨ s.Lists s') fun _ s' => s.SparesStatements s' := by
    intro op c s
    by_cases hop : op = .typeFunction
    · subst hop
      exact (functionType_enrolls (hnested .arithmeticType rfl nofun) c s).mono
        (fun _ _ h => .inr h) fun _ _ h => h
    · exact (typeVariant_sparesStatements hnested hop c s).mono (fun _ _ h => .inl h)
        fun _ _ h => h
  intro c s
  -- The variants that were tried before are infeasible, so the one that lists is the last.
  refine (hR.dispatch_ends (by simp) fun op _ s₁ => (hvariant op c s₁).mono
    (fun _ _ _ => trivial) fun _ _ h _ => h).mono ?_ ?_
  · rintro id s' ⟨op, -, s₁, s₂, h₁, hrun, rfl⟩
    rcases (hvariant op c s₁).of_run_ok hrun with h₂ | h₂
    · exact .inl (hR.trans h₁ h₂)
    · exact .inr (h₂.behind h₁)
  · rintro e s' (h | ⟨op, -, s₁, cause, h₁, -, hrun | ⟨⟨⟩, -⟩⟩)
    · exact .inl h
    · exact .inl (hR.trans h₁ ((hvariant op c s₁).of_run_error hrun))

/-- Drawing types and constants leaves statements alone, however a draw ends and however often
weights are drawn anew: their weights and pins, whether any of them was found infeasible, how
many there are, the instructions, the scopes, what is said of entries and what is imported. The
table only gets types and constants at its end. Only a draw from the category of all types may
list a function type, and lists one at most. -/
theorem draws_spare_statements (c : Config) (s : State ρ) (cat : Category)
    (hcat : cat.isType = true) :
    (s.Undisturbed ((type cat).run c s).2 ∧ s.WeighsAlike .statement ((type cat).run c s).2 ∧
      (((type cat).run c s).2.functionTypes = s.functionTypes ∨ cat = .type ∧
        ∃ id, ((type cat).run c s).2.functionTypes = s.functionTypes.push id)) ∧
    s.Untouched (constant.run c s).2 ∧ s.WeighsAlike .statement (constant.run c s).2 := by
  refine ⟨?_, constant_sparesStatements.run c s⟩
  by_cases hne : cat = .type
  · subst hne
    rcases type_type_relates.run c s with h | h
    · exact ⟨h.1.toUndisturbed, h.2, .inl h.1.functionTypes⟩
    · exact ⟨h.toUndisturbed, h.weighs, .inr ⟨rfl, h.functionTypes⟩⟩
  · have h := (typeWithin_sparesStatements cat.nesting hcat hne).run c s
    exact ⟨h.1.toUndisturbed, h.2, .inl h.1.functionTypes⟩

set_option maxRecDepth 2000 in
/-- A function type is listed behind an addition that was found infeasible, and additions stay
pinned. -/
theorem draws_spare_statements_restless : Category.type.isType = true ∧
    ∃ s s' : State Script, (prune .statement .iAdd).run .restless (.start ⟨[7]⟩) = (.ok (), s) ∧
      (type .type).run .restless s = (.ok ⟨1⟩, s') ∧ s'.functionTypes = #[⟨1⟩] ∧
      s'.pruned.contains .statement = true ∧ (s'.weights.row .statement).pins = [.iAdd] ∧
      s.Undisturbed s' ∧ s.Untouched (constant.run .restless s).2 := by
  have h := draws_spare_statements .restless
    ((prune .statement .iAdd).run .restless (.start (⟨[7]⟩ : Script))).2 .type rfl
  refine ⟨rfl, _, _, rfl, rfl, rfl, ?_⟩
  exact ⟨h.1.2.1.pruned, congrArg WeightRow.pins h.1.2.1.row, h.1.1, h.2.1⟩

end Gen

end ShaderGen
