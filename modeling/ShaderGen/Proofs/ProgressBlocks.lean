import ShaderGen.Proofs.CalmStatements
import ShaderGen.Proofs.ProgressTables

/-!
Blocks and functions come to an end. A statement starts only within the budget and
counts one when it is produced, so the rounds of a block are enough; arms of
selections are blocks one level down, and the number of levels carries the induction.
What a scope declares is in the arena, so later searches have answers.
-/

namespace ShaderGen

variable {ρ : Type} [RandomSource ρ] {c : Config} {s s' : State ρ} {scope : ScopeId}
  {op : Opcode}

/-! ### Declarations -/

theorem Module.Scoped.lt_size {m : Module} {seen : InstrId → Prop} {stream defs : List InstrId}
    (h : m.Scoped seen stream defs) : ∀ d ∈ defs, d.index < m.instrs.size := by
  induction h with
  | nil => exact nofun
  | stmt hi _ _ _ ih =>
    intro d hd
    rcases List.mem_cons.mp hd with rfl | hd
    · exact (Array.getElem?_eq_some_iff.mp hi).1
    · exact ih d hd
  | selection _ _ _ _ _ _ _ _ _ _ _ _ _ ih => exact ih

omit [RandomSource ρ] in
/-- What a production makes visible is in the arena. -/
theorem Produces.visible_lt_size {p : Production} (h : Produces c scope s p s') :
    ∀ d ∈ p.visible, d.index < s'.code.instrs.size := by
  intro d hd
  obtain ⟨defs, hscoped, hvisible⟩ := h.nested
  rcases hvisible d hd with hd | hd
  · exact hscoped.lt_size d hd
  · obtain ⟨i, hi, -⟩ := h.hoisted d hd
    exact (Array.getElem?_eq_some_iff.mp hi).1

namespace Gen

variable {arm : Option (ScopeId → Gen ρ Block)}

theorem childScope_completes (hr : s.Ready c) {parent : ScopeId} (hparent : s.HasScope parent)
    (function : Option InstrId) : Completes c s (childScope parent function) fun _ _ => True := by
  obtain ⟨p, hp⟩ := hparent
  refine Completes.get_bind ?_
  cases hchild : s.scopes.child? parent function with
  | none =>
    rw [ScopeTree.child?, hp] at hchild
    cases hchild
  | some made =>
    obtain ⟨child, t⟩ := made
    have hknown : Advances c s { s with scopes := t } :=
      ⟨⟨hr.drawn, fun scope x hx d hd => by
        obtain ⟨y, hy, hd⟩ := ScopeTree.locals_of_child? hchild hx hd
        exact hr.known scope y hy d hd⟩, .refl _, fun _ h => h, Nat.le_refl _, Nat.le_refl _,
        Nat.le_refl _⟩
    have hmodify : Completes c s (modify fun s => { s with scopes := t }) fun _ _ => True :=
      Completes.modify hknown trivial
    exact hmodify.andThen fun _ _ h _ => .pure h.ready trivial

theorem scopeAt_completes (hr : s.Ready c) (hscope : s.HasScope scope) :
    Completes c s (scopeAt scope) fun _ s' => s' = s := by
  obtain ⟨x, hx⟩ := hscope
  refine Ends.bind (Ends.get ?_)
  dsimp only
  rw [hx]
  exact ⟨.refl hr, rfl⟩

theorem declare_completes (hr : s.Ready c) (hscope : s.HasScope scope) {id : InstrId}
    (hid : id.index < s.code.instrs.size) :
    Completes c s (declare scope id) fun _ s' => s'.code = s.code := by
  refine (scopeAt_completes hr hscope).andThen ?_
  rintro _ s - rfl
  refine Completes.modify ⟨⟨hr.drawn, fun r x hx d hd => ?_⟩, .refl _, fun _ h => h, Nat.le_refl _,
    Nat.le_refl _, Nat.le_refl _⟩ rfl
  rcases ScopeTree.locals_of_declare hx hd with rfl | ⟨y, hy, hd⟩
  · exact hid
  · exact hr.known r y hy d hd

theorem declareAll_completes (hs : s.Sound c) (hr : s.Ready c) (hscope : s.HasScope scope)
    (ids : List InstrId) (hids : ∀ id ∈ ids, id.index < s.code.instrs.size) :
    Completes c s (ids.forM (declare scope)) fun _ _ => True := by
  induction ids generalizing s with
  | nil => exact .pure hr trivial
  | cons id ids ih =>
    refine (declare_completes hr hscope (hids id (by simp))).bind (declare_steadily hs scope id) ?_
    intro _ s₁ h₁ hcode hd
    refine ih hd.sound h₁.ready (hd.present hscope) fun id hid => ?_
    rw [hcode]
    exact hids _ (by simp [hid])

/-! ### Statements -/

/-- The arms of selections, where there are any, come to an end. -/
def CompletesArms (c : Config) (arm : Option (ScopeId → Gen ρ Block)) : Prop :=
  ∀ fill, arm = some fill → ∀ scope (s : State ρ), s.Sound c → s.Ready c → s.HasScope scope →
    Completes c s (fill scope) fun _ _ => True

theorem Completes.alloc (hr : s.Ready c) (i : Instr) :
    Completes c s (Gen.alloc i) fun _ _ => True := .build hr (by simp [Module.alloc])

section Bounded

variable [BoundedRandomSource ρ]

omit [BoundedRandomSource ρ] in
theorem selection_proceeds (harm : CompletesArms c arm) (hfills : FillsArms c arm) (hs : s.Sound c)
    (hr : s.Ready c) (hscope : s.HasScope scope) :
    Proceeds c s (selection arm scope) fun _ _ => True := by
  refine (scopeAt_completes hr hscope).proceeds.andThen ?_
  rintro _ s - rfl
  cases arm with
  | none => exact .infeasible hr
  | some fill =>
    refine (Proceeds.of_calmly hr (operand_calmly hs (hr.shows hs hscope)
      (Predicate.total_ofTy _))).bind (operand_quietly hs scope _) ?_
    rintro condition s₁ h₁ - ⟨q₁, -⟩
    have hscope₁ : s₁.HasScope scope := hscope.mono (by rw [q₁.scopes])
    refine Completes.proceeds ?_
    refine (childScope_completes h₁.ready hscope₁ none).bind
      (childScope_steadily q₁.sound scope none) ?_
    rintro yesScope s₂ h₂ - ho
    refine (harm fill rfl yesScope s₂ ho.sound h₂.ready ho.present).bind
      (hfills fill rfl yesScope s₂ ho.sound ho.present) ?_
    rintro yesBlock s₃ h₃ - hf
    have hyes := hf.nests ho
    refine (childScope_completes h₃.ready (hscope₁.mono hyes.scopes) none).bind
      (childScope_steadily hyes.sound scope none) ?_
    rintro noScope s₄ h₄ - ho'
    refine (harm fill rfl noScope s₄ ho'.sound h₄.ready ho'.present).andThen ?_
    -- what is left are the markers
    intro noBlock s₅ h₅ _
    refine (Completes.alloc h₅.ready _).andThen fun merge s₆ h₆ _ => ?_
    refine (Completes.alloc h₆.ready _).andThen fun yes s₇ h₇ _ => ?_
    refine (Completes.alloc h₇.ready _).andThen fun no s₈ h₈ _ => ?_
    refine (Completes.alloc h₈.ready _).andThen fun header s₉ h₉ _ => ?_
    refine (Completes.alloc h₉.ready _).andThen fun branch s₁₀ h₁₀ _ => ?_
    refine (Completes.alloc h₁₀.ready _).andThen fun yesExit s₁₁ h₁₁ _ => ?_
    refine (Completes.alloc h₁₁.ready _).andThen fun noExit s₁₂ h₁₂ _ => ?_
    exact .pure h₁₂.ready trivial

/-- Every statement has a recipe. -/
theorem exists_recipe (hop : op ∈ Category.statement.members) :
    ∃ recipe, op.recipe? = some recipe := by
  have hall : ∀ op ∈ Category.statement.members, op.recipe?.isSome = true := by decide
  exact Option.isSome_iff_exists.mp (hall op hop)

/-- Statements are produced calmly, but for the arms of selections. -/
theorem variantWith_proceeds (harm : CompletesArms c arm) (hfills : FillsArms c arm)
    (hs : s.Sound c) (hr : s.Ready c) (hscope : s.HasScope scope)
    (hop : op ∈ Category.statement.members) :
    Proceeds c s (variantWith arm scope op) fun _ _ => True := by
  obtain ⟨recipe, hrecipe⟩ := exists_recipe hop
  by_cases hselection : recipe = .selection
  · subst hselection
    unfold variantWith
    rw [hrecipe]
    exact selection_proceeds harm hfills hs hr hscope
  · exact .of_calmly hr (variantWith_calmly hs (hr.shows hs hscope) arm hrecipe hselection)

end Bounded

section Lawful

variable [LawfulRandomSource ρ]

theorem statementWith_proceeds (hc : c.validate = .ok ()) (harm : CompletesArms c arm)
    (hfills : FillsArms c arm) (hs : s.Sound c) (hr : s.Ready c) (hscope : s.HasScope scope) :
    Proceeds c s (statementWith arm scope) fun _ s' =>
      s.statements ≤ c.instructionBudget ∧ s.statements < s'.statements := by
  refine (dispatch_proceeds (P := fun s => s.Sound c ∧ s.HasScope scope) hc (by decide)
    (fun _ h => h.1) (fun s s' h q => ⟨q.sound, h.2.mono (by rw [q.scopes])⟩)
    (fun op _ s h => variantWith_leads hfills h.1 scope op)
    (fun op hop s h hr => variantWith_proceeds harm hfills h.1 hr h.2 hop) ⟨hs, hscope⟩ hr).mono ?_
  exact fun _ _ _ h => ⟨h.1, h.2 rfl⟩

/-! ### Blocks -/

omit [LawfulRandomSource ρ] in
/-- Each round but the last counts a statement, and none starts beyond the budget. -/
theorem fillBlock_completes (hc : c.validate = .ok ()) {statement : Gen ρ Production}
    (hlead : ∀ s : State ρ, s.Sound c → Leads c s statement (Produces c scope))
    (hstatement : ∀ s : State ρ, s.Sound c → s.Ready c → s.HasScope scope →
      Proceeds c s statement fun _ s' =>
        s.statements ≤ c.instructionBudget ∧ s.statements < s'.statements)
    (rounds : Nat) (b : Block) (hs : s.Sound c) (hr : s.Ready c) (hscope : s.HasScope scope)
    (hpos : 1 ≤ rounds) (hrounds : c.instructionBudget + 2 ≤ s.statements + rounds) :
    Completes c s (fillBlock statement scope rounds b) fun _ _ => True := by
  induction rounds generalizing s b with
  | zero => omega
  | succ rounds ih =>
    refine Completes.read_bind ?_
    have hp := c.statementProbability_of_validate hc
    refine (chance_completes hr hp).bind (chance_steadily hs _) fun again s₁ h₁ _ q₁ => ?_
    have hscope₁ : s₁.HasScope scope := hscope.mono (by rw [q₁.scopes])
    split_ifs
    · refine (Completes.attempt (hstatement s₁ q₁.sound h₁.ready hscope₁)).bind
        (hlead s₁ q₁.sound).attempt ?_
      rintro (_ | p) s₂ h₂ hcount ⟨hp, -⟩
      · exact .pure h₂.ready trivial
      · obtain ⟨hbudget, hmore⟩ := hcount p rfl
        have hp := hp p rfl
        have hscope₂ := hscope₁.mono hp.scopes
        dsimp only
        have happend : Completes c s₂ (append scope b p) fun _ _ => True :=
          (declareAll_completes hp.sound h₂.ready hscope₂ _ hp.visible_lt_size).andThen
            fun _ s₃ h₃ _ => .pure h₃.ready trivial
        have hsound : Ends (append scope b p) c s₂
            (fun _ s₃ => s₃.Sound c ∧ s₃.HasScope scope) (Stops c) :=
          Ends.bind ((declareAll_steadily hp.sound scope p.visible).mono
            (fun _ s₃ hd => Ends.pure ⟨hd.sound, hd.present hscope₂⟩) fun _ _ he => he)
        refine happend.bind hsound ?_
        rintro b' s₃ h₃ - ⟨hs₃, hscope₃⟩
        have := h₁.statements
        have := h₃.statements
        exact ih b' hs₃ h₃.ready hscope₃ (by omega) (by omega)
    · exact .pure h₁.ready trivial

theorem blockWith_completes (hc : c.validate = .ok ()) (harm : CompletesArms c arm)
    (hfills : FillsArms c arm) (hs : s.Sound c) (hr : s.Ready c) (hscope : s.HasScope scope) :
    Completes c s (blockWith arm scope) fun _ _ => True := by
  refine Completes.read_bind (Completes.get_bind ?_)
  exact fillBlock_completes hc (fun _ hs => statementWith_leads hfills hs scope)
    (fun _ hs hr hscope => statementWith_proceeds hc harm hfills hs hr hscope) _ _ hs hr hscope
    (by omega) (by omega)

theorem completesArms (hc : c.validate = .ok ()) (levels : Nat) :
    CompletesArms c (arms (ρ := ρ) levels) := by
  induction levels with
  | zero => exact nofun
  | succ levels ih =>
    intro fill hfill scope s hs hr hscope
    cases hfill
    exact blockWith_completes hc ih (fillsArms levels) hs hr hscope

theorem block_completes (hc : c.validate = .ok ()) (hs : s.Sound c) (hr : s.Ready c)
    (hscope : s.HasScope scope) : Completes c s (block scope) fun _ _ => True := by
  obtain ⟨x, hx⟩ := id hscope
  refine Ends.bind (Ends.bind (Ends.get ?_))
  rw [hx]
  exact Ends.bind (Ends.read (Ends.pure
    (blockWith_completes hc (completesArms hc _) (fillsArms _) hs hr hscope)))

/-! ### Functions -/

omit [LawfulRandomSource ρ] in
theorem parameterOf_completes (hs : s.Sound c) (hr : s.Ready c) (hscope : s.HasScope scope)
    {ty : EntryId} (hty : s.code.table.IsOf ty .arithmeticType) :
    Completes c s (parameterOf scope ty) fun _ _ => True := by
  refine (Completes.alloc hr _).bind (alloc_steadily hs (.functionParameter hty))
    fun id s₁ h₁ _ ha => ?_
  have hlt : id.index < s₁.code.instrs.size := by
    rw [ha.slot, ha.size]
    exact Nat.lt_succ_self _
  exact (declare_completes h₁.ready (hscope.mono (by rw [ha.scopes])) hlt).andThen
    fun _ s₂ h₂ _ => .pure h₂.ready trivial

omit [LawfulRandomSource ρ] in
theorem parameters_completes (hs : s.Sound c) (hr : s.Ready c) (hscope : s.HasScope scope)
    {tys : List EntryId} (htys : ∀ ty ∈ tys, s.code.table.IsOf ty .arithmeticType) :
    Completes c s (tys.mapM (parameterOf scope)) fun _ _ => True := by
  induction tys generalizing s with
  | nil => exact .pure hr trivial
  | cons ty tys ih =>
    rw [List.mapM_cons]
    refine (parameterOf_completes hs hr hscope (htys ty (by simp))).bind
      (parameterOf_steadily hs scope (htys ty (by simp))) ?_
    rintro id s₂ h₂ - ⟨s₁, ha, hd⟩
    refine (ih hd.sound h₂.ready ?_ ?_).andThen fun _ s₃ h₃ _ => .pure h₃.ready trivial
    · exact hd.present (hscope.mono (by rw [ha.scopes]))
    · rw [hd.code]
      exact fun ty hty => (htys ty (by simp [hty])).mono ha.grows.le.table

theorem function_completes (hc : c.validate = .ok ()) (hs : s.Sound c) (hr : s.Ready c)
    (hroot : s.BareRoot) {ty r : EntryId} {tys : List EntryId}
    (hty : s.code.table.IsType ty (.function r tys)) :
    Completes c s (function ty) fun _ _ => True := by
  obtain ⟨hresult, htys⟩ := hs.table.entry hty
  refine Completes.query_bind (Module.typeAt_eq_ok.mpr hty) ?_
  refine (Completes.alloc hr _).bind (alloc_steadily hs (.function hty hresult))
    fun opening s₁ h₁ _ ha₁ => ?_
  have hroot₁ : s₁.HasScope ScopeTree.root := by
    refine ⟨{}, ?_⟩
    rw [ha₁.scopes]
    exact hroot
  refine (childScope_completes h₁.ready hroot₁ _).bind (childScope_steadily ha₁.sound _ _)
    fun scope s₂ h₂ _ ho => ?_
  have htys₂ : ∀ ty ∈ tys, s₂.code.table.IsOf ty .arithmeticType := by
    rw [ho.code]
    exact fun ty hty => (htys ty hty).mono ha₁.grows.le.table
  refine (parameters_completes ho.sound h₂.ready ho.present htys₂).bind
    (parameters_steadily ho.sound ho.present htys₂) fun params s₃ h₃ _ hb => ?_
  refine (Completes.alloc h₃.ready _).bind (alloc_steadily hb.sound .label)
    fun entry s₄ h₄ _ ha₄ => ?_
  refine (block_completes hc ha₄.sound h₄.ready
    (hb.present.mono (by rw [ha₄.scopes]))).andThen fun body s₅ h₅ _ => ?_
  refine (Completes.alloc h₅.ready _).andThen fun ret s₆ h₆ _ => ?_
  exact (Completes.alloc h₆.ready _).andThen fun closing s₇ h₇ _ => .pure h₇.ready trivial

theorem functionsOf_completes (hc : c.validate = .ok ()) (hs : s.Sound c) (hr : s.Ready c)
    (hroot : s.BareRoot) {tys : List EntryId}
    (htys : ∀ ty ∈ tys, ∃ r params, s.code.table.IsType ty (.function r params)) :
    Completes c s (functionsOf tys) fun made _ => made.length = tys.length := by
  induction tys generalizing s with
  | nil => exact .pure hr rfl
  | cons ty tys ih =>
    obtain ⟨r, params, hty⟩ := htys ty (by simp)
    refine (function_completes hc hs hr hroot hty).bind (function_steadily hs hroot hty) ?_
    rintro x s₁ h₁ - ⟨f, -, hd⟩
    refine (ih hd.sound h₁.ready hd.root fun ty hmem => ?_).andThen fun xs s₂ h₂ hlength =>
      .pure h₂.ready (congrArg (· + 1) hlength)
    obtain ⟨r, params, hty⟩ := htys ty (by simp [hmem])
    exact ⟨r, params, hd.grows.le.table hty⟩

/-- The program of a valid configuration is finished, unless there is a reason to
stop. -/
theorem program_advances (hc : c.validate = .ok ()) (source : ρ) :
    Ends program c (.start source) (fun _ _ => c.Fits) fun e s' =>
      ∃ cause, e = .stopped cause ∧ s'.MayStop c cause := by
  refine Ends.bind (Ends.mono (((globalTable_advances hc source).and globalTable_fits).and
    (globalTable_ends (State.sound_start c source) rfl (c.maxFunctions_ne_zero hc))) ?_
    fun _ _ he => he.1.1)
  rintro _ s ⟨⟨hr, hfits⟩, hs, ty, r, rest, hlist, -⟩
  have hroot : s.BareRoot := by
    unfold State.BareRoot
    rw [hs.scopes]
    rfl
  have hlisted : ∀ ty ∈ s.functionTypes.toList,
      ∃ r params, s.code.table.IsType ty (.function r params) := by
    simpa using hs.sound.listed
  refine Ends.bind (Ends.bind (Ends.get (Ends.bind (Ends.mono
    (functionsOf_completes hc hs.sound hr hroot hlisted) ?_ fun _ _ he => he))))
  rintro made s' ⟨-, hlength⟩
  rw [hlist] at hlength
  cases made with
  | nil => cases hlength
  | cons => exact Ends.pure (Ends.bind (Ends.get (Ends.pure hfits)))

end Lawful

end Gen

end ShaderGen
