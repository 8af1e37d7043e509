import ShaderGen.Proofs.Contracts
import ShaderGen.Proofs.Functions

/-!
What the plans of the generator do to the books, and whom they call. Types ask for
types; a constant may ask for a numeric one; a selection fills blocks with a level less
than its own; a block asks for statements on its own level, and that of a function has
fewer levels than the configuration allows. Only draws check the budget or count.
-/

namespace ShaderGen.Plan

variable {ρ α β : Type} {c : Config} {steps : Event → (α : Type) → Gen ρ α → Prop}
  {calls : {α : Type} → Routine α → Prop}

section Rules

variable {p : Plan ρ α}

theorem Each.pure (a : α) : (Pure.pure a : Plan ρ α).Each c steps calls := trivial

theorem Each.bind {q : α → Plan ρ β} (hp : p.Each c steps calls)
    (hq : ∀ a, (q a).Each c steps calls) : (p >>= q).Each c steps calls := ⟨hp, fun a _ => hq a⟩

theorem Each.attempt (hp : p.Each c steps calls) : p.attempt.Each c steps calls :=
  ⟨hp, fun _ => trivial⟩

end Rules

/-- A condition holds of the steps that routines take to answer a call: of plain ones, and of
those that declare variables or list function types. -/
structure Covers [RandomSource ρ] (steps : Event → (α : Type) → Gen ρ α → Prop) : Prop where
  plain : ∀ {α : Type} {x : Gen ρ α}, Gen.Plain (steps .work) x → steps .work α x
  localVariable : steps .work _ Gen.localVariable
  storageBuffers : steps .work _ Gen.storageBuffers
  privateVariables : steps .work _ Gen.privateVariables
  addFunctionType : ∀ id, steps .work _ (Gen.addFunctionType id)

theorem tidy_covers [RandomSource ρ] :
    Covers (ρ := ρ) fun e _ x => e = .work ∧ Gen.Keeps .drawing x where
  plain h := ⟨rfl, (h.mono fun _ hy => hy.2).keeps⟩
  localVariable := ⟨rfl, .of_aside Gen.localVariable_aside⟩
  storageBuffers := ⟨rfl, .of_aside Gen.storageBuffers_aside⟩
  privateVariables := ⟨rfl, .of_aside Gen.privateVariables_aside⟩
  addFunctionType id := ⟨rfl, Gen.addFunctionType_keeps id⟩

/-- Arrays make no difference to the books. -/
theorem arrayType_tidy {op : Opcode} (_ : op = .typeArray) (element length : EntryId) :
    Event.work = .work ∧
      Gen.Keeps (ρ := ρ) .drawing (Gen.internType (.array element length)) := ⟨rfl, .build _⟩

/-- Neither do imports. -/
theorem extended_tidy [RandomSource ρ] {op : Opcode} (_ : op = .extInst) (scope : ScopeId) :
    Event.work = .work ∧ Gen.Keeps (ρ := ρ) .drawing (Gen.extended scope) :=
  ⟨rfl, .of_aside (Gen.extended_aside scope)⟩

theorem Covers.work [RandomSource ρ] (h : Covers steps) {x : Gen ρ α}
    (hx : Gen.Plain (steps .work) x) : (Plan.work x).Each c steps calls := h.plain hx

/-! ### Requests -/

theorem askAll_each {cat : Category} (hcall : calls (.dispatch (.type cat))) (count : Nat) :
    (askAll (ρ := ρ) (List.replicate count cat)).Each c steps calls := by
  induction count with
  | zero => exact .pure _
  | succ count ih => exact .bind hcall fun _ => .bind ih fun _ => .pure _

section Covered

variable [RandomSource ρ] (h : Covers steps)
include h

theorem fillUp_each {t : Target EntryId} (hask : calls (.dispatch t)) (isEnough : State ρ → Bool)
    (attempts : Nat) : (fill isEnough t attempts).Each c steps calls := by
  induction attempts with
  | zero => exact .pure ()
  | succ attempts ih =>
    refine .bind (h.work .get) fun s => ?_
    split
    · exact .pure ()
    · exact .bind (.attempt hask) fun _ => ih

/-! ### Functions -/

omit [RandomSource ρ] h in
/-- A function has fewer levels of selections than the configuration allows. -/
theorem head_levels (hdepth : c.maxDepth ≠ 0) (opening : InstrId) (params : List EntryId)
    (s : State ρ) : Gen.Ends (head opening params) c s (fun h _ => h.levels < c.maxDepth)
      fun _ _ => True := by
  refine .bind ((Gen.childScope_inner _ _ s).mono (fun scope s₁ h₁ => ?_) fun _ _ h => h)
  refine .bind ((Gen.parameters_inner params h₁).mono (fun params s₂ h₂ => ?_) fun _ _ h => h)
  have hlabel : Gen.Ends Gen.label c s₂ (fun _ s' => s'.Inner scope) fun _ _ => True := h₂
  refine .bind (hlabel.mono (fun entry s₃ h₃ => ?_) fun _ _ h => h)
  exact .bind ((Gen.levelsLeft_inner hdepth h₃).mono (fun _ _ h => .pure h.2) fun _ _ h => h)

theorem function_each (hdepth : c.maxDepth ≠ 0)
    (hfill : ∀ levels < c.maxDepth, ∀ scope, calls (.fill levels scope {})) (ty : EntryId) :
    (function ty).Each c steps calls := by
  refine .bind (h.work (.query _)) fun t => ?_
  cases t with
  | function result params =>
    refine .bind (h.work (by grind)) fun opening => ⟨h.work (by grind [head, Gen.label]), ?_⟩
    rintro head ⟨s, s', hrun⟩
    have hlevels : head.levels < c.maxDepth := (head_levels hdepth _ _ s).of_run_ok hrun
    exact .bind (hfill head.levels hlevels head.scope) fun _ => .bind (h.work (by grind)) fun _ =>
      .bind (h.work (by grind)) fun _ => .pure _
  | _ => exact h.work (.stop (by simp))

theorem functionsOf_each (hdepth : c.maxDepth ≠ 0)
    (hfill : ∀ levels < c.maxDepth, ∀ scope, calls (.fill levels scope {})) (tys : List EntryId) :
    (functionsOf tys).Each c steps calls := by
  induction tys with
  | nil => exact .pure _
  | cons ty tys ih =>
    exact .bind (function_each h hdepth hfill ty) fun _ => .bind ih fun _ => .pure _

theorem functions_each (hdepth : c.maxDepth ≠ 0)
    (hfill : ∀ levels < c.maxDepth, ∀ scope, calls (.fill levels scope {})) :
    functions.Each c steps calls := by
  refine .bind (h.work .get) fun s => .bind (functionsOf_each h hdepth hfill _) fun made => ?_
  split
  · exact h.work (.stop nofun)
  · exact .pure _

/-! ### Variants -/

omit [RandomSource ρ] h in
theorem join_plain {special : (α : Type) → Gen ρ α → Prop} (condition : Value)
    (thenBlock elseBlock : Block) : Gen.Plain special (join condition thenBlock elseBlock) := by
  have halloc : ∀ i : Instr, i.opcode ≠ .var → Gen.Plain special (Gen.alloc i) := .alloc
  exact .bind (halloc _ nofun) fun _ => .bind (halloc _ nofun) fun _ =>
    .bind (halloc _ nofun) fun _ => .bind (halloc _ nofun) fun _ => .bind (halloc _ nofun) fun _ =>
      .bind (halloc _ nofun) fun _ => .bind (halloc _ nofun) fun _ => .pure _

/-- The steps towards a type, but for that to an array. -/
theorem typeVariant_each (hcalls : ∀ cat, cat.isType = true → calls (.dispatch (.type cat)))
    {op : Opcode} (harray : op = .typeArray →
      ∀ element length, steps .work _ (Gen.internType (.array element length))) :
    (typeVariant op).Each c steps calls := by
  unfold typeVariant
  split
  · exact .bind (hcalls _ rfl) fun _ => h.work (by grind)
  · have hintern : ∀ element length,
        Gen.Plain (steps .work) (Gen.internType (.array element length)) :=
      fun element length => .but (harray rfl element length)
    exact .bind (hcalls _ rfl) fun _ => h.work (by grind)
  · exact .bind (h.work (by grind)) fun _ => .bind (askAll_each (hcalls _ rfl) _) fun _ =>
      h.work (by grind)
  · have hmake : Each c steps calls do
        let result ← work (Gen.internType .void)
        let count ← work (Gen.range 0 3)
        let params ← askAll (List.replicate count .arithmeticType)
        let id ← work (Gen.internType (.function result params))
        work (Gen.addFunctionType id)
        return id :=
      .bind (h.work (by grind)) fun _ => .bind (h.work (by grind)) fun _ =>
        .bind (askAll_each (hcalls _ rfl) _) fun _ => .bind (h.work (by grind)) fun _ =>
          .bind (h.addFunctionType _) fun _ => .pure _
    refine .bind (h.work (by grind)) fun full => ?_
    dsimp only
    split
    · exact .bind (h.work (by grind)) fun _ => hmake
    · exact hmake
  · refine h.work ?_
    unfold Gen.typeVariant
    split <;> first | contradiction | grind

theorem constantVariant_each (hcalls : ∀ cat, cat.isType = true → calls (.dispatch (.type cat)))
    (op : Opcode) : (constantVariant op).Each c steps calls := by
  unfold constantVariant
  split
  · refine .bind (h.work (by grind)) fun o => ?_
    cases o with
    | none => exact .bind (hcalls _ rfl) fun _ => h.work (by grind)
    | some ty => exact h.work (by grind)
  · refine h.work ?_
    unfold Gen.constantVariant
    split <;> first | contradiction | grind

/-- The steps towards a statement, but for that to an instruction of the extended set. -/
theorem statementVariant_each {levels : Nat}
    (hcalls : ∀ levels', levels = levels' + 1 → ∀ scope, calls (.fill levels' scope {}))
    (scope : ScopeId) {op : Opcode}
    (hextended : op = .extInst → ∀ scope, steps .work _ (Gen.extended scope)) :
    (statementVariant levels scope op).Each c steps calls := by
  unfold statementVariant selection
  split
  · refine .bind (h.work (.ask _)) fun _ => ?_
    cases levels with
    | zero => exact h.work (by grind)
    | succ levels =>
      exact .bind (h.work (by grind)) fun _ => .bind (h.work (by grind)) fun _ =>
        .bind (hcalls levels rfl _) fun _ => .bind (h.work (by grind)) fun _ =>
          .bind (hcalls levels rfl _) fun _ => h.work (join_plain _ _ _)
  · exact h.work (Gen.variantWith_plain (by simp) (.but h.localVariable) scope
      fun hop => .but (hextended hop scope))

/-! ### Blocks -/

theorem fill_each {levels : Nat} {scope : ScopeId} {block : Block}
    (hask : calls (.dispatch (.statement levels scope)))
    (hfill : ∀ block, calls (.fill levels scope block)) :
    (Routine.body (.fill levels scope block)).Each c steps calls := by
  refine .bind (h.work .read) fun _ => .bind (h.work (by grind)) fun goesOn => ?_
  split
  · refine .bind (.attempt hask) fun o => ?_
    cases o with
    | none => exact .pure block
    | some production => exact .bind (h.work (by grind)) fun block => hfill block
  · exact .pure block

/-! ### Whole shaders -/

theorem globalTable_each (htype : calls (.dispatch (.type .type)))
    (hconstant : calls (.dispatch .constant)) : globalTable.Each c steps calls := by
  have hentry : Gen.Plain (steps .work) Gen.entryPointType :=
    .bind (.internType _ nofun) fun _ => .bind (.internType _ nofun) fun id =>
      Gen.Plain.but (h.addFunctionType id)
  have hattempts : ∀ n, (Plan.work (Gen.attemptsFor n)).Each c steps calls := fun n =>
    h.work (.checked _)
  exact .bind (h.work hentry) fun _ => .bind (h.work .read) fun _ =>
    .bind (hattempts _) fun _ => .bind (fillUp_each h htype _ _) fun _ =>
      .bind (h.work .read) fun _ => .bind (hattempts _) fun _ =>
        .bind (fillUp_each h hconstant _ _) fun _ => .bind h.storageBuffers fun _ =>
          .bind h.privateVariables fun _ => .pure ()

/-- A shader asks for types, constants and blocks. -/
theorem program_each (hdepth : c.maxDepth ≠ 0) (htype : calls (.dispatch (.type .type)))
    (hconstant : calls (.dispatch .constant))
    (hfill : ∀ levels < c.maxDepth, ∀ scope, calls (.fill levels scope {})) :
    program.Each c steps calls :=
  .bind (globalTable_each h htype hconstant) fun _ => .bind (functions_each h hdepth hfill)
    fun _ => .bind (h.work .get) fun _ => .pure _

end Covered

/-! ### All routines -/

/-- A condition holds of the steps of draws. -/
structure Draws [RandomSource ρ] (steps : Event → (α : Type) → Gen ρ α → Prop) : Prop where
  checkBudget : ∀ cat, steps (.dispatch cat) _ Gen.checkBudget
  prepare : ∀ cat, steps .work _ (prepare cat)
  sample : ∀ cat misses, steps (.sample cat misses) _ (Gen.sample? cat)
  exhausted : ∀ {α : Type} (cat : Category), steps .work α (exhausted cat)
  countStatement : steps .work _ Gen.countStatement
  prune : ∀ cat op, steps .work _ (Gen.prune cat op)
  enter : ∀ cat op, steps (.enter cat op) _ (pure ())

/-- What holds of the steps of draws and of those that answer calls holds of every step. -/
theorem body_each [RandomSource ρ] (hdraws : Draws steps) (hcovers : Covers steps) (r : Routine α)
    (harray : ∀ t, r = .variant t .typeArray →
      ∀ element length, steps .work _ (Gen.internType (.array element length)))
    (hextended : ∀ t, r = .variant t .extInst →
      ∀ scope, steps .work _ (Gen.extended scope)) :
    r.body.Each c steps fun _ => True := by
  cases r with
  | dispatch t =>
    exact .bind (hdraws.checkBudget _) fun _ => .bind (hdraws.prepare _) fun _ => trivial
  | resample t misses =>
    refine .bind (hdraws.sample _ _) fun o => ?_
    cases o with
    | none => exact hdraws.exhausted _
    | some op =>
      refine .bind (.attempt trivial) fun o => ?_
      cases o with
      | none => exact .bind (hdraws.prune _ _) fun _ => trivial
      | some a =>
        dsimp only
        split
        · exact .bind hdraws.countStatement fun _ => .pure a
        · exact .pure a
  | variant t op =>
    refine .bind (hdraws.enter _ _) fun _ => ?_
    cases t with
    | type cat =>
      refine typeVariant_each hcovers (fun _ _ => trivial) ?_
      rintro rfl
      exact harray _ rfl
    | constant => exact constantVariant_each hcovers (fun _ _ => trivial) op
    | statement levels scope =>
      refine statementVariant_each hcovers (fun _ _ _ => trivial) scope ?_
      rintro rfl
      exact hextended _ rfl
  | fill levels scope block => exact fill_each hcovers trivial fun _ => trivial

/-! ### Single steps -/

theorem exhausted_aside (cat : Category) : Gen.Aside (exhausted (ρ := ρ) (α := α) cat) := by
  refine .bind .get fun s => ?_
  split
  · exact .infeasible
  · exact .stop nofun

theorem checkBudget_ends (s : State ρ) : Gen.Ends Gen.checkBudget c s
    (fun _ s' => s' = s ∧ s.statements ≤ c.instructionBudget)
    fun e s' => s' = s ∧ e = .stopped (.overBudget c.instructionBudget) ∧
      c.instructionBudget < s.statements := by
  refine .bind (.read (.bind (.get ?_)))
  split
  case isTrue h => exact .stop ⟨rfl, rfl, h⟩
  case isFalse h => exact .pure ⟨rfl, Nat.not_lt.mp h⟩

variable [RandomSource ρ]

theorem prepare_keeps (cat : Category) : Gen.Keeps (ρ := ρ) .drawing (prepare cat) := by
  have hexclude := Gen.applyExclusions_keeps (ρ := ρ) cat
  refine .bind (Gen.ensureParametrized_keeps cat) fun _ => ?_
  dsimp only
  split
  · exact .bind Gen.maybeMutate_keeps fun _ => hexclude
  · exact hexclude

/-! ### Draws -/

section Draws

variable {k : Contract Books} {during : Event → Books → Prop} {asked before after : Books → Prop}
  {t : Target α} {b : Books}

/-- A draw starts if the budget allows it. Nothing is counted before it ends. -/
theorem dispatch_meets (hasked : ∀ b, asked b → after b)
    (hcheck : ∀ b, asked b → b.statements ≤ c.instructionBudget → before b)
    (hbefore : ∀ b b', Upkeep.drawing.rel c b b' → before b → before b')
    (hafter : ∀ b, before b → after b) (hevent : ∀ b, asked b → during (.dispatch t.category) b)
    (hwork : ∀ b, before b → during .work b)
    (hdraw : k.Allows (.resample t 0) before during after) (hb : asked b) :
    (Routine.body (ρ := ρ) (.dispatch t)).Meets c k during (fun _ => after) b := by
  refine .step (hevent b hb) ?_ ?_
  · rintro s _ s' rfl hrun
    obtain ⟨rfl, hle⟩ := (checkBudget_ends s).of_run_ok hrun
    have hs := hcheck _ hb hle
    refine .work (prepare_keeps _) (hwork _ hs) (fun _ b₁ h₁ => ?_)
      fun _ b₁ h₁ => hafter b₁ (hbefore _ b₁ h₁ hs)
    exact .call hdraw (hbefore _ b₁ h₁ hs) fun _ _ h => h
  · rintro s e s' rfl hrun
    obtain ⟨rfl, -⟩ := (checkBudget_ends s).of_run_error hrun
    exact hasked _ hb

/-- Each round of a draw tries a variant; the last one counts the statement that it
produces, and the others pin theirs. What a variant leaves behind may depend on it. -/
theorem resample_meets {misses : Nat} (tried : Opcode → Books → Prop)
    (hafter : ∀ b, before b → after b) (htried : ∀ op b, tried op b → before b)
    (hcount : t.category = .statement → ∀ b, before b →
      after { b with statements := b.statements + 1 })
    (hevent : ∀ b, before b → during (.sample t.category misses) b)
    (hwork : ∀ b, before b → during .work b)
    (hvariant : ∀ op (s s' : State ρ), s.books = b →
      (Gen.sample? t.category).run c s = (.ok (some op), s') →
        k.Allows (.variant t op) (· = b) during (tried op))
    (hprune : ∀ op (s : State ρ), tried op s.books →
      Gen.Ends (Gen.prune t.category op) c s (fun _ s' =>
        k.Allows (.resample t (misses + 1)) (· = s'.books) during after) fun _ _ => True)
    (hbefore : ∀ b b', Upkeep.drawing.rel c b b' → before b → before b') (hb : before b) :
    (Routine.body (ρ := ρ) (.resample t misses)).Meets c k during (fun _ => after) b := by
  refine .step (hevent b hb) ?_ ?_
  · rintro s o s₁ rfl hrun
    have hbooks : (Aspect.of s₁ : Books) = Aspect.of s :=
      ((Gen.sample?_aside t.category).ends c s).of_run_ok hrun
    rw [hbooks]
    cases o with
    | none =>
      refine ⟨hwork _ hb, fun s' hs' => hafter _ (hbefore _ _
        ((Gen.Keeps.of_aside (exhausted_aside t.category)) c s').1 ?_)⟩
      rw [← hs'] at hb
      exact hb
    | some op =>
      refine .attempt (hvariant op s s₁ rfl hrun) rfl (fun o b₂ hb₂ => ?_)
        fun _ b₂ hb₂ => hafter b₂ (htried op b₂ hb₂)
      cases o with
      | none =>
        refine .step (hwork b₂ (htried op b₂ hb₂)) ?_ ?_
        · rintro s' _ s₃ rfl hrun'
          exact .call ((hprune op s' hb₂).of_run_ok hrun') rfl fun _ _ h => h
        · rintro s' e s₃ rfl hrun'
          have h := ((Gen.prune_keeps t.category op).ends c s').of_run_error hrun'
          exact hafter _ (hbefore _ _ h (htried op _ hb₂))
      | some a =>
        dsimp only
        split
        case isTrue hstatement =>
          refine .step (hwork b₂ (htried op b₂ hb₂)) ?_ ?_
          · rintro s' _ s₃ rfl hrun'
            obtain ⟨-, rfl⟩ := (Gen.countStatement_ends c s').of_run_ok hrun'
            exact hcount hstatement _ (htried op _ hb₂)
          · rintro s' e s₃ rfl hrun'
            obtain ⟨-, -, rfl⟩ := (Gen.countStatement_ends c s').of_run_error hrun'
            exact hafter _ (htried op _ hb₂)
        case isFalse => exact hafter b₂ (htried op b₂ hb₂)
  · rintro s e s' rfl hrun
    have hbooks : (Aspect.of s' : Books) = Aspect.of s :=
      ((Gen.sample?_aside t.category).ends c s).of_run_error hrun
    rw [hbooks]
    exact hafter _ hb

omit [RandomSource ρ] in
theorem enter_meets {σ : Type} [Aspect ρ σ] {k : Contract σ} {during : Event → σ → Prop} {b : σ}
    {e : Event} {p : Plan ρ α} {post : Except Ending α → σ → Prop}
    (he : during e b) (h : p.Meets c k during post b) :
    (Plan.step e (pure ()) >>= fun _ => p).Meets c k during post b := by
  refine .step he ?_ nofun
  rintro s _ _ rfl ⟨⟩
  exact h

end Draws

end ShaderGen.Plan
