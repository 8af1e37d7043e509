import ShaderGen.Proofs.Runs

/-!
The generator carries out its plans. Its loops count rounds and its recursions count
levels; as long as no count runs out it does what the plan of the same routine says,
although the plan counts nothing.
-/

namespace ShaderGen

theorem Opcode.eq_selectionMerge {op : Opcode} (h : op.recipe? = some .selection) :
    op = .selectionMerge := by
  cases op <;> first | rfl | cases h

namespace Plan

variable {ρ α β : Type} [RandomSource ρ] {c : Config} {p : Plan ρ α} {x : Gen ρ α}

/-- Unless its count runs out, a step does what a plan says. -/
def Follows (c : Config) (p : Plan ρ α) (x : Gen ρ α) : Prop :=
  ∀ s, (x.run c s).1 ≠ .error (.stopped (.fault .outOfSteps)) → ∃ ms, p.Runs c s ms (x.run c s)

namespace Follows

theorem done (a : α) : Follows c (.done a : Plan ρ α) (pure a) := fun _ _ => ⟨[], .done⟩

theorem step {e : Event} : Follows c (.step e x) x := fun _ _ => ⟨_, .step⟩

theorem work : Follows c (.work x) x := step

theorem call {r : Routine α} (h : Follows c r.body x) : Follows c (.call r) x := by
  intro s hs
  obtain ⟨ms, hruns⟩ := h s hs
  exact ⟨ms, hruns.call⟩

theorem bind {q : α → Plan ρ β} {f : α → Gen ρ β} (hp : Follows c p x)
    (hq : ∀ a, Follows c (q a) (f a)) : Follows c (p >>= q) (x >>= f) := by
  intro s hs
  rw [Gen.run_bind] at hs ⊢
  rcases hx : x.run c s with ⟨e | a, s'⟩
  · simp only [hx] at hs ⊢
    obtain ⟨ms, hruns⟩ := hp s fun h =>
      hs (congrArg Except.error (Except.error.inj (hx.symm ▸ h)))
    rw [hx] at hruns
    exact ⟨ms, hruns.seqError⟩
  · simp only [hx] at hs ⊢
    obtain ⟨ms, hruns⟩ := hp s (by simp [hx])
    rw [hx] at hruns
    obtain ⟨ms', hruns'⟩ := hq a s' hs
    exact ⟨ms ++ ms', hruns.seq hruns'⟩

theorem attempt (hp : Follows c p x) : Follows c (.attempt p) (Gen.attempt x) := by
  intro s hs
  rw [Gen.run_attempt] at hs ⊢
  rcases hx : x.run c s with ⟨(_ | cause) | a, s'⟩
  · simp only [hx] at hs ⊢
    obtain ⟨ms, hruns⟩ := hp s (by simp [hx])
    rw [hx] at hruns
    exact ⟨ms ++ [], hruns.handleInfeasible .done⟩
  · simp only [hx] at hs ⊢
    obtain ⟨ms, hruns⟩ := hp s fun h =>
      hs (congrArg Except.error (Except.error.inj (hx.symm ▸ h)))
    rw [hx] at hruns
    exact ⟨ms, hruns.handleStopped⟩
  · simp only [hx] at hs ⊢
    obtain ⟨ms, hruns⟩ := hp s (by simp [hx])
    rw [hx] at hruns
    exact ⟨ms ++ [], hruns.handle .done⟩

/-- What the generator looks up for its counts is no step of a plan. -/
theorem read_bind {f : Config → Gen ρ α} (h : Follows c p (f c)) : Follows c p (read >>= f) := by
  intro s hs
  have hrun : (read >>= f).run c s = (f c).run c s := Gen.run_bind read f c s
  rw [hrun] at hs ⊢
  exact h s hs

theorem get_bind {f : State ρ → Gen ρ α} (h : ∀ s, Follows c p (f s)) :
    Follows c p (get >>= f) := by
  intro s hs
  have hrun : (get >>= f).run c s = (f s).run c s := Gen.run_bind get f c s
  rw [hrun] at hs ⊢
  exact h s s hs

/-- A step that runs out does what any plan says. -/
theorem outOfSteps : Follows c p (Gen.fault .outOfSteps) := fun _ hs => absurd rfl hs

/-- Marking the start of a plan changes nothing. -/
theorem mark {e : Event} (h : Follows c p x) :
    Follows c (.step e (pure ()) >>= fun _ => p) x := by
  have hbind := bind (step (x := (pure () : Gen ρ Unit)) (e := e)) fun _ => h
  rwa [pure_bind] at hbind

end Follows

/-! ### Draws -/

variable {t : Target α} {produce : Opcode → Gen ρ α}

theorem resample_follows (hproduce : ∀ op, Follows c (.variant t op) (produce op))
    (rounds misses : Nat) :
    Follows c (.call (.resample t misses)) (Gen.resample t.category produce rounds) := by
  induction rounds generalizing misses with
  | zero => exact .outOfSteps
  | succ rounds ih =>
    refine .call (.bind .step fun o => ?_)
    cases o with
    | none => exact .work
    | some op =>
      refine .bind (.attempt (.call (.mark (hproduce op)))) fun a => ?_
      cases a with
      | none => exact .bind .work fun _ => ih (misses + 1)
      | some a =>
        dsimp only
        split
        · exact .bind .work fun _ => .done a
        · exact .done a

theorem dispatch_eq (cat : Category) (produce : Opcode → Gen ρ α) :
    Gen.dispatch cat produce = Gen.checkBudget >>= fun _ => prepare cat >>= fun _ =>
      Gen.resample cat produce (cat.members.length + 1) := by
  unfold Gen.dispatch prepare
  split <;> simp only [bind_assoc]

theorem dispatch_follows (hproduce : ∀ op, Follows c (.variant t op) (produce op)) :
    Follows c (ask t) (Gen.dispatch t.category produce) := by
  rw [dispatch_eq]
  exact .call (.bind .step fun _ => .bind .work fun _ => resample_follows hproduce _ 0)

/-! ### Types and constants -/

theorem askAll_follows {nested : Category → Gen ρ EntryId}
    (hnested : ∀ cat, Follows c (ask (.type cat)) (nested cat)) (cs : List Category) :
    Follows c (askAll cs) (cs.mapM nested) := by
  induction cs with
  | nil => exact .done []
  | cons cat cs ih =>
    rw [List.mapM_cons]
    exact .bind (hnested cat) fun id => .bind ih fun ids => .done (id :: ids)

/-- Only four kinds of types have parts. -/
theorem typeVariant_eq (nested nested' : Category → Gen ρ EntryId) {op : Opcode}
    (hvector : op ≠ .typeVector) (harray : op ≠ .typeArray) (hstruct : op ≠ .typeStruct)
    (hfunction : op ≠ .typeFunction) : Gen.typeVariant nested op = Gen.typeVariant nested' op := by
  unfold Gen.typeVariant
  split <;> first | rfl | contradiction

theorem typeVariant_follows {nested : Category → Gen ρ EntryId}
    (hnested : ∀ cat, Follows c (ask (.type cat)) (nested cat)) (op : Opcode) :
    Follows c (typeVariant op) (Gen.typeVariant nested op) := by
  unfold typeVariant
  split
  · exact .bind (hnested _) fun _ => .work
  · exact .bind (hnested _) fun _ => .work
  · exact .bind .work fun _ => .bind (askAll_follows hnested _) fun _ => .work
  · refine .bind .work fun full => ?_
    have hmake : Follows c
        (do
          let result ← work (Gen.internType .void)
          let count ← work (Gen.range 0 3)
          let params ← askAll (List.replicate count .arithmeticType)
          let id ← work (Gen.internType (.function result params))
          work (Gen.addFunctionType id)
          return id)
        (do
          let result ← Gen.internType .void
          let count ← Gen.range 0 3
          let params ← (List.replicate count Category.arithmeticType).mapM nested
          let id ← Gen.internType (.function result params)
          Gen.addFunctionType id
          return id) :=
      .bind .work fun _ => .bind .work fun _ => .bind (askAll_follows hnested _) fun _ =>
        .bind .work fun id => .bind .work fun _ => .done id
    dsimp only
    split
    · exact .bind .work fun _ => hmake
    · exact hmake
  · rw [typeVariant_eq nested (fun _ => Gen.infeasible) ‹_› ‹_› ‹_› ‹_›]
    exact .work

theorem typeWithin_follows (nesting : Nat) (cat : Category) :
    Follows c (ask (.type cat)) (Gen.typeWithin (ρ := ρ) nesting cat) := by
  induction nesting generalizing cat with
  | zero => exact dispatch_follows (t := .type cat) (typeVariant_follows fun _ => .outOfSteps)
  | succ nesting ih => exact dispatch_follows (t := .type cat) (typeVariant_follows ih)

theorem constantVariant_follows (op : Opcode) :
    Follows c (constantVariant op) (Gen.constantVariant (ρ := ρ) op) := by
  unfold constantVariant
  split
  · refine .bind .work fun o => ?_
    cases o with
    | none => exact .bind (typeWithin_follows _ _) fun _ => .work
    | some ty => exact .work
  · exact .work

theorem constant_follows : Follows c (ask .constant) (Gen.constant (ρ := ρ)) :=
  dispatch_follows (t := .constant) constantVariant_follows

/-! ### Statements -/

variable {arm : Option (ScopeId → Gen ρ Block)}

/-- The arms of a selection follow the plan of a block with a level less. -/
def ArmsFollow (c : Config) (levels : Nat) (arm : Option (ScopeId → Gen ρ Block)) : Prop :=
  match levels, arm with
  | 0, none => True
  | levels + 1, some arm => ∀ scope, Follows c (.call (.fill levels scope {})) (arm scope)
  | _, _ => False

theorem selection_follows {levels : Nat} (h : ArmsFollow c levels arm) (scope : ScopeId) :
    Follows c (selection levels scope) (Gen.selection arm scope) := by
  refine .bind .work fun _ => ?_
  match levels, arm, h with
  | 0, none, _ =>
    change Follows c _ (Gen.infeasible (ρ := ρ))
    exact .work
  | levels + 1, some arm, h =>
    exact .bind .work fun _ => .bind .work fun _ => .bind (h _) fun _ => .bind .work fun _ =>
      .bind (h _) fun _ => .work

/-- Only selections have arms. -/
theorem variantWith_eq {op : Opcode} (hop : op ≠ .selectionMerge)
    (arm arm' : Option (ScopeId → Gen ρ Block)) {scope : ScopeId} :
    Gen.variantWith arm scope op = Gen.variantWith arm' scope op := by
  unfold Gen.variantWith
  split
  · rfl
  · rename_i recipe hrecipe
    cases recipe with
    | selection => exact absurd (Opcode.eq_selectionMerge hrecipe) hop
    | _ => rfl

theorem statementVariant_follows {levels : Nat} (h : ArmsFollow c levels arm) (scope : ScopeId)
    (op : Opcode) :
    Follows c (statementVariant levels scope op) (Gen.variantWith arm scope op) := by
  unfold statementVariant
  split
  case isTrue hop =>
    rw [hop]
    exact selection_follows h scope
  case isFalse hop =>
    rw [variantWith_eq hop arm none]
    exact .work

theorem fillBlock_follows {levels : Nat} (h : ArmsFollow c levels arm) (scope : ScopeId)
    (rounds : Nat) (block : Block) : Follows c (.call (.fill levels scope block))
      (Gen.fillBlock (Gen.statementWith arm scope) scope rounds block) := by
  induction rounds generalizing block with
  | zero => exact .outOfSteps
  | succ rounds ih =>
    refine .call (.bind .work fun _ => .bind .work fun goesOn => ?_)
    split
    · refine .bind (.attempt (dispatch_follows (t := .statement levels scope)
        (statementVariant_follows h scope))) fun o => ?_
      cases o with
      | none => exact .done block
      | some production => exact .bind .work fun block => ih block
    · exact .done block

theorem blockWith_follows {levels : Nat} (h : ArmsFollow c levels arm) (scope : ScopeId) :
    Follows c (.call (.fill levels scope {})) (Gen.blockWith arm scope) :=
  .read_bind (.get_bind fun _ => fillBlock_follows h scope _ {})

theorem arms_follow (levels : Nat) : ArmsFollow c levels (Gen.arms (ρ := ρ) levels) := by
  induction levels with
  | zero => trivial
  | succ levels ih => exact blockWith_follows ih

/-! ### Whole shaders -/

theorem fill_follows {isEnough : State ρ → Bool} {t : Target EntryId} {produce : Gen ρ EntryId}
    (h : Follows c (ask t) produce) (attempts : Nat) :
    Follows c (fill isEnough t attempts) (Gen.fill isEnough produce attempts) := by
  induction attempts with
  | zero => exact .done ()
  | succ attempts ih =>
    refine .bind .work fun s => ?_
    split
    · exact .done ()
    · exact .bind (.attempt h) fun _ => ih

theorem globalTable_follows : Follows c (globalTable (ρ := ρ)) Gen.globalTable :=
  .bind .work fun _ => .bind .work fun _ => .bind .work fun _ =>
    .bind (fill_follows (typeWithin_follows _ _) _) fun _ => .bind .work fun _ =>
      .bind .work fun _ => .bind (fill_follows constant_follows _) fun _ =>
        .bind .work fun _ => .bind .work fun _ => .done ()

theorem function_follows (ty : EntryId) : Follows c (function (ρ := ρ) ty) (Gen.function ty) := by
  refine .bind .work fun t => ?_
  cases t with
  | function result params =>
    refine .bind .work fun opening => ?_
    have hbody : Follows c
        (do
          let h ← work (head opening params)
          let body ← call (.fill h.levels h.scope {})
          let ret ← work (Gen.alloc { opcode := .ret })
          let closing ← work (Gen.alloc { opcode := .functionEnd })
          return (opening,
            (#[opening] ++ h.params).push h.entry ++ body.hoisted ++ body.stream ++
              #[ret, closing]))
        (do
          let h ← head (ρ := ρ) opening params
          let body ← Gen.blockWith (Gen.arms h.levels) h.scope
          let ret ← Gen.alloc { opcode := .ret }
          let closing ← Gen.alloc { opcode := .functionEnd }
          return (opening,
            (#[opening] ++ h.params).push h.entry ++ body.hoisted ++ body.stream ++
              #[ret, closing])) :=
      .bind .work fun h => .bind (blockWith_follows (arms_follow h.levels) h.scope) fun _ =>
        .bind .work fun _ => .bind .work fun _ => .done _
    simpa only [head, Gen.block, bind_assoc, pure_bind] using hbody
  | _ => exact .work

theorem functionsOf_follows (tys : List EntryId) :
    Follows c (functionsOf (ρ := ρ) tys) (Gen.functionsOf tys) := by
  induction tys with
  | nil => exact .done []
  | cons ty tys ih => exact .bind (function_follows ty) fun f => .bind ih fun fs => .done (f :: fs)

theorem functions_follows : Follows c (functions (ρ := ρ)) Gen.functions := by
  refine .bind .work fun s => .bind (functionsOf_follows _) fun made => ?_
  split
  · exact .work
  · exact .done _

/-- The generator carries out the plan of a shader. -/
theorem program_follows : Follows c (program (ρ := ρ)) Gen.program :=
  .bind globalTable_follows fun _ => .bind functions_follows fun _ => .bind .work fun _ => .done _

end Plan

end ShaderGen
