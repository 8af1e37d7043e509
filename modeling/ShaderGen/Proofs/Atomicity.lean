import ShaderGen.Proofs.Retries
import ShaderGen.Random.Script

/-!
Statements are produced whole or not at all. A routine searches first: operands, the types
that follow from theirs, the constants it indexes with. Only when nothing can be missing any
more does it add an instruction, open a scope or import a set, and from then on it is not
infeasible. So a statement that is infeasible leaves types and constants behind and nothing
else, and what a block gets from a statement are instructions that its last variant added.
-/

namespace ShaderGen

variable {ρ α β : Type} {c : Config}

/-- All instructions that a production names. -/
def Production.ids (p : Production) : List InstrId := p.stream ++ p.visible ++ p.hoisted

/-- All instructions that a block names. -/
def Block.ids (b : Block) : List InstrId := b.stream.toList ++ b.hoisted.toList

/-- Some instructions were added between two states of a session. -/
structure State.Adds (s s' : State ρ) (ids : List InstrId) : Prop where
  grows : s.code.instrs.size ≤ s'.code.instrs.size
  between : ∀ id ∈ ids, s.code.instrs.size ≤ id.index ∧ id.index < s'.code.instrs.size

theorem State.Adds.subset {s s' : State ρ} {ids ids' : List InstrId} (h : s.Adds s' ids)
    (hsub : ids' ⊆ ids) : s.Adds s' ids' := ⟨h.grows, fun id hid => h.between id (hsub hid)⟩

theorem State.Adds.append {s₀ s s' : State ρ} {known ids : List InstrId} (h : s₀.Adds s known)
    (h' : s.Adds s' ids) : s₀.Adds s' (ids ++ known) where
  grows := h.grows.trans h'.grows
  between := List.forall_mem_append.mpr
    ⟨fun id hid => ⟨h.grows.trans (h'.between id hid).1, (h'.between id hid).2⟩,
      fun id hid => ⟨(h.between id hid).1, (h.between id hid).2.trans_le h'.grows⟩⟩

/-- What was added since a search was added since the state before it. -/
theorem State.Adds.since {s s₁ s' : State ρ} {ids : List InstrId} (h : s₁.Adds s' ids)
    (h₁ : s.Untouched s₁) : s.Adds s' ids := by
  have heq := h₁.code.instrs
  exact ⟨heq ▸ h.grows, heq ▸ h.between⟩

namespace Gen

/-! ### Steps behind the search -/

/-- A step is not infeasible, and what it answers names instructions that were added since a
state before it, if some are known to be. -/
def Commits (known : List InstrId) (ids : α → List InstrId) (x : Gen ρ α) : Prop :=
  ∀ (c : Config) (s₀ s : State ρ), s₀.Adds s known →
    Ends x c s (fun a s' => s₀.Adds s' (ids a)) fun e _ => e ≠ .infeasible

namespace Commits

variable {known : List InstrId} {ids : α → List InstrId} {x : Gen ρ α}

theorem pure {a : α} (h : ids a ⊆ known) : Commits (ρ := ρ) known ids (Pure.pure a) :=
  fun _ _ _ hadds => .pure (hadds.subset h)

theorem bind {ids' : β → List InstrId} {g : α → Gen ρ β} (hx : Commits known ids x)
    (hg : ∀ a, Commits (ids a) ids' (g a)) : Commits known ids' (x >>= g) :=
  fun c s₀ s hadds => .bind ((hx c s₀ s hadds).mono (fun a s₁ h₁ => hg a c s₀ s₁ h₁)
    fun _ _ he => he)

theorem alloc (i : Instr) : Commits (ρ := ρ) known (fun id => id :: known) (Gen.alloc i) := by
  intro c s₀ s hadds
  refine .build ⟨?_, List.forall_mem_cons.mpr ⟨?_, fun id hid => ?_⟩⟩
  all_goals simp only [Module.alloc, Array.size_push]
  · exact Nat.le_succ_of_le hadds.grows
  · exact ⟨hadds.grows, Nat.lt_succ_self _⟩
  · exact ⟨(hadds.between id hid).1, Nat.lt_succ_of_lt (hadds.between id hid).2⟩

/-- Steps that add no instruction and are not infeasible. -/
theorem of_keeps (h : ∀ c s, Ends x c s (fun _ s' => s'.code.instrs = s.code.instrs)
    fun e _ => e ≠ .infeasible) : Commits known (fun _ => known) x := by
  intro c s₀ s hadds
  refine (h c s).mono (fun _ s' heq => ⟨?_, ?_⟩) fun _ _ he => he
  · exact heq ▸ hadds.grows
  · exact heq ▸ hadds.between

end Commits

/-! ### Whole statements -/

/-- A production names instructions that were added for it, and where there is none nothing
but types and constants was added, unless the session stops. -/
def Atomic (x : Gen ρ Production) : Prop :=
  ∀ c s, Ends x c s (fun p s' => s.Adds s' p.ids) fun e s' => e = .infeasible → s.Untouched s'

/-- A step that searches, before anything is added. -/
abbrev Searches (x : Gen ρ α) : Prop := Searching (fun _ y => Relates State.Untouched y) x

theorem Searches.relates {x : Gen ρ α} (h : Searches x) : Relates State.Untouched x :=
  overlooks_untouched.searching h

theorem internType_searches (t : Ty) : Searches (ρ := ρ) (internType t) :=
  .but fun _ s => .build (overlooks_untouched.internType s t)

namespace Atomic

variable {x y : Gen ρ Production}

theorem behind {x : Gen ρ α} {g : α → Gen ρ Production} (hx : Searches x)
    (hg : ∀ a, Atomic (g a)) : Atomic (x >>= g) := by
  intro c s
  refine .bind ((hx.relates c s).mono (fun a s₁ h₁ => ?_) fun _ _ h _ => h)
  exact (hg a c s₁).mono (fun _ _ h => h.since h₁) fun _ _ h he => h₁.trans (h he)

theorem infeasible : Atomic (Gen.infeasible : Gen ρ Production) :=
  fun _ s => .infeasible fun _ => .refl s

theorem of_commits (h : Commits [] Production.ids x) : Atomic x := fun c s =>
  (h c s s ⟨le_refl _, nofun⟩).mono (fun _ _ hadds => hadds) fun _ _ he heq => absurd heq he

theorem emit (op : Opcode) (ty : EntryId) (operands : List Operand) :
    Atomic (ρ := ρ) (emit op ty operands) :=
  .of_commits (.bind (.alloc _) fun id => .pure (by simp [Production.ids, Production.single]))

/-- Trying one and then another, if the first is infeasible. -/
theorem orElse (hx : Atomic x) (hy : Atomic y) : Atomic (do
    match ← attempt x with
    | some p => pure p
    | none => y) := by
  intro c s
  refine .bind (.attempt ((hx c s).mono (fun p s' h => .pure h) ?_))
  rintro (_ | cause) s₁ h₁
  · exact (hy c s₁).mono (fun _ _ h => h.since (h₁ rfl)) fun _ _ h he => (h₁ rfl).trans (h he)
  · exact nofun

/-- An attempt is not infeasible, and what is produced adds to what is known. -/
theorem attempt (hx : Atomic x) (known : List InstrId) :
    Commits known (fun o => (o.elim [] Production.ids) ++ known) (Gen.attempt x) := by
  intro c s₀ s hadds
  refine .attempt ((hx c s).mono (fun p s' h => ?_) ?_)
  · exact hadds.append h
  · rintro (_ | cause) s' h
    · exact hadds.append ⟨(h rfl).code.instrs.symm ▸ le_refl _, nofun⟩
    · exact nofun

end Atomic

/-- What searches before it emits is produced whole. -/
theorem Emits.atomic {x : Gen ρ Production} (h : Emits x) : Atomic x := by
  induction h with
  | emit op ty operands _ => exact .emit op ty operands
  | infeasible => exact .infeasible
  | bind hx _ hg => exact .behind (hx.mono fun _ h => h.elim) hg

/-! ### Kinds of statements -/

variable [RandomSource ρ]

omit [RandomSource ρ] in
theorem childScope_commits (known : List InstrId) (parent : ScopeId) (function : Option InstrId) :
    Commits (ρ := ρ) known (fun _ => known) (childScope parent function) := by
  refine .of_keeps fun c s => .bind (.get ?_)
  split
  · exact .fault nofun
  · exact .bind (.modify (.pure rfl))

omit [RandomSource ρ] in
theorem declare_commits (known : List InstrId) (scope : ScopeId) (id : InstrId) :
    Commits (ρ := ρ) known (fun _ => known) (declare scope id) :=
  .of_keeps fun _ _ => .bind (.ask (fun _ _ => .modify rfl) fun _ => nofun)

omit [RandomSource ρ] in
theorem append_commits (known : List InstrId) (scope : ScopeId) (block : Block)
    (production : Production) :
    Commits (ρ := ρ) (production.ids ++ (block.ids ++ known)) (fun b => b.ids ++ known)
      (append scope block production) := by
  have hdeclares : ∀ (ids : List InstrId) known, Commits (ρ := ρ) known (fun _ => known)
      (ids.forM (declare scope)) := by
    intro ids known
    induction ids with
    | nil => exact .pure (List.Subset.refl _)
    | cons id ids ih => exact .bind (declare_commits known scope id) fun _ => ih
  refine .bind (hdeclares _ _) fun _ => .pure fun id hid => ?_
  simp only [Production.ids, Block.ids, Array.toList_appendList, List.mem_append] at hid ⊢
  tauto

theorem chance_commits (known : List InstrId) (p : Float) :
    Commits (ρ := ρ) known (fun _ => known) (chance p) := by
  refine .of_keeps fun _ _ => ?_
  unfold chance
  split_ifs
  · exact .draw rfl
  · exact .draw rfl
  · exact .draw rfl
  · exact .fault nofun

theorem localVariable_atomic : Atomic (ρ := ρ) localVariable := by
  unfold localVariable newVariable
  simp only [bind_assoc]
  refine .behind variableType_searching fun ty => .behind (internType_searches _) fun pointer =>
    .behind (initializer_searching ty) fun initial => .of_commits (.bind (.alloc _) fun id => ?_)
  exact .pure (by simp [Production.ids])

theorem extendedWith_atomic (scope : ScopeId) (op : ExtendedOp) :
    Atomic (ρ := ρ) (extendedWith scope op) := by
  have himports : ∀ known, Commits (ρ := ρ) known (fun _ => known)
      (build (·.importSet ExtendedOp.setName)) := by
    refine fun known => .of_keeps fun c s => .build ?_
    dsimp only [Module.importSet]
    split
    · rfl
    · rfl
  have hemits : ∀ ty first (others : List Value), Atomic (ρ := ρ) (do
      let set ← build (·.importSet ExtendedOp.setName)
      emit .extInst ty
        (.importSet set :: .extended op :: .value first :: others.map Operand.value)) :=
    fun ty first others => .of_commits (.bind (himports []) fun set => .bind (.alloc _) fun id =>
      .pure (by simp [Production.ids, Production.single]))
  unfold extendedWith
  refine .behind (typedOperand_searching _ _) fun _ =>
    .behind (.mapM (fun _ => operandOf_searching _ _) _) fun _ => ?_
  dsimp only
  split
  · exact .behind (.query _) fun _ => hemits _ _ _
  · exact hemits _ _ _

theorem firstExtended_atomic (scope : ScopeId) (ops : List ExtendedOp) :
    Atomic (ρ := ρ) (firstExtended scope ops) := by
  induction ops with
  | nil => exact .infeasible
  | cons op ops ih => exact .orElse (extendedWith_atomic scope op) ih

theorem extended_atomic (scope : ScopeId) : Atomic (ρ := ρ) (extended scope) := by
  unfold extended
  generalize RandomSource.shuffle (ρ := ρ) ExtendedOp.all = shuffles
  exact .behind (.draw shuffles) fun ops => firstExtended_atomic scope ops

theorem selection_atomic {arm : Option (ScopeId → Gen ρ Block)}
    (harm : ∀ f ∈ arm, ∀ scope known, Commits known (fun b => b.ids ++ known) (f scope))
    (scope : ScopeId) : Atomic (selection arm scope) := by
  refine .behind (.ask _) fun _ => ?_
  cases arm with
  | none => exact .infeasible
  | some f =>
    have hfill := harm f rfl
    rw [require, pure_bind]
    -- once there is a condition, nothing is missing any more
    refine .behind (operand_searching _ _) fun condition => .of_commits
      (.bind (childScope_commits _ _ _) fun _ => .bind (hfill _ _) fun thenBlock =>
        .bind (childScope_commits _ _ _) fun _ => .bind (hfill _ _) fun elseBlock => ?_)
    refine .bind (.alloc _) fun merge => .bind (.alloc _) fun thenLabel =>
      .bind (.alloc _) fun elseLabel => .bind (.alloc _) fun header =>
        .bind (.alloc _) fun branch => .bind (.alloc _) fun thenExit =>
          .bind (.alloc _) fun elseExit => .pure fun id hid => ?_
    simp only [Production.ids, Block.ids, List.mem_append, List.mem_cons] at hid ⊢
    tauto

theorem variantWith_atomic {arm : Option (ScopeId → Gen ρ Block)}
    (harm : ∀ f ∈ arm, ∀ scope known, Commits known (fun b => b.ids ++ known) (f scope))
    (scope : ScopeId) (op : Opcode) : Atomic (variantWith arm scope op) := by
  cases hrecipe : op.recipe? with
  | none =>
    simp only [variantWith, hrecipe]
    refine fun c s => .stop fun h => ?_
    cases h
  | some recipe =>
    cases recipe with
    | localVariable =>
      simp only [variantWith, hrecipe]
      exact localVariable_atomic
    | store =>
      simp only [variantWith, hrecipe]
      exact .behind (pointerOperand_searching _ _) fun _ => .behind (operandOf_searching _ _)
        fun _ => .of_commits (.bind (.alloc _) fun id => .pure (by simp [Production.ids]))
    | extended =>
      simp only [variantWith, hrecipe]
      exact extended_atomic scope
    | selection =>
      simp only [variantWith, hrecipe]
      exact selection_atomic harm scope
    | _ => exact (variantWith_emits arm scope hrecipe (by simp)).atomic

/-! ### Statements and blocks -/

theorem statementWith_atomic {arm : Option (ScopeId → Gen ρ Block)}
    (harm : ∀ f ∈ arm, ∀ scope known, Commits known (fun b => b.ids ++ known) (f scope))
    (scope : ScopeId) : Atomic (statementWith arm scope) := by
  intro c s
  have hvariant := variantWith_atomic harm scope
  refine (overlooks_untouched.dispatch_ends not_false fun op _ s₁ => (hvariant op c s₁).mono
    (fun _ _ _ => trivial) fun _ _ h => h).mono ?_ ?_
  · rintro p s' ⟨op, -, s₁, s₂, h₁, hrun, rfl⟩
    have hadds := ((hvariant op c s₁).of_run_ok hrun).since h₁
    exact ⟨hadds.grows, hadds.between⟩
  · rintro e s' (h | ⟨op, -, s₁, cause, -, rfl, -⟩) he
    · exact h
    · cases he

theorem fillBlock_commits {statement : Gen ρ Production} (hstatement : Atomic statement)
    (scope : ScopeId) (known : List InstrId) (rounds : Nat) (block : Block) :
    Commits (block.ids ++ known) (fun b => b.ids ++ known)
      (fillBlock statement scope rounds block) := by
  induction rounds generalizing block with
  | zero => exact fun _ _ _ _ => .fault nofun
  | succ rounds ih =>
    have hpure : Commits (block.ids ++ known) (fun b => b.ids ++ known)
        (Pure.pure block : Gen ρ Block) := .pure (List.Subset.refl _)
    refine .bind (.of_keeps fun _ _ => .read rfl) fun c => ?_
    refine .bind (chance_commits _ _) fun goesOn => ?_
    split
    · refine .bind (hstatement.attempt _) fun made => ?_
      cases made with
      | none => exact hpure
      | some production =>
        exact .bind (append_commits known scope block production) fun block' => ih block'
    · exact hpure

theorem blockWith_commits {arm : Option (ScopeId → Gen ρ Block)}
    (harm : ∀ f ∈ arm, ∀ scope known, Commits known (fun b => b.ids ++ known) (f scope))
    (scope : ScopeId) (known : List InstrId) :
    Commits known (fun b => b.ids ++ known) (blockWith arm scope) :=
  .bind (.of_keeps fun _ _ => .read rfl) fun _ => .bind (.of_keeps fun _ _ => .get rfl) fun _ =>
    fillBlock_commits (statementWith_atomic harm scope) scope known _ {}

theorem arms_commit (levels : Nat) : ∀ f ∈ arms (ρ := ρ) levels, ∀ scope known,
    Commits known (fun b => b.ids ++ known) (f scope) := by
  induction levels with
  | zero => exact nofun
  | succ levels ih =>
    rintro f hf scope known
    obtain rfl := Option.some.inj hf
    exact blockWith_commits ih scope known

/-- The levels of selections that are left in a scope, which depend on the scopes only. -/
def levels (c : Config) (scope : ScopeId) (s : State ρ) : Nat :=
  (s.scopes.get? scope).elim 0 fun found => c.maxDepth - found.depth

omit [RandomSource ρ] in
theorem levelsLeft_run (c : Config) (scope : ScopeId) (s : State ρ) :
    (levelsLeft scope).run c s = (.ok (levels c scope s), s) := by
  rw [levelsLeft, run_bind, show (get : Gen ρ (State ρ)).run c s = (.ok s, s) from rfl, levels]
  dsimp only
  cases s.scopes.get? scope <;> rfl

/-- A statement that is infeasible, of one kind or after any number of kinds that were tried,
leaves instructions, scopes, annotations, imports, function types and the number of statements
as they were, and adds only types and constants at the end of the table. Where a statement is
produced, that is what its last variant produced, from a session that differs from the first
one by types and constants only; the instructions it names were added by that variant. -/
theorem infeasible_leaves_no_trace (c : Config) (s : State ρ) (scope : ScopeId) :
    (∀ op s', (variant scope op).run c s = (.error .infeasible, s') → s.Untouched s') ∧
    (∀ s', (statement scope).run c s = (.error .infeasible, s') → s.Untouched s') ∧
    ∀ p s', (statement scope).run c s = (.ok p, s') →
      ∃ op ∈ Category.statement.members, ∃ s₁ s₂, s.Untouched s₁ ∧
        (variant scope op).run c s₁ = (.ok p, s₂) ∧
        s' = { s₂ with statements := s₂.statements + 1 } ∧
        ∀ id ∈ p.stream ++ p.visible ++ p.hoisted,
          s₁.code.instrs.size ≤ id.index ∧ id.index < s₂.code.instrs.size := by
  have hvariant : ∀ op (s₁ : State ρ), (variant scope op).run c s₁ =
      (variantWith (arms (levels c scope s₁)) scope op).run c s₁ := fun op s₁ => by
    rw [variant, run_bind, levelsLeft_run]
  have hatomic : ∀ levels op, Atomic (ρ := ρ) (variantWith (arms levels) scope op) :=
    fun levels => variantWith_atomic (arms_commit levels) scope
  have hstatement : (statement scope).run c s =
      (statementWith (arms (levels c scope s)) scope).run c s := by
    rw [statement, run_bind, levelsLeft_run]
  refine ⟨fun op s' hrun => ?_, fun s' hrun => ?_, fun p s' hrun => ?_⟩
  · rw [hvariant] at hrun
    exact (hatomic _ op c s).of_run_error hrun rfl
  · rw [hstatement] at hrun
    exact (statementWith_atomic (arms_commit _) scope c s).of_run_error hrun rfl
  · rw [hstatement] at hrun
    obtain ⟨op, hop, s₁, s₂, h₁, hrun₁, rfl⟩ :=
      (overlooks_untouched.dispatch_ends not_false fun op _ s₁ => (hatomic _ op c s₁).mono
        (fun _ _ _ => trivial) fun _ _ h => h).of_run_ok hrun
    refine ⟨op, hop, s₁, s₂, h₁, ?_, rfl, ((hatomic _ op c s₁).of_run_ok hrun₁).between⟩
    rw [hvariant, levels, h₁.scopes, ← levels, hrun₁]

/-- A session with one boolean constant, whose statements are all of a few kinds. -/
def oneConstant (kinds : List Opcode) : State Script where
  source := {}
  weights := ({} : WeightTable).setRow .statement
    { weights := some (Category.statement.members.map fun op =>
        if kinds.contains op then 1.0 else 0.0) }
  code := ((({} : Module).internType .bool).2.internConst (.bool ⟨0⟩ true)).2

set_option maxRecDepth 4000 in
/-- There is nothing to load. Where constants may be copied as well, the copy is what remains
of the statement. -/
theorem infeasible_leaves_no_trace_oneConstant :
    (∃ s', (variant ScopeTree.root .load).run {} (oneConstant [.load]) =
      (.error .infeasible, s') ∧ (oneConstant [.load]).Untouched s') ∧
    (∃ s', (statement ScopeTree.root).run {} (oneConstant [.load]) = (.error .infeasible, s') ∧
      s'.pruned = [.statement] ∧ (oneConstant [.load]).Untouched s') ∧
    ∃ s', (statement ScopeTree.root).run {} (oneConstant [.load, .copyObject]) =
      (.ok (.single ⟨0⟩), s') ∧ s'.pruned = [.statement] ∧
      ∃ op ∈ Category.statement.members, ∃ s₁ s₂,
        (oneConstant [.load, .copyObject]).Untouched s₁ ∧
        (variant ScopeTree.root op).run {} s₁ = (.ok (.single ⟨0⟩), s₂) ∧ s'.code = s₂.code := by
  have hload : ∃ s', (variant ScopeTree.root .load).run {} (oneConstant [.load]) =
    (.error .infeasible, s') := ⟨_, rfl⟩
  have hexhausted : ∃ s', (statement ScopeTree.root).run {} (oneConstant [.load]) =
    (.error .infeasible, s') ∧ s'.pruned = [.statement] := ⟨_, rfl, rfl⟩
  have hcopied : ∃ s', (statement ScopeTree.root).run {} (oneConstant [.load, .copyObject]) =
    (.ok (.single ⟨0⟩), s') ∧ s'.pruned = [.statement] := ⟨_, rfl, rfl⟩
  obtain ⟨hvariant, hstatement, -⟩ :=
    infeasible_leaves_no_trace {} (oneConstant [.load]) ScopeTree.root
  obtain ⟨s', hs'⟩ := hload
  obtain ⟨s'', hs'', hpruned⟩ := hexhausted
  refine ⟨⟨s', hs', hvariant _ _ hs'⟩, ⟨s'', hs'', hpruned, hstatement _ hs''⟩, ?_⟩
  obtain ⟨s₃, hs₃, hpruned⟩ := hcopied
  obtain ⟨op, hop, s₁, s₂, h₁, hrun, rfl, -⟩ :=
    (infeasible_leaves_no_trace {} _ ScopeTree.root).2.2 _ _ hs₃
  exact ⟨_, hs₃, hpruned, op, hop, s₁, s₂, h₁, hrun, rfl⟩

end Gen

end ShaderGen
