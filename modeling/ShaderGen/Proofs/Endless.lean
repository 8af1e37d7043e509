import ShaderGen.Proofs.Fertility
import ShaderGen.Proofs.Filling
import ShaderGen.Random.Certain

/-!
Blocks that never end. A block ends where no more statements are wanted or where none can be
produced. If more are always wanted, and a constant is there to copy, then neither happens:
each statement that is asked for is produced or exceeds the budget, so what comes behind a
block is never reached, and no session ends but for its budget. The largest budget of all is
never exceeded: before that the count of statements is full.
-/

namespace ShaderGen

variable {ρ α β : Type} [RandomSource ρ] {c : Config} {s s' : State ρ} {scope : ScopeId}
  {op : Opcode}

/-- How a session ends that never has enough statements: over its budget, if a count fits its
word that is larger than the budget. -/
def Config.spent (c : Config) : Stop :=
  if c.instructionBudget + 1 < 2 ^ 64 then .overBudget c.instructionBudget else .fault .overflow

theorem Config.spent_of_exceeded {n : Nat} (h : c.instructionBudget < n) (hn : n < 2 ^ 64) :
    c.spent = .overBudget c.instructionBudget := if_pos (Nat.lt_of_le_of_lt h hn)

theorem Config.spent_of_full {n : Nat} (h : n ≤ c.instructionBudget) (hn : 2 ^ 64 ≤ n + 1) :
    c.spent = .fault .overflow := if_neg (by omega)

/-! ### The contract -/

/-- A statement is asked for, in a scope that is there. -/
def Target.Hosted (s : State ρ) : {α : Type} → Target α → Prop
  | _, .statement _ scope => s.HasScope scope
  | _, .type _ | _, .constant => False

/-- What a statement shows is there. -/
def Target.Shown (s : State ρ) : {α : Type} → Target α → α → Prop
  | _, .statement _ _, p => ∀ d ∈ p.visible, d.index < s.code.instrs.size
  | _, .type _, _ | _, .constant, _ => True

/-- What is asked for is produced in fertile sessions, or the budget is spent. -/
def Target.Grows (c : Config) (s : State ρ) (t : Target α) : Except Ending α → State ρ → Prop
  | .ok a, s' => s'.Fertile c ∧ s.scopes ≤ s'.scopes ∧ t.Shown s' a
  | .error e, _ => e = .stopped c.spent

theorem Target.Grows.after {s'' : State ρ} {t : Target α} {out : Except Ending α}
    (h : Thrives c s s') (h' : t.Grows c s' out s'') : t.Grows c s out s'' := by
  cases out with
  | error e => exact h'
  | ok a => exact ⟨h'.1, h.scopes.trans h'.2.1, h'.2.2⟩

/-- A variant is produced before it is counted, or is infeasible, which copies are not, or the
budget is spent on the way. -/
def Target.Tried (c : Config) (s : State ρ) (t : Target α) (op : Opcode) :
    Except Ending α → State ρ → Prop
  | .ok a, s' => Thrives c s s' ∧ t.Shown s' a
  | .error e, s' => e = .stopped c.spent ∨ e = .infeasible ∧ op ≠ .copyObject ∧ Thrives c s s'

/-- Statements are drawn by weights. -/
def Event.Weighed (s : State ρ) (e : Event) : Prop :=
  ∀ misses, e = .sample .statement misses → s.weights.isParametrized .statement = true

/-- Statements are asked for in fertile sessions and are not infeasible, although variants
of them other than copies may be. A variant is tried within the budget, and a block ends with
the budget spent. -/
def Contract.endless (ρ : Type) [RandomSource ρ] (c : Config) : Contract (State ρ) where
  needs
    | .dispatch t, s => s.Fertile c ∧ t.Hosted s
    | .resample t _, s => s.Fertile c ∧ t.Hosted s ∧
        s.weights.isParametrized .statement = true ∧ s.statements ≤ c.instructionBudget
    | .variant t op, s => s.Fertile c ∧ t.Hosted s ∧ op ∈ Category.statement.members
    | .fill _ scope _, s => s.Fertile c ∧ s.HasScope scope
  during _ _ e s := s.Fertile c ∧ e.Weighed s
  leaves
    | .dispatch t, s, out, s' => t.Grows c s out s'
    | .resample t _, s, out, s' => t.Grows c s out s'
    | .variant t op, s, out, s' => t.Tried c s op out s'
    | .fill _ _ _, _, out, _ => out = .error (.stopped c.spent)

namespace Plan

variable {p : Plan ρ α} {post : Except Ending α → State ρ → Prop}

/-- A plan is carried out in fertile sessions. -/
abbrev Endures (c : Config) (p : Plan ρ α) (post : Except Ending α → State ρ → Prop)
    (s : State ρ) : Prop :=
  p.Meets c (.endless ρ c) (fun e s => s.Fertile c ∧ e.Weighed s) post s

theorem endures_work {x : Gen ρ β} {q : β → Plan ρ α} {made : β → State ρ → Prop}
    (hs : s.Fertile c) (hx : Gen.Surely c s x made)
    (hq : ∀ b s', made b s' → (q b).Endures c post s') : (work x >>= q).Endures c post s := by
  refine Meets.step ⟨hs, nofun⟩ ?_ ?_
  · rintro s b s' rfl hrun
    exact hq b s' (hx.of_run_ok hrun)
  · rintro s e s' rfl hrun
    exact (hx.of_run_error hrun).elim

/-- Nothing comes behind a plan that spends the budget. -/
theorem Endures.last {p : Plan ρ β} {q : β → Plan ρ α}
    (h : p.Endures c (fun out _ => out = .error (.stopped c.spent)) s)
    (hpost : ∀ s', post (.error (.stopped c.spent)) s') : (p >>= q).Endures c post s := by
  change Meets c _ _ (.seq p q) post s
  rw [Meets]
  refine Meets.mono h (fun _ _ h => h) ?_
  rintro _ s' rfl
  exact hpost s'

theorem fill_endures (hs : s.Fertile c) (hscope : s.HasScope scope) (levels : Nat) (b : Block) :
    (call (.fill levels scope b) : Plan ρ Block).Endures c
      (fun out _ => out = .error (.stopped c.spent)) s :=
  ⟨⟨hs, hscope⟩, fun _ _ h => h, fun _ _ h => h⟩

/-! ### Statements -/

/-- A selection is infeasible, or its first arm spends the budget. -/
theorem selection_endures (hs : s.Fertile c) (hscope : s.HasScope scope) (levels : Nat) :
    (selection levels scope).Endures c
      (Target.Tried c s (.statement levels scope) .selectionMerge) s := by
  refine endures_work hs (Gen.scopeAt_surely hscope) ?_
  rintro _ s rfl
  cases levels with
  | zero =>
    refine ⟨⟨hs, nofun⟩, ?_⟩
    rintro s rfl
    exact .inr ⟨rfl, nofun, .refl hs⟩
  | succ levels =>
    have hcalm := Gen.operand_calmly hs.sound (hs.ready.shows hs.sound hscope)
      (Predicate.total_ofTy (· == .bool))
    have hcondition := hcalm.and (Gen.operand_quietly hs.sound scope Predicate.bool)
    refine Meets.step ⟨hs, nofun⟩ ?_ ?_
    · rintro s condition s₁ rfl hrun
      obtain ⟨hstill, q, -⟩ := hcondition.of_run_ok hrun
      have h₁ := hs.quiet hstill q
      refine endures_work h₁.fertile
        (Gen.childScope_hosts h₁.fertile (hscope.mono h₁.scopes) none) fun child s₂ h₂ => ?_
      exact (fill_endures h₂.fertile h₂.present levels {}).last fun _ => .inl rfl
    · rintro s e s₁ rfl hrun
      obtain ⟨hcalm, hhalts⟩ := hcondition.of_run_error hrun
      obtain ⟨rfl, h₁⟩ := hs.infeasible hcalm hhalts
      exact .inr ⟨rfl, nofun, h₁⟩

theorem statementVariant_endures [BoundedRandomSource ρ] (hs : s.Fertile c)
    (hscope : s.HasScope scope) (levels : Nat) (hmem : op ∈ Category.statement.members) :
    (statementVariant levels scope op).Endures c
      (Target.Tried c s (.statement levels scope) op) s := by
  unfold statementVariant
  split_ifs with hop
  · subst hop
    exact selection_endures hs hscope levels
  · have hends := Gen.variantWith_thrives hs hscope hmem hop
    refine ⟨⟨hs, nofun⟩, ?_⟩
    rintro s rfl
    rcases hrun : (Gen.variantWith none scope op).run c s with ⟨e | p, s'⟩
    · obtain ⟨rfl, hne, h⟩ := hends.of_run_error hrun
      exact .inr ⟨rfl, hne, h⟩
    · exact hends.of_run_ok hrun

/-! ### Draws -/

theorem dispatch_endures (hc : c.validate = .ok ()) (hweighting : c.weighting = .uniform)
    {t : Target α} (hs : s.Fertile c) (ht : t.Hosted s) :
    (Routine.body (ρ := ρ) (.dispatch t)).Endures c (t.Grows c s) s := by
  cases t with
  | type | constant => exact ht.elim
  | statement levels scope =>
    have hcheck := checkBudget_ends (c := c) s
    refine Meets.step ⟨hs, nofun⟩ ?_ ?_
    · rintro s _ s₁ rfl hrun
      obtain ⟨rfl, hbudget⟩ := hcheck.of_run_ok hrun
      refine endures_work hs (Gen.prepareStatement_surely hc hweighting hs) ?_
      rintro _ s₂ ⟨h₂, hparametrized⟩
      have hwithin : s₂.statements ≤ c.instructionBudget := h₂.statements.trans_le hbudget
      exact ⟨⟨h₂.fertile, ht.mono h₂.scopes, hparametrized, hwithin⟩, fun _ _ h => h,
        fun _ _ h₃ => h₃.after h₂⟩
    · rintro s e s₁ rfl hrun
      obtain ⟨-, rfl, hover⟩ := hcheck.of_run_error hrun
      exact congrArg _ (Config.spent_of_exceeded hover hs.fits).symm

theorem resample_endures [LawfulRandomSource ρ] (hweighting : c.weighting = .uniform)
    {t : Target α} (misses : Nat) (hs : s.Fertile c) (ht : t.Hosted s)
    (hparametrized : s.weights.isParametrized .statement = true)
    (hbudget : s.statements ≤ c.instructionBudget) :
    (Routine.body (ρ := ρ) (.resample t misses)).Endures c (t.Grows c s) s := by
  cases t with
  | type | constant => exact ht.elim
  | statement levels scope =>
    have hsample := Gen.sampleStatement_surely hweighting hs hparametrized
    refine Meets.step ⟨hs, fun _ _ => hparametrized⟩ ?_ ?_
    · rintro s o s₁ rfl hrun
      obtain ⟨h₁, op, rfl, hmem⟩ := hsample.of_run_ok hrun
      refine Meets.handle ⟨h₁.fertile, ht.mono h₁.scopes, hmem⟩ (fun _ _ h => h) ?_ ?_ ?_
      · rintro p s₂ ⟨h₂, hshown⟩
        have hcount := Gen.countStatement_fertile h₂.fertile
        have h₁₂ := h₁.trans h₂
        refine Meets.step ⟨h₂.fertile, nofun⟩ ?_ ?_
        · rintro s₂ _ s₃ rfl hrun
          obtain ⟨h₃, hscopes, hcode⟩ := hcount.of_run_ok hrun
          exact ⟨h₃, hscopes ▸ h₁₂.scopes, fun d hd => hcode ▸ hshown d hd⟩
        · rintro s₂ e s₃ rfl hrun
          obtain ⟨rfl, hfull⟩ := hcount.of_run_error hrun
          exact congrArg _
            (Config.spent_of_full (h₁₂.statements.trans_le hbudget) hfull).symm
      · rintro s₂ (⟨⟨⟩⟩ | ⟨-, hop, h₂⟩)
        refine endures_work h₂.fertile (Gen.pruneStatement_surely hweighting h₂.fertile hop) ?_
        rintro _ s₃ ⟨h₃, hparametrized⟩
        have h₁₃ := h₁.trans (h₂.trans h₃)
        have hwithin := h₁₃.statements.trans_le hbudget
        exact ⟨⟨h₃.fertile, ht.mono h₁₃.scopes, hparametrized, hwithin⟩, fun _ _ h => h,
          fun _ _ h₄ => h₄.after h₁₃⟩
      · rintro cause s₂ (hspent | ⟨⟨⟩, -⟩)
        exact hspent
    · rintro s e s₁ rfl hrun
      exact (hsample.of_run_error hrun).elim

/-! ### Blocks -/

/-- More statements are always wanted, and each is produced or spends the budget. -/
theorem fillBody_endures [CertainRandomSource ρ] (hc : c.validate = .ok ())
    (hp : c.statementProbability = 1.0) (levels : Nat) (b : Block) (hs : s.Fertile c)
    (hscope : s.HasScope scope) :
    (Routine.body (ρ := ρ) (.fill levels scope b)).Endures c
      (fun out _ => out = .error (.stopped c.spent)) s := by
  have hread : Gen.Surely c s MonadReader.read fun found s' => found = c ∧ s' = s :=
    .read ⟨rfl, rfl⟩
  refine endures_work hs hread ?_
  rintro _ s ⟨rfl, rfl⟩
  refine endures_work hs (Gen.certain_surely hc hp hs) ?_
  rintro _ s₁ ⟨rfl, h₁⟩
  have hscope₁ := hscope.mono h₁.scopes
  rw [if_pos rfl]
  refine Meets.handle ⟨h₁.fertile, hscope₁⟩ (fun _ _ h => h) ?_ ?_ ?_
  · rintro p s₂ ⟨hs₂, hscopes, hshown⟩
    refine endures_work hs₂
      (Gen.append_hosts hs₂ (hscope₁.mono hscopes) b hshown) fun b' s₃ h₃ => ?_
    exact fill_endures h₃.fertile h₃.present levels b'
  · exact fun _ h => nomatch h
  · exact fun cause s₂ h => congrArg _ h

section Certain

variable [LawfulRandomSource ρ] [CertainRandomSource ρ] (hc : c.validate = .ok ())
  (hweighting : c.weighting = .uniform) (hp : c.statementProbability = 1.0)
include hc hweighting hp

/-- Every routine keeps the contract. -/
theorem endless_kept : (Contract.endless ρ c).Kept ρ c := by
  intro α r s hneeds
  cases r with
  | dispatch t => exact dispatch_endures hc hweighting hneeds.1 hneeds.2
  | resample t misses =>
    obtain ⟨hs, ht, hparametrized, hbudget⟩ := hneeds
    exact resample_endures hweighting misses hs ht hparametrized hbudget
  | variant t op =>
    obtain ⟨hs, ht, hmem⟩ := hneeds
    refine enter_meets ⟨hs, nofun⟩ ?_
    cases t with
    | type | constant => exact ht.elim
    | statement levels scope => exact statementVariant_endures hs ht levels hmem
  | fill levels scope b => exact fillBody_endures hc hp levels b hneeds.1 hneeds.2

/-- What holds in the end of a plan holds in the end of a step that follows it, unless the
step runs out of its count. -/
theorem Endures.ends {p : Plan ρ α} {post : Except Ending α → State ρ → Prop} {x : Gen ρ α}
    (h : p.Endures c post s) (hx : Follows c p x) :
    Gen.Ends x c s (fun a s' => post (.ok a) s') fun e s' =>
      e = .stopped (.fault .outOfSteps) ∨ post (.error e) s' := by
  unfold Gen.Ends
  by_cases hsteps : (x.run c s).1 = .error (.stopped (.fault .outOfSteps))
  · rcases hrun : x.run c s with ⟨e | a, s'⟩
    · rw [hrun] at hsteps
      exact .inl (Except.error.inj hsteps)
    · rw [hrun] at hsteps
      cases hsteps
  · obtain ⟨ms, hruns⟩ := hx s hsteps
    have hpost := (hruns.meets (endless_kept hc hweighting hp) h).2
    rcases hrun : x.run c s with ⟨e | a, s'⟩
    · rw [hrun] at hpost
      exact .inr hpost
    · rw [hrun] at hpost
      exact hpost

end Certain

/-! ### Functions -/

/-- The body of a function spends the budget. -/
theorem function_endures (hs : s.Fertile c) (hroot : s.HasScope ScopeTree.root)
    {ty r : EntryId} {tys : List EntryId} (hty : s.code.table.IsType ty (.function r tys)) :
    (function ty).Endures c (fun out _ => out = .error (.stopped c.spent)) s := by
  obtain ⟨hresult, htys⟩ := hs.sound.table.entry hty
  have hquery : Gen.Surely c s (Gen.query (·.typeAt ty)) fun t s' =>
      t = .function r tys ∧ s' = s := by
    refine Gen.Ends.bind (.get ?_)
    dsimp only
    rw [Module.typeAt_eq_ok.mpr hty]
    exact ⟨rfl, rfl⟩
  refine endures_work hs hquery ?_
  rintro _ s ⟨rfl, rfl⟩
  refine endures_work hs (Gen.alloc_hosts hs hroot (.function hty hresult)) ?_
  rintro opening s₁ ⟨h₁, -⟩
  refine endures_work h₁.fertile (Gen.head_hosts h₁.fertile h₁.present opening
    fun ty hty => (htys ty hty).mono h₁.table) fun h s₂ h₂ => ?_
  exact (fill_endures h₂.fertile h₂.present h.levels {}).last fun _ => rfl

/-- So does the first function, and no other one is begun. -/
theorem functions_endures (hs : s.Fertile c) (hroot : s.HasScope ScopeTree.root)
    {ty r : EntryId} {tys rest : List EntryId} (hlist : s.functionTypes.toList = ty :: rest)
    (hty : s.code.table.IsType ty (.function r tys)) :
    functions.Endures c (fun out _ => out = .error (.stopped c.spent)) s := by
  refine endures_work hs (Gen.get_supplies hs.sound).surely ?_
  rintro _ s ⟨-, -, rfl, rfl⟩
  rw [hlist]
  have hfirst := function_endures hs hroot hty
  exact (hfirst.last fun _ => rfl).last fun _ => rfl

end Plan

/-! ### Sessions -/

namespace Gen

variable [LawfulRandomSource ρ] [CertainRandomSource ρ] (hc : c.validate = .ok ())
  (hweighting : c.weighting = .uniform) (hp : c.statementProbability = 1.0)
include hc hweighting hp

/-- A statement that is asked for is not infeasible. -/
theorem statement_feasible (hs : s.Fertile c) (hscope : s.HasScope scope) :
    Feasible c s (statement scope) := by
  refine Ends.bind ((levelsLeft_surely scope).mono ?_ fun _ _ he => he.elim)
  rintro levels s rfl
  have hplan : (Plan.ask (.statement levels scope)).Endures c
      ((Target.statement levels scope).Grows c s) s :=
    ⟨⟨hs, hscope⟩, fun _ _ h => h, fun _ _ h => h⟩
  have hfollows : Plan.Follows c (Plan.ask (.statement levels scope))
      (statementWith (arms (ρ := ρ) levels) scope) :=
    Plan.dispatch_follows (t := .statement levels scope)
      (Plan.statementVariant_follows (Plan.arms_follow levels) scope)
  refine Ends.mono (hplan.ends hc hweighting hp hfollows) (fun _ _ _ => trivial) ?_
  rintro e s' (rfl | hspent)
  · exact nofun
  · rintro rfl
    cases hspent

/-- A block spends the budget. -/
theorem block_spent (hs : s.Fertile c) (hscope : s.HasScope scope) :
    Ends (block scope) c s (fun _ _ => False) fun e _ => e = .stopped c.spent := by
  refine Ends.bind ((levelsLeft_surely scope).mono ?_ fun _ _ he => he.elim)
  rintro levels s rfl
  have hcompletes := blockWith_completes hc (completesArms hc levels) (fillsArms levels) hs.sound
    hs.ready hscope
  have hspent := (Plan.fill_endures hs hscope levels {}).ends hc hweighting hp
    (Plan.blockWith_follows (Plan.arms_follow levels) scope)
  refine Ends.mono (hspent.and hcompletes) (fun _ _ h => nomatch h.1) ?_
  rintro e s' ⟨rfl | h, cause, hcause, hmay⟩
  · exact absurd (Ending.stopped.inj hcause).symm hmay.ne_outOfSteps
  · exact Except.error.inj h

end Gen

namespace Config

/-- The session behind the table of a valid configuration is fertile, and there is a function
to begin. -/
theorem fertile_of_globalTable [LawfulRandomSource ρ] (hc : c.validate = .ok ()) {source : ρ}
    (htable : Gen.globalTable.run c (.start source) = (.ok (), s)) :
    s.Fertile c ∧ s.HasScope ScopeTree.root ∧ ∃ ty r rest,
      s.functionTypes.toList = ty :: rest ∧ s.code.table.IsType ty (.function r []) := by
  obtain ⟨hstocked, hconstant, -⟩ := (globalTable_filled hc source).of_run_ok htable
  obtain ⟨hends, ty, r, rest, hlist, hty, -⟩ := (Gen.globalTable_ends (State.sound_start c source)
    rfl (c.maxFunctions_ne_zero hc)).of_run_ok htable
  have hcopies : Opcode.copyObject ∉ (s.weights.row .statement).pins := by
    intro hpin
    have hpins := hstocked.ready.drawn.pins .statement fun hmem => nomatch hstocked.pruned _ hmem
    exact absurd (hpins _ hpin).1 (by decide)
  have hroot : s.HasScope ScopeTree.root := by
    refine ⟨{}, ?_⟩
    rw [hends.scopes]
    rfl
  have hfits : s.statements < 2 ^ 64 := hstocked.uncounted ▸ Nat.two_pow_pos 64
  exact ⟨⟨hstocked.sound, hstocked.ready, hfits, Table.constantCount_pos.mp hconstant, hcopies⟩,
    hroot, ty, r, rest, hlist, hty⟩

section Certain

variable [LawfulRandomSource ρ] [CertainRandomSource ρ]

/-- The functions of a session whose table is full spend its budget. -/
theorem functions_spent (hc : c.validate = .ok ()) (hweighting : c.weighting = .uniform)
    (hp : c.statementProbability = 1.0) {source : ρ}
    (htable : Gen.globalTable.run c (.start source) = (.ok (), s)) :
    ∃ s', Gen.functions.run c s = (.error (.stopped c.spent), s') := by
  obtain ⟨hs, hroot, ty, r, rest, hlist, hty⟩ := fertile_of_globalTable hc htable
  have hends := (Plan.functions_endures hs hroot hlist hty).ends hc hweighting hp
    Plan.functions_follows
  rcases hrun : Gen.functions.run c s with ⟨e | made, s'⟩
  · have hprogram : Gen.program.run c (.start source) = (.error e, s') := by
      rw [Gen.program, Gen.run_bind, htable]
      dsimp only
      rw [Gen.run_bind, hrun]
    obtain ⟨cause, rfl, hmay⟩ := (Gen.program_finishes hc source).of_run_error hprogram
    rcases hends.of_run_error hrun with hsteps | hspent
    · exact absurd (Ending.stopped.inj hsteps) hmay.ne_outOfSteps
    · cases Except.error.inj hspent
      exact ⟨s', rfl⟩
  · cases hends.of_run_ok hrun

/-- So does the session. -/
theorem shaderFrom_spent (hc : c.validate = .ok ()) (hweighting : c.weighting = .uniform)
    (hp : c.statementProbability = 1.0) {source : ρ}
    (htable : Gen.globalTable.run c (.start source) = (.ok (), s)) :
    c.shaderFrom source = .error c.spent := by
  obtain ⟨s', hrun⟩ := functions_spent hc hweighting hp htable
  have hprogram : Gen.program.run c (.start source) = (.error (.stopped c.spent), s') := by
    rw [Gen.program, Gen.run_bind, htable]
    dsimp only
    rw [Gen.run_bind, hrun]
  rw [shaderFrom, hc, hprogram]
  rfl

end Certain

/-- A configuration of small shaders whose blocks always go on. -/
def tireless : Config := { small with statementProbability := 1.0 }

/-- It is valid with any budget. -/
theorem tireless_validate (spare : Nat) :
    ({ tireless with instructionBudget := spare + 1 } : Config).validate = .ok () := by
  have h : tireless.validate.toOption = some () := by decide +kernel
  exact toOption_eq_some.mp h

/-- Its table gets full. -/
theorem tireless_table (spare : Nat) :
    ∃ s, Gen.globalTable.run { tireless with instructionBudget := spare + 1 }
      (.start (Certain.mk Script.selection)) = (.ok (), s) := by
  refine exists_table (tireless_validate spare) (fun f hover => ?_) _
  have hsize : UInt64.size / 2 = 2 ^ 63 := rfl
  have htypes : tireless.maxTypes = 5 := rfl
  have hconstants : tireless.maxConstants = 3 := rfl
  have hbuffers : tireless.storageBuffers = 0 := rfl
  have hvariables : tireless.privateVariables = 0 := rfl
  cases hover <;> simp only at * <;> omega

end Config

end ShaderGen
