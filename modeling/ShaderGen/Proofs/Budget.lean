import ShaderGen.Proofs.ProgressBlocks
import ShaderGen.Proofs.Routines
import ShaderGen.Proofs.Simulation

/-!
The budget of statements. The count is looked at when something is asked for and goes up
when a statement is produced, so what is being produced by then may still be counted. How
many statements that can be depends on the levels of selections: with so many levels left
a block exceeds the budget by one statement and one for each level. A count that is full is
one of a configuration with a budget close to the largest word.
-/

namespace ShaderGen

/-- The most statements there may be once a routine started with so many. -/
def Routine.limit (c : Config) {α : Type} : Routine α → Nat → Nat
  | .dispatch (.statement levels _), n => max n (c.instructionBudget + levels + 1)
  | .resample (.statement levels _) _, n => max n (c.instructionBudget + levels) + 1
  | .variant (.statement levels _) _, n => max n (c.instructionBudget + levels)
  | .fill levels _ _, n => max n (c.instructionBudget + levels + 1)
  -- types and constants are not counted
  | _, n => n

/-- Types are asked for by a category of types. -/
def Routine.Proper {α : Type} : Routine α → Prop
  | .dispatch (.type cat) | .resample (.type cat) _ | .variant (.type cat) _ => cat.isType = true
  | _ => True

/-- A routine that does not exceed a bound, if the count is within it at the start. -/
def Routine.Within (c : Config) (bound : Nat) {α : Type} (r : Routine α) : Prop :=
  r.Proper ∧ ∀ n ≤ bound, r.limit c n ≤ bound

/-- The count of statements stays within the limits of the routines. -/
def Contract.budget (c : Config) : Contract Books where
  needs r _ := r.Proper
  during r b₀ _ b := b.statements ≤ r.limit c b₀.statements
  leaves r b₀ _ b := b.statements ≤ r.limit c b₀.statements

namespace Plan

variable {ρ α : Type} {c : Config}

theorem allows_budget {r : Routine α} (hr : r.Proper) {pre : Books → Prop} {bound bound' : Nat}
    (h : ∀ b, pre b → r.limit c b.statements ≤ bound) (hle : bound ≤ bound') :
    (Contract.budget c).Allows r pre (fun _ b => b.statements ≤ bound') (·.statements ≤ bound) where
  needs _ _ := hr
  during b _ _ hb h' := (h'.trans (h b hb)).trans hle
  leaves b _ _ hb h' := h'.trans (h b hb)

theorem drawing_statements {bound : Nat} (b b' : Books) (h : Upkeep.drawing.rel c b b')
    (hb : b.statements ≤ bound) : b'.statements ≤ bound :=
  h.2.2.trans_le hb

theorem type_within {bound : Nat} {cat : Category} (h : cat.isType = true) :
    Routine.Within c bound (.dispatch (.type cat)) := ⟨h, fun _ hn => hn⟩

/-- A tidy plan stays within a bound if the routines that it calls do. -/
theorem Tidy.budget {p : Plan ρ α} {bound : Nat} (h : p.Tidy c (Routine.Within c bound)) {b : Books}
    (hb : b.statements ≤ bound) : p.Meets c (.budget c) (fun _ b => b.statements ≤ bound)
      (fun _ b => b.statements ≤ bound) b :=
  h.meets drawing_statements (fun _ hb => hb)
    (fun _ hr => allows_budget hr.1 (fun b => hr.2 b.statements) le_rfl) hb

variable [RandomSource ρ]

theorem dispatch_budget (t : Target α) (b : Books) (ht : (Routine.dispatch t).Proper) :
    (Routine.body (ρ := ρ) (.dispatch t)).Meets c (.budget c)
      (fun _ b' => b'.statements ≤ (Routine.dispatch t).limit c b.statements)
      (fun _ b' => b'.statements ≤ (Routine.dispatch t).limit c b.statements) b := by
  have hle : b.statements ≤ (Routine.dispatch t).limit c b.statements := by
    cases t with
    | statement levels scope => exact le_max_left _ _
    | _ => exact le_rfl
  -- the check leaves no more than the budget, so the levels are all that a draw can add
  have hdraw : ∀ b' : Books, b'.statements ≤ min b.statements c.instructionBudget →
      (Routine.resample t 0).limit c b'.statements ≤ (Routine.dispatch t).limit c b.statements := by
    intro b' hb'
    cases t with
    | statement levels scope =>
      simp only [Routine.limit]
      omega
    | _ => exact hb'.trans (min_le_left _ _)
  have hproper : (Routine.resample t 0).Proper := by
    cases t with
    | type cat => exact ht
    | _ => trivial
  exact dispatch_meets (fun _ hb => hb.trans hle) (fun _ hb hcheck => le_min hb hcheck)
    drawing_statements (fun _ hb => hb.trans ((min_le_left _ _).trans hle))
    (fun _ hb => hb.trans hle) (fun _ hb => hb.trans ((min_le_left _ _).trans hle))
    (allows_budget hproper hdraw le_rfl) le_rfl

/-- A draw counts at most one statement beside those of the variants that it tries. -/
theorem resample_within {t : Target α} {misses bound bound' : Nat} {b : Books}
    (hle : bound ≤ bound') (hcount : t.category = .statement → bound + 1 ≤ bound')
    (hvariant : ∀ op, (Routine.variant t op).Within c bound)
    (hproper : (Routine.resample t (misses + 1)).Proper)
    (hnext : ∀ n ≤ bound, (Routine.resample t (misses + 1)).limit c n ≤ bound')
    (hb : b.statements ≤ bound) :
    (Routine.body (ρ := ρ) (.resample t misses)).Meets c (.budget c)
      (fun _ b => b.statements ≤ bound') (fun _ b => b.statements ≤ bound') b := by
  refine resample_meets (fun _ b => b.statements ≤ bound) (fun _ hb => hb.trans hle)
    (fun _ _ hb => hb) (fun ht _ hb => (Nat.succ_le_succ hb).trans (hcount ht))
    (fun _ hb => hb.trans hle) (fun _ hb => hb.trans hle) (fun op _ _ _ _ => ?_)
    (fun op s hs => ?_) drawing_statements hb
  · refine allows_budget (hvariant op).1 ?_ hle
    rintro _ rfl
    exact (hvariant op).2 _ hb
  · refine ((Gen.prune_keeps t.category op).ends c s).mono (fun _ s' h => ?_) fun _ _ _ => trivial
    refine allows_budget hproper ?_ le_rfl
    rintro _ rfl
    exact hnext _ (drawing_statements _ _ h hs)

theorem resample_budget (t : Target α) (misses : Nat) (b : Books)
    (ht : (Routine.resample t misses).Proper) :
    (Routine.body (ρ := ρ) (.resample t misses)).Meets c (.budget c)
      (fun _ b' => b'.statements ≤ (Routine.resample t misses).limit c b.statements)
      (fun _ b' => b'.statements ≤ (Routine.resample t misses).limit c b.statements) b := by
  cases t with
  | statement levels scope =>
    have hvariant : ∀ n ≤ max b.statements (c.instructionBudget + levels),
        max n (c.instructionBudget + levels) ≤ max b.statements (c.instructionBudget + levels) :=
      fun _ hn => max_le hn (le_max_right _ _)
    exact resample_within (Nat.le_succ _) (fun _ => le_rfl) (fun _ => ⟨trivial, hvariant⟩) trivial
      (fun n hn => Nat.succ_le_succ (hvariant n hn)) (le_max_left _ _)
  | type cat =>
    have hcat : cat ≠ .statement := by
      rintro rfl
      cases ht
    exact resample_within le_rfl (fun h => absurd h hcat) (fun _ => ⟨ht, fun _ hn => hn⟩) ht
      (fun _ hn => hn) le_rfl
  | constant =>
    exact resample_within le_rfl nofun (fun _ => ⟨trivial, fun _ hn => hn⟩) trivial
      (fun _ hn => hn) le_rfl

theorem budget_kept : (Contract.budget c).Kept ρ c := by
  intro α r b hr
  cases r with
  | dispatch t => exact dispatch_budget t b hr
  | resample t misses => exact resample_budget t misses b hr
  | variant t op =>
    cases t with
    | statement levels scope =>
      refine enter_meets (le_max_left _ _)
        (Tidy.budget (statementVariant_each tidy_covers ?_ scope extended_tidy) (le_max_left _ _))
      rintro levels' rfl scope'
      refine ⟨trivial, fun n hn => ?_⟩
      simp only [Routine.limit] at hn ⊢
      omega
    | type cat =>
      exact enter_meets le_rfl
        (Tidy.budget (typeVariant_each tidy_covers (fun _ => type_within) arrayType_tidy) le_rfl)
    | constant =>
      exact enter_meets le_rfl
        (Tidy.budget (constantVariant_each tidy_covers (fun _ => type_within) op) le_rfl)
  | fill levels scope block =>
    have hwithin : ∀ n ≤ max b.statements (c.instructionBudget + levels + 1),
        max n (c.instructionBudget + levels + 1) ≤
          max b.statements (c.instructionBudget + levels + 1) :=
      fun n hn => max_le hn (le_max_right _ _)
    refine Tidy.budget (fill_each tidy_covers ?_ fun _ => ?_) (le_max_left _ _)
    all_goals exact ⟨trivial, hwithin⟩

/-! ### Shaders -/

/-- The plan of a shader comes to an end, that of the generator. -/
theorem program_runs [LawfulRandomSource ρ] (hc : c.validate = .ok ()) (source : ρ) :
    ∃ ms, program.Runs c (.start source) ms (Gen.program.run c (.start source)) := by
  refine program_follows _ fun hsteps => ?_
  obtain ⟨cause, hcause, hmay⟩ := (Gen.program_advances hc source).of_run_error
    (Prod.ext hsteps rfl : Gen.program.run c (.start source) = (_, _))
  exact hmay.ne_outOfSteps (Ending.stopped.inj hcause).symm

theorem program_budget (hdepth : c.maxDepth ≠ 0) {b : Books}
    (hb : b.statements ≤ c.instructionBudget + c.maxDepth) :
    (program (ρ := ρ)).Meets c (.budget c)
      (fun _ b => b.statements ≤ c.instructionBudget + c.maxDepth)
      (fun _ b => b.statements ≤ c.instructionBudget + c.maxDepth) b := by
  refine Tidy.budget
    (program_each tidy_covers hdepth (type_within rfl) ⟨trivial, fun _ hn => hn⟩ ?_) hb
  refine fun levels hlevels scope => ⟨trivial, fun n hn => max_le hn ?_⟩
  omega

end Plan

namespace Gen

/-- The program of a valid configuration is finished, unless there is a reason to stop in the
configuration. -/
theorem program_finishes {ρ : Type} [RandomSource ρ] [LawfulRandomSource ρ] {c : Config}
    (hc : c.validate = .ok ()) (source : ρ) :
    Ends program c (.start source) (fun _ _ => c.Fits) fun e _ =>
      ∃ cause, e = .stopped cause ∧ c.MayStop ρ cause := by
  have hadvances := program_advances hc source
  obtain ⟨ms, hruns⟩ := Plan.program_runs hc source
  have hcount := (hruns.meets Plan.budget_kept
    (Plan.program_budget (c.maxDepth_ne_zero hc) (Nat.zero_le _))).2
  refine (hadvances.and .ran).mono (fun _ _ h => h.1) ?_
  rintro _ s' ⟨⟨cause, rfl, hmay | ⟨rfl, hfull⟩⟩, hrun⟩
  · exact ⟨cause, rfl, hmay⟩
  · rw [hrun] at hcount
    exact ⟨_, rfl, .inr (.count (hfull.trans (Nat.succ_le_succ hcount)))⟩

end Gen

end ShaderGen
