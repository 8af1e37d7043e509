import ShaderGen.Proofs.Termination

/-!
Stops for the budget. Of all steps only the check that comes before a draw stops a session
for its budget, and nothing goes on after a stop. So a run that stops for its budget is one
in which something was asked for with more statements than allowed, and no session has many
more than that.
-/

namespace ShaderGen

/-- Something is about to be asked for beyond the budget. -/
def Moment.Late {ρ : Type} (c : Config) (m : Moment ρ) : Prop :=
  (∃ cat, m.event = .dispatch cat) ∧ c.instructionBudget < m.state.statements

namespace Plan

variable {ρ α β : Type} {c : Config}

/-- The steps of a plan stop for the budget exactly where they ask for something beyond it. -/
def Frugal (c : Config) : {α : Type} → Plan ρ α → Prop
  | _, .done _ => True
  | _, .step e x => ∀ s, (∃ limit, (x.run c s).1 = .error (.stopped (.overBudget limit))) ↔
      Moment.Late c ⟨e, s⟩
  | _, .call _ => True
  | _, .seq p q => p.Frugal c ∧ ∀ a, p.Gives c a → (q a).Frugal c
  | _, .handle p q => p.Frugal c ∧ ∀ o, (q o).Frugal c

theorem Frugal.step {e : Event} {x : Gen ρ α} (he : ∀ cat, e ≠ .dispatch cat)
    (hx : ∀ s limit, (x.run c s).1 ≠ .error (.stopped (.overBudget limit))) :
    (Plan.step e x).Frugal c := by
  intro s
  constructor
  · rintro ⟨limit, hlimit⟩
    exact absurd hlimit (hx s limit)
  · rintro ⟨⟨cat, hcat⟩, -⟩
    exact absurd hcat (he cat)

/-- What is asked of the steps of a plan that is put together: those that nobody watches never
stop for the budget. -/
def FrugalStep (c : Config) (e : Event) (α : Type) (x : Gen ρ α) : Prop :=
  (Plan.step e x).Frugal c ∧ (e = .work → Gen.Keeps .any x)

theorem Each.frugal {calls : {α : Type} → Routine α → Prop} {p : Plan ρ α}
    (h : p.Each c (FrugalStep c) calls) : p.Frugal c := by
  induction p with
  | done | call => trivial
  | step e x => exact h.1
  | seq p q ihp ihq => exact ⟨ihp h.1, fun a ha => ihq a (h.2 a ha)⟩
  | handle p q ihp ihq => exact ⟨ihp h.1, fun o => ihq o (h.2 o)⟩

theorem frugal_work {x : Gen ρ α} (hx : Gen.Keeps .any x) : FrugalStep c .work α x :=
  ⟨.step nofun fun s => (hx c s).2, fun _ => hx⟩

theorem checkBudget_frugal (cat : Category) :
    (Plan.step (ρ := ρ) (.dispatch cat) Gen.checkBudget).Frugal c := by
  intro s
  have hends := checkBudget_ends (c := c) s
  rcases hrun : Gen.checkBudget.run c s with ⟨e | a, s'⟩
  · obtain ⟨-, rfl, hlate⟩ := hends.of_run_error hrun
    exact ⟨fun _ => ⟨⟨cat, rfl⟩, hlate⟩, fun _ => ⟨_, rfl⟩⟩
  · have hle := (hends.of_run_ok hrun).2
    exact ⟨nofun, fun hlate => absurd hlate.2 (Nat.not_lt.mpr hle)⟩

theorem exists_late_append {ms ms' : List (Moment ρ)} (h : ¬∃ m ∈ ms, m.Late c) :
    (∃ m ∈ ms ++ ms', m.Late c) ↔ ∃ m ∈ ms', m.Late c := by
  simp only [List.mem_append, or_and_right, exists_or, h, false_or]

variable [RandomSource ρ]

theorem frugal_draws : Draws (ρ := ρ) (FrugalStep c) where
  checkBudget cat := ⟨checkBudget_frugal cat, nofun⟩
  prepare cat := frugal_work (prepare_keeps cat).any
  sample cat _ := ⟨.step nofun fun s => (Gen.sample?_aside cat c s).2, nofun⟩
  exhausted cat := frugal_work (exhausted_aside cat).any
  countStatement := frugal_work (.bind .get fun _ => .bind (.checked _) fun _ =>
    .modify fun _ _ => trivial)
  prune cat op := frugal_work (Gen.prune_keeps cat op).any
  enter _ _ := ⟨.step nofun fun _ => nofun, nofun⟩

theorem frugal_covers : Covers (ρ := ρ) (FrugalStep c) where
  plain h := frugal_work (h.mono fun _ hy => hy.2 rfl).keeps
  localVariable := frugal_work Gen.localVariable_aside.any
  storageBuffers := frugal_work Gen.storageBuffers_aside.any
  privateVariables := frugal_work Gen.privateVariables_aside.any
  addFunctionType id := frugal_work (Gen.addFunctionType_keeps id).any

theorem body_frugal (r : Routine α) : (r.body : Plan ρ α).Frugal c :=
  (body_each frugal_draws frugal_covers r (fun _ _ _ _ => frugal_work (.build _))
    fun _ _ scope => frugal_work (Gen.extended_aside scope).any).frugal

/-- A run stops for the budget exactly if it is late at some moment. -/
theorem Runs.overBudget_iff {p : Plan ρ α} {s : State ρ} {ms : List (Moment ρ)}
    {out : Except Ending α × State ρ} (h : p.Runs c s ms out) (hp : p.Frugal c) :
    (∃ limit, out.1 = .error (.stopped (.overBudget limit))) ↔ ∃ m ∈ ms, m.Late c := by
  induction h with
  | done => simp
  | step => simpa using hp _
  | call _ ih => exact ih (body_frugal _)
  | seq hrun _ ihp ihq =>
    rw [ihq (hp.2 _ hrun.gives), exists_late_append (mt (ihp hp.1).mpr nofun)]
  | seqError _ ihp => simpa only [Except.error.injEq] using ihp hp.1
  | handle _ _ ihp ihq =>
    rw [ihq (hp.2 _), exists_late_append (mt (ihp hp.1).mpr nofun)]
  | handleInfeasible _ _ ihp ihq =>
    rw [ihq (hp.2 _), exists_late_append (mt (ihp hp.1).mpr nofun)]
  | handleStopped _ ihp => simpa only [Except.error.injEq] using ihp hp.1

theorem program_frugal (hdepth : c.maxDepth ≠ 0) : (program (ρ := ρ)).Frugal c := by
  have h : (program (ρ := ρ)).Each c (FrugalStep c) fun _ => True :=
    program_each frugal_covers hdepth trivial trivial fun _ _ _ => trivial
  exact h.frugal

end Plan

/-! ### Sessions -/

namespace Config

variable {ρ : Type} [RandomSource ρ] [LawfulRandomSource ρ] {c : Config}

/-- A session stops for its budget if its program does. -/
theorem shaderFrom_overBudget_iff (hc : c.validate = .ok ()) (source : ρ) (limit : Nat) :
    c.shaderFrom source = .error (.overBudget limit) ↔ limit = c.instructionBudget ∧
      ∃ limit, (Gen.program.run c (.start source)).1 = .error (.stopped (.overBudget limit)) := by
  rcases shaderFrom_answers hc source with ⟨cause, hcause, hmay, hstop⟩ | ⟨_, hok, hfinish⟩
  · rw [hstop, hcause]
    have hlimit : ∀ limit, cause = .overBudget limit → limit = c.instructionBudget := by
      rintro limit rfl
      rcases hmay with hbudget | hbreaks
      · exact Stop.overBudget.inj hbudget
      · cases hbreaks
    constructor
    · rintro ⟨⟩
      exact ⟨hlimit limit rfl, limit, rfl⟩
    · rintro ⟨rfl, limit, ⟨⟩⟩
      rw [hlimit limit rfl]
  · rw [hok]
    constructor
    · intro h
      rcases hfinish with hover | ⟨s, hs⟩
      · cases hover.symm.trans h
      · cases hs.symm.trans h
    · rintro ⟨-, _, ⟨⟩⟩

/-- A configuration of small shaders of three statements. -/
def tight : Config := { small with instructionBudget := 3 }

end Config

end ShaderGen
