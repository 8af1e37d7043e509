import ShaderGen.Proofs.Routines
import ShaderGen.Proofs.Sparing

/-!
Relations along a run. What relates the states before and behind each step relates the state
that a run starts in to every later one. Some routines may take steps that break the relation,
as long as the run does not enter them.
-/

namespace ShaderGen

variable {ρ α β : Type} {c : Config} [RandomSource ρ] {R : State ρ → State ρ → Prop}

/-! ### Steps -/

namespace Gen.Respected

variable (hR : Respected R)
include hR

/-- Draws leave the module alone. -/
theorem draws : Plan.Draws fun _ _ x => Relates R x := by
  have hstop : ∀ {α : Type} (cause : Stop),
      Plain (fun _ x => Relates R x) (stop (ρ := ρ) (α := α) cause) := stop_plain hR.indifferent
  have hensure := ensureParametrized_plain (ρ := ρ) hR.indifferent
  have hmutate := maybeMutate_plain (ρ := ρ) hR.indifferent
  have hexclude := applyExclusions_plain (ρ := ρ) hR.indifferent
  exact {
    checkBudget := fun _ => hR.plain (checkBudget_plain hR.indifferent)
    prepare := fun cat => hR.plain (by grind [Plan.prepare])
    sample := fun cat _ => hR.plain (sample?_searching cat)
    exhausted := fun cat => hR.plain (by grind [Plan.exhausted])
    countStatement := fun c s => (Gen.countStatement_ends c s).mono
      (fun _ _ ⟨_, heq⟩ => heq ▸ hR.same rfl rfl) fun _ _ ⟨_, _, heq⟩ => heq ▸ hR.same rfl rfl
    prune := fun cat op => hR.plain (prune_plain hR.indifferent cat op)
    enter := fun _ _ _ _ => .pure (hR.same rfl rfl) }

theorem covers (hdeclaring : Declaring fun _ (x : Gen ρ _) => Relates R x) :
    Plan.Covers fun _ _ x => Relates R x where
  plain := hR.plain
  localVariable := hR.plain (localVariable_plain hdeclaring)
  storageBuffers := hR.plain (storageBuffers_plain hdeclaring)
  privateVariables := hR.plain (privateVariables_plain hdeclaring)
  addFunctionType id := hR.plain (addFunctionType_plain hR.indifferent id)

/-- What plain steps respect relates the ends of a program, if arrays, variables and what is
imported do. -/
theorem program (hdeclaring : Declaring fun _ (x : Gen ρ _) => Relates R x)
    (harray : ∀ element length, Relates (ρ := ρ) R (Gen.internType (.array element length)))
    (hextended : ∀ scope, Relates (ρ := ρ) R (Gen.extended scope)) :
    Relates (ρ := ρ) R Gen.program :=
  hR.plain (program_plain hR.indifferent (fun scope => .but (hextended scope)) hdeclaring
    fun element length => .but (harray element length))

end Gen.Respected

/-! ### Runs -/

namespace Plan

variable {s : State ρ} {ms : List (Moment ρ)} {out : Except Ending α × State ρ}

/-- The step at the beginning of a plan is taken first. -/
theorem Runs.first {e : Event} {x : Gen ρ β} {q : β → Plan ρ α}
    (h : (Plan.step e x >>= q).Runs c s ms out) : ⟨e, s⟩ ∈ ms := by
  have hstep : ∀ {ms out}, (Plan.step e x).Runs c s ms out → ⟨e, s⟩ ∈ ms := by
    intro ms out h
    cases h
    exact List.mem_singleton_self _
  change Runs c (.seq _ q) s ms out at h
  cases h with
  | seq hp _ => exact List.mem_append_left _ (hstep hp)
  | seqError hp => exact hstep hp

omit [RandomSource ρ] in
theorem relates_append (hR : Gen.Respected R) {s' s'' : State ρ} {ms' : List (Moment ρ)}
    (h : (∀ m ∈ ms, R s m.state) ∧ R s s') (h' : (∀ m ∈ ms', R s' m.state) ∧ R s' s'') :
    (∀ m ∈ ms ++ ms', R s m.state) ∧ R s s'' :=
  ⟨List.forall_mem_append.mpr ⟨h.1, fun m hm => hR.trans h.2 (h'.1 m hm)⟩, hR.trans h.2 h'.2⟩

/-- A run that enters no barred variant relates its start to all that comes later. -/
theorem Runs.relates (barred : Opcode → Prop) (hR : Gen.Respected R)
    (hbody : ∀ {β : Type} (r : Routine β), (∀ t op, r = .variant t op → ¬barred op) →
      (r.body : Plan ρ β).Each c (fun _ _ x => Gen.Relates R x) fun _ => True)
    {p : Plan ρ α} (h : p.Runs c s ms out)
    (hp : p.Each c (fun _ _ x => Gen.Relates R x) fun _ => True)
    (hms : ∀ m ∈ ms, ∀ cat op, m.event = .enter cat op → ¬barred op) :
    (∀ m ∈ ms, R s m.state) ∧ R s out.2 := by
  induction h with
  | done => exact ⟨by simp, hR.same rfl rfl⟩
  | step => exact ⟨by simpa using hR.same rfl rfl, Gen.Relates.run hp c _⟩
  | call hrun ih =>
    refine ih (hbody _ ?_) hms
    -- entering a variant is the first moment of its run
    rintro t op rfl
    exact hms _ hrun.first t.category op rfl
  | seq hrun _ ihp ihq =>
    obtain ⟨hms, hms'⟩ := List.forall_mem_append.mp hms
    exact relates_append hR (ihp hp.1 hms) (ihq (hp.2 _ hrun.gives) hms')
  | seqError _ ihp => exact ihp hp.1 hms
  | handle _ _ ihp ihq =>
    obtain ⟨hms, hms'⟩ := List.forall_mem_append.mp hms
    exact relates_append hR (ihp hp.1 hms) (ihq (hp.2 _) hms')
  | handleInfeasible _ _ ihp ihq =>
    obtain ⟨hms, hms'⟩ := List.forall_mem_append.mp hms
    exact relates_append hR (ihp hp.1 hms) (ihq (hp.2 _) hms')
  | handleStopped _ ihp => exact ihp hp.1 hms

end Plan

/-- The code of a program is what its session made. -/
theorem Gen.program_code (s : State ρ) :
    Ends program c s (fun shader s' => shader.code = s'.code) fun _ _ => True :=
  .after fun _ _ => .after fun _ _ => .bind (.get (.pure rfl))

end ShaderGen
