import ShaderGen.Proofs.Outcomes
import ShaderGen.Proofs.Pinning

/-!
Sessions end. A variant that was infeasible gets pinned, and what is drawn has a weight,
so nobody draws it again, whatever was pinned or weighed anew in the meantime. A draw that
was in vain so many times leaves as many variants less, and there are only so many. The
generator bounds its loops by such counts; none of these bounds is ever reached, so the
plan of a shader, which has none, comes to its end by itself.
-/

namespace ShaderGen

variable {ρ α : Type} {c : Config}

/-! ### Pins -/

namespace WeightTable

variable {t t' : WeightTable} {cat : Category}

theorem Pinned.evolves (h : t.Pinned) (he : t.Evolves c t') : t'.Pinned := h.revised he.revised

theorem Evolves.grows (h : t.Evolves c t') : Grows t t' := h.revised.grows

theorem Grows.left_le (h : Grows t t') (cat : Category) : t'.left cat ≤ t.left cat := by
  refine List.countP_mono_left fun op _ hnot => ?_
  have := mt (h.pins cat op)
  simp_all

end WeightTable

/-! ### Draws -/

/-- Variants are tried that were not tried before: those that a draw missed are no longer
left, and one that is entered is. -/
def Event.Fresh (b : Books) : Event → Prop
  | .sample cat misses => misses + b.weights.left cat ≤ cat.members.length
  | .enter cat op => op ∈ cat.members ∧ op ∉ (b.weights.row cat).pins
  | _ => True

/-- Pins stay, and what is tried is fresh. -/
def Contract.pinning (c : Config) : Contract Books where
  needs
    | .resample t misses, b => b.weights.Pinned ∧ (Event.sample t.category misses).Fresh b
    | .variant t op, b => b.weights.Pinned ∧ (Event.enter t.category op).Fresh b
    | _, b => b.weights.Pinned
  during _ _ e b := e.Fresh b
  leaves _ b₀ _ b := b.weights.Pinned ∧ b₀.weights.Evolves c b.weights

namespace Plan

/-- What holds of the books after a change of weights. -/
def Kept (c : Config) (b₀ b : Books) : Prop := b.weights.Pinned ∧ b₀.weights.Evolves c b.weights

theorem Kept.drawing {b₀ : Books} (b b' : Books) (h : Upkeep.drawing.rel c b b')
    (hb : Kept c b₀ b) : Kept c b₀ b' := ⟨hb.1.evolves h.1, hb.2.trans h.1⟩

theorem allows_pinning {r : Routine α} {pre : Books → Prop} {b₀ : Books}
    (hneeds : ∀ b, pre b → (Contract.pinning c).needs r b)
    (hpre : ∀ b, pre b → b₀.weights.Evolves c b.weights) :
    (Contract.pinning c).Allows r pre (fun e b => e.Fresh b) (Kept c b₀) where
  needs := hneeds
  during _ _ _ _ he := he
  leaves b _ _ hb h := ⟨h.1, (hpre b hb).trans h.2⟩

theorem Tidy.pinning {p : Plan ρ α} {b : Books}
    (h : p.Tidy c fun r => ∀ b, b.weights.Pinned → (Contract.pinning c).needs r b)
    (hb : b.weights.Pinned) :
    p.Meets c (.pinning c) (fun e b => e.Fresh b) (fun _ => Kept c b) b :=
  h.meets Kept.drawing (fun _ _ => trivial)
    (fun _ hr => allows_pinning (fun b hb => hr b hb.1) fun _ hb => hb.2) ⟨hb, .refl⟩

variable [RandomSource ρ]

theorem prune_pins (cat : Category) (op : Opcode) (s : State ρ) :
    Gen.Ends (Gen.prune cat op) c s (fun _ s' => op ∈ (s'.weights.row cat).pins)
      fun _ _ => True :=
  .after fun _ _ => .after fun _ _ => .modify (WeightTable.mem_pins_pinZero.mpr (.inr ⟨rfl, rfl⟩))

/-- A shader is planned so that what is tried is fresh. -/
theorem program_pinning (hdepth : c.maxDepth ≠ 0) {b : Books} (hb : b.weights.Pinned) :
    (program (ρ := ρ)).Meets c (.pinning c) (fun e b => e.Fresh b) (fun _ => Kept c b) b :=
  Tidy.pinning
    (program_each tidy_covers hdepth (fun _ hb => hb) (fun _ hb => hb) fun _ _ _ _ hb => hb) hb

variable [LawfulRandomSource ρ]

/-- What is drawn is not pinned. -/
theorem sample?_fresh {cat : Category} {s : State ρ} (hs : s.weights.Pinned) :
    Gen.Ends (Gen.sample? cat) c s
      (fun o _ => ∀ op, o = some op → (Event.enter cat op).Fresh s.books) fun _ _ => True :=
  Gen.sample?_unpinned hs

theorem resample_pinning (t : Target α) (misses : Nat) {b : Books} (hb : b.weights.Pinned)
    (hmisses : (Event.sample t.category misses).Fresh b) :
    (Routine.body (ρ := ρ) (.resample t misses)).Meets c (.pinning c) (fun e b => e.Fresh b)
      (fun _ => Kept c b) b := by
  have hleft : ∀ b', Kept c b b' → (Event.sample t.category misses).Fresh b' := fun b' hb' =>
    (Nat.add_le_add_left (hb'.2.grows.left_le t.category) misses).trans hmisses
  refine resample_meets (fun op b' => (Event.enter t.category op).Fresh b ∧ Kept c b b')
    (fun _ hb' => hb') (fun _ _ hb' => hb'.2) (fun _ _ hb' => hb') hleft (fun _ _ => trivial)
    ?_ ?_ Kept.drawing ⟨hb, .refl⟩
  · rintro op s s' rfl hrun
    have hfresh := (sample?_fresh hb).of_run_ok hrun op rfl
    exact {
      needs := by
        rintro _ rfl
        exact ⟨hb, hfresh⟩
      during := fun _ _ _ _ he => he
      leaves := by
        rintro _ _ b' rfl h
        exact ⟨hfresh, h⟩ }
  · rintro op s ⟨⟨hmem, hop⟩, hkept⟩
    refine ((prune_pins t.category op s).and ((Gen.prune_keeps t.category op).ends c s)).mono ?_
      fun _ _ _ => trivial
    rintro _ s' ⟨hpinned, hdrawn⟩
    have hkept' := hkept.drawing _ _ hdrawn
    refine allows_pinning ?_ ?_
    · rintro _ rfl
      refine ⟨hkept'.1, ?_⟩
      -- not pinned when it was entered and pinned now, whoever did it in between
      have hlt := hkept'.2.grows.left_lt hmem hop hpinned
      change misses + 1 + s'.weights.left t.category ≤ _
      change misses + b.weights.left t.category ≤ _ at hmisses
      change s'.weights.left t.category < b.weights.left t.category at hlt
      omega
    · rintro _ rfl
      exact hkept'.2

theorem pinning_kept : (Contract.pinning c).Kept ρ c := by
  intro α r b hb
  cases r with
  | dispatch t =>
    have hdraw : (Contract.pinning c).Allows (.resample t 0) (Kept c b) (fun e b => e.Fresh b)
        (Kept c b) :=
      allows_pinning (fun _ hb' => ⟨hb'.1, (Nat.zero_add _).trans_le WeightTable.left_le⟩)
        fun _ hb' => hb'.2
    exact dispatch_meets (fun _ hb' => hb') (fun _ hb' _ => hb') Kept.drawing (fun _ hb' => hb')
      (fun _ _ => trivial) (fun _ _ => trivial) hdraw ⟨hb, .refl⟩
  | resample t misses => exact resample_pinning t misses hb.1 hb.2
  | variant t op =>
    refine enter_meets hb.2 ?_
    cases t with
    | type cat =>
      exact Tidy.pinning (typeVariant_each tidy_covers (fun _ _ _ hb => hb) arrayType_tidy) hb.1
    | constant => exact Tidy.pinning (constantVariant_each tidy_covers (fun _ _ _ hb => hb) op) hb.1
    | statement levels scope =>
      exact Tidy.pinning
        (statementVariant_each tidy_covers (fun _ _ _ _ hb => hb) scope extended_tidy) hb.1
  | fill levels scope block =>
    exact Tidy.pinning (fill_each tidy_covers (fun _ hb => hb) fun _ _ hb => hb) hb

end Plan

/-! ### Sessions -/

namespace Config

variable [RandomSource ρ] [LawfulRandomSource ρ]

/-- A session answers what its program ends with; a shader may have too many ids. -/
theorem shaderFrom_answers (hc : c.validate = .ok ()) (source : ρ) :
    (∃ cause, (Gen.program.run c (.start source)).1 = .error (.stopped cause) ∧
      c.MayStop ρ cause ∧ c.shaderFrom source = .error cause) ∨
    ∃ shader, (Gen.program.run c (.start source)).1 = .ok shader ∧
      (c.shaderFrom source = .error (.fault .overflow) ∨ ∃ s, c.shaderFrom source = .ok s) := by
  have hprogram := (Gen.program_finishes hc source).and
    (Gen.program_ends (c.maxFunctions_ne_zero hc) source)
  rcases hrun : Gen.program.run c (.start source) with ⟨_ | program, s⟩
  · obtain ⟨⟨cause, rfl, hmay⟩, -⟩ := hprogram.of_run_error hrun
    refine .inl ⟨cause, rfl, hmay, ?_⟩
    rw [shaderFrom, hc, hrun]
    rfl
  · obtain ⟨-, -, fs, hassembled⟩ := hprogram.of_run_ok hrun
    refine .inr ⟨program, rfl, ?_⟩
    rcases hassembled.finish_answers with ⟨s', hs'⟩ | ⟨hfull, -⟩
    · refine .inr ⟨s', ?_⟩
      rw [shaderFrom, hc, hrun]
      simp only [hs']
      rfl
    · refine .inl ?_
      rw [shaderFrom, hc, hrun]
      simp only [hfull]
      rfl

/-- The session of a valid configuration ends, whatever is drawn. The plan of its shader,
which bounds nothing, has a run, and this is the run of the generator; before each draw of
a variant so many were infeasible as there are pins at most, and the variant that is
entered is not pinned. No bound of a loop is reached on the way. -/
theorem ends_of_validate (hc : c.validate = .ok ()) (source : ρ) :
    (∃ ms, Plan.program.Runs c (.start source) ms (Gen.program.run c (.start source)) ∧
      ∀ m ∈ ms, m.event.Fresh m.state.books) ∧
    ∀ f, c.shaderFrom source = .error (.fault f) → f ≠ .outOfSteps ∧ f ≠ .cyclic := by
  refine ⟨?_, fun f hf => ?_⟩
  · obtain ⟨ms, hruns⟩ := Plan.program_runs hc source
    exact ⟨ms, hruns, (hruns.meets Plan.pinning_kept
      (Plan.program_pinning (c.maxDepth_ne_zero hc) WeightTable.pinned_empty)).1⟩
  · rcases shaderFrom_answers hc source with ⟨cause, -, hmay, hstop⟩ | ⟨_, -, hover | ⟨s, hs⟩⟩
    · cases Except.error.inj (hstop.symm.trans hf)
      rcases hmay with hbudget | hbreaks
      · cases hbudget
      · cases hbreaks <;> exact ⟨nofun, nofun⟩
    · cases Except.error.inj (hover.symm.trans hf)
      exact ⟨nofun, nofun⟩
    · cases hs.symm.trans hf

/-- A session that ends with seven statements, and one that stops for a number that does not
fit its word, not for a bound. -/
theorem ends_small :
    (small.validate = .ok () ∧ ∃ ms, Plan.program.Runs small (.start Script.selection) ms
        (Gen.program.run small (.start Script.selection)) ∧
      (Gen.program.run small (.start Script.selection)).2.statements = 7 ∧
      ∀ m ∈ ms, m.event.Fresh m.state.books) ∧
    swollen.validate = .ok () ∧ ∃ f, swollen.shaderFrom Script.selection = .error (.fault f) ∧
      f ≠ .outOfSteps ∧ f ≠ .cyclic := by
  obtain ⟨ms, hruns, hfresh⟩ := (ends_of_validate small_validate Script.selection).1
  exact ⟨⟨small_validate, ms, hruns, by decide +kernel, hfresh⟩, swollen_validate, .overflow,
    swollen_shaderFrom, (ends_of_validate swollen_validate Script.selection).2 _ swollen_shaderFrom⟩

end Config

end ShaderGen
