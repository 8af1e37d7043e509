import ShaderGen.Proofs.CalmEntries
import ShaderGen.Proofs.Progress

/-!
Drawing a variant comes to an end. Weights are drawn from the intervals of the
configuration; a lawful source draws a variant that is not pinned, and if that is
infeasible it is pinned, so there are fewer and fewer to draw. Each draw of a
statement that succeeds counts one.
-/

namespace ShaderGen.Gen

variable {ρ α : Type} [RandomSource ρ] {c : Config} {s : State ρ} {cat : Category} {op : Opcode}

/-! ### Weights -/

theorem parameter_completes (hr : s.Ready c) {r : Interval} (hmem : r ∈ c.intervals) :
    Completes c s (parameter r) fun x s' => r.Draws ρ x ∧ s'.pruned = s.pruned := by
  unfold parameter
  split_ifs with hpoint hdrawable
  · exact .pure hr ⟨.only hpoint, rfl⟩
  · exact .draw hr ⟨.drawn hpoint hdrawable _, rfl⟩
  · exact .stop (.inr (.interval hmem hpoint (Bool.eq_false_iff.mpr hdrawable)))

theorem statementWeights_completes (hr : s.Ready c) :
    Completes c s (statementWeights Category.statement.members.length)
      fun w s' => c.Weighs ρ w ∧ s'.pruned = s.pruned := by
  refine Completes.read_bind ?_
  split
  · rename_i h
    exact .pure hr ⟨.uniform h, rfl⟩
  · rename_i h
    refine (parameter_completes hr (by simp [Config.intervals, h])).andThen ?_
    rintro mean s₁ h₁ ⟨hmean, hpruned₁⟩
    refine (parameter_completes h₁.ready (by simp [Config.intervals, h])).andThen ?_
    rintro stdDev s₂ h₂ ⟨hstdDev, hpruned₂⟩
    exact .pure h₂.ready ⟨.gaussian h hmean hstdDev, hpruned₂.trans hpruned₁⟩
  · rename_i h
    refine (parameter_completes hr (by simp [Config.intervals, h])).andThen ?_
    rintro alpha s₁ h₁ ⟨halpha, hpruned₁⟩
    refine (parameter_completes h₁.ready (by simp [Config.intervals, h])).andThen ?_
    rintro beta s₂ h₂ ⟨hbeta, hpruned₂⟩
    exact .pure h₂.ready ⟨.betaBinomial h halpha hbeta, hpruned₂.trans hpruned₁⟩

/-- Weights that were drawn are put in their place. -/
theorem install_completes (hr : s.Ready c) {base : List Float} (hbase : c.WeighsFor ρ cat base) :
    Completes c s (installWeights cat base) fun _ s' =>
      s'.pruned = s.pruned ∧ s'.weights.isParametrized cat = true := by
  obtain ⟨t, hinstall, hdrawn, hgrows, hparametrized⟩ := hr.drawn.exists_install hbase
  refine Completes.read_bind (Completes.get_bind ?_)
  rw [hbase.applyPins_withheld]
  exact Completes.checked_bind hinstall
    (Completes.modify (.of_weights hr hdrawn hgrows) ⟨rfl, hparametrized⟩)

theorem parametrize_completes (hr : s.Ready c) (cat : Category) :
    Completes c s (parametrize cat) fun _ s' =>
      s'.pruned = s.pruned ∧ s'.weights.isParametrized cat = true := by
  unfold parametrize
  split_ifs with hcat
  · subst hcat
    refine (statementWeights_completes hr).andThen ?_
    rintro base s₁ h₁ ⟨hbase, hpruned⟩
    rw [← hpruned]
    exact install_completes h₁.ready (by rwa [Config.WeighsFor, if_pos rfl])
  · exact install_completes hr (by rw [Config.WeighsFor, if_neg hcat])

theorem ensureParametrized_completes (hr : s.Ready c) (cat : Category) :
    Completes c s (ensureParametrized cat) fun _ s' =>
      s'.pruned = s.pruned ∧ s'.weights.isParametrized cat = true := by
  refine Completes.get_bind ?_
  split
  · exact .pure hr ⟨rfl, ‹_›⟩
  · exact parametrize_completes hr cat

/-- Variants that were found infeasible may be pinned, and types that are not to be
drawn. -/
theorem pinZero_completes (hr : s.Ready c)
    (hop : cat ∈ s.pruned ∨ cat.isType = true ∧ (op ∈ c.excluded ∨ op = .typeFunction)) :
    Completes c s (pinZero cat op) fun _ s' => op ∈ (s'.weights.row cat).pins := by
  refine (ensureParametrized_completes hr cat).andThen ?_
  rintro _ s₁ h₁ ⟨hpruned, -⟩
  rw [← hpruned] at hop
  exact Completes.modify (.of_weights h₁.ready (h₁.ready.drawn.pinZero hop)
    WeightTable.grows_pinZero) (WeightTable.mem_pins_pinZero.mpr (.inr ⟨rfl, rfl⟩))

theorem prune_completes (hr : s.Ready c) (cat : Category) (op : Opcode) :
    Completes c s (prune cat op) fun _ s' => op ∈ (s'.weights.row cat).pins := by
  have hpruned : Completes c s (modify fun s : State ρ =>
      { s with pruned := if s.pruned.contains cat then s.pruned else cat :: s.pruned })
      fun _ s' => cat ∈ s'.pruned := by
    refine Completes.modify ⟨⟨?_, hr.known⟩, .refl _, fun cat' h => ?_, Nat.le_refl _, Nat.le_refl _,
      Nat.le_refl _⟩ ?_
    · split_ifs
      · exact hr.drawn
      · exact hr.drawn.prune cat
    · split_ifs
      · exact h
      · exact List.mem_cons_of_mem _ h
    · split_ifs with h
      · exact List.contains_iff_mem.mp h
      · exact List.mem_cons_self
  exact hpruned.andThen fun _ s₁ h₁ hmem => pinZero_completes h₁.ready (.inl hmem)

theorem chance_completes (hr : s.Ready c) {p : Float} (hp : Config.isProbability p = true) :
    Completes c s (chance p) fun _ _ => True := by
  unfold Config.isProbability at hp
  unfold chance
  rw [if_pos hp]
  exact .draw hr trivial

theorem maybeMutate_completes (hc : c.validate = .ok ()) (hr : s.Ready c) :
    Completes c s maybeMutate fun _ _ => True := by
  refine Completes.read_bind ?_
  refine (chance_completes hr (c.mutationProbability_of_validate hc)).andThen fun b s₁ h₁ _ => ?_
  split_ifs
  · exact (parametrize_completes h₁.ready _).mono fun _ _ _ _ => trivial
  · exact .pure h₁.ready trivial

theorem applyExclusions_completes (hr : s.Ready c) (cat : Category) :
    Completes c s (applyExclusions cat) fun _ _ => True := by
  unfold applyExclusions
  split_ifs with htype
  · refine Completes.read_bind ?_
    have hall : ∀ op ∈ c.excluded.filter cat.members.contains, op ∈ c.excluded := fun op hop =>
      List.mem_of_mem_filter hop
    generalize c.excluded.filter cat.members.contains = ops at hall
    induction ops generalizing s with
    | nil => exact .pure hr trivial
    | cons op ops ih =>
      refine (pinZero_completes hr (.inr ⟨htype, .inl (hall op (by simp))⟩)).andThen ?_
      exact fun _ s₁ h₁ _ => ih h₁.ready fun op hop => hall op (by simp [hop])
  · exact .pure hr trivial

theorem checkBudget_completes (hr : s.Ready c) :
    Completes c s checkBudget fun _ s' => s' = s ∧ s.statements ≤ c.instructionBudget := by
  refine Completes.read_bind (Completes.get_bind ?_)
  split_ifs with h
  · exact .stop (.inl rfl)
  · exact .pure hr ⟨rfl, Nat.not_lt.mp h⟩

/-- One more statement is counted as long as the count fits its word. -/
theorem countStatement_completes (hr : s.Ready c) :
    Completes c s countStatement fun _ s' => s.statements < s'.statements := by
  refine (countStatement_ends c s).mono ?_ ?_
  · rintro _ _ ⟨-, rfl⟩
    exact ⟨(Advances.refl hr).counted, Nat.lt_succ_self _⟩
  · rintro _ _ ⟨rfl, hfull, rfl⟩
    exact ⟨_, rfl, .inr ⟨rfl, hfull⟩⟩

/-! ### Draws -/

variable [LawfulRandomSource ρ]

/-- A variant that is drawn is a member that is not pinned. There is none to draw only
if something was found infeasible or the statements weigh nothing. -/
theorem sample?_completes (hc : c.validate = .ok ()) (hr : s.Ready c)
    (hcat : cat ≠ .containerType) (hparametrized : s.weights.isParametrized cat = true) :
    Completes c s (sample? cat) fun o s' => s'.weights = s.weights ∧ s'.statements = s.statements ∧
      (o = none → cat ∈ s'.pruned ∨ c.Breaks ρ (.weightless cat)) ∧
      ∀ op, o = some op → op ∈ cat.members ∧ op ∉ (s'.weights.row cat).pins := by
  obtain ⟨weights, hweights⟩ := Option.isSome_iff_exists.mp hparametrized
  change s.weights.weights? cat = some weights at hweights
  refine Completes.get_bind ?_
  rw [hweights]
  dsimp only
  split_ifs with hchoosable hfinite
  · have hdraw : Completes c s (Gen.draw (RandomSource.weighted weights)) fun k s' =>
        s'.weights = s.weights ∧ s'.statements = s.statements ∧
          ∃ op, cat.members[k]? = some op ∧ op ∈ cat.members ∧ op ∉ (s.weights.row cat).pins := by
      obtain ⟨w, hk, hw⟩ := LawfulRandomSource.weighted_ne_zero weights s.source hchoosable
      exact Completes.draw hr ⟨rfl, rfl, hr.drawn.unpinned hweights hk hw⟩
    refine hdraw.andThen ?_
    rintro k s₁ h₁ ⟨hw, hst, op, hop, hmem, hpins⟩
    refine .pure h₁.ready ⟨hw, hst, ?_, fun op' h => ?_⟩
    · rw [hop]
      exact nofun
    · rw [hop] at h
      cases h
      rw [hw]
      exact ⟨hmem, hpins⟩
  · -- equal weights add up, so these are the weights of statements
    have hstatement : cat = .statement := by
      by_contra hne
      exact hfinite (hr.drawn.total_isFinite hne hweights)
    subst hstatement
    obtain ⟨base, pins, hbase, rfl, -⟩ := hr.drawn.statement hweights
    exact .stop (.inr (.sum hbase pins hchoosable (Bool.eq_false_iff.mpr hfinite)))
  · refine .pure hr ⟨rfl, rfl, fun _ => ?_, nofun⟩
    by_cases hpruned : cat ∈ s.pruned
    · exact .inl hpruned
    · have hstatement : cat = .statement := by
        by_contra hne
        exact hchoosable
          (hr.drawn.choosable (c.numeric_of_validate hc) hne hcat hpruned hweights)
      subst hstatement
      obtain ⟨base, pins, hbase, rfl, hpins⟩ := hr.drawn.statement hweights
      rw [hpins hpruned] at hchoosable
      exact .inr (.weightless hbase (Bool.eq_false_iff.mpr hchoosable))

variable {R : State ρ → α → State ρ → Prop} {P : State ρ → Prop} {produce : Opcode → Gen ρ α}

/-- As many rounds as there are variants left, and one more, are enough. What holds of
the session when a variant is tried is kept by quiet steps. -/
theorem resample_proceeds (hc : c.validate = .ok ()) (hcat : cat ≠ .containerType)
    (hsound : ∀ s, P s → s.Sound c) (hP : ∀ s s', P s → Quiet c s s' → P s')
    (hlead : ∀ op ∈ cat.members, ∀ s, P s → Leads c s (produce op) R)
    (hproduce : ∀ op ∈ cat.members, ∀ s, P s → s.Ready c →
      Proceeds c s (produce op) fun _ _ => True)
    (rounds : Nat) (hs : P s) (hr : s.Ready c)
    (hparametrized : s.weights.isParametrized cat = true) (hleft : s.weights.left cat < rounds) :
    Proceeds c s (resample cat produce rounds) fun _ s' =>
      cat = .statement → s.statements < s'.statements := by
  induction rounds generalizing s with
  | zero => omega
  | succ rounds ih =>
    refine (sample?_completes hc hr hcat hparametrized).proceeds.bind
      (sample?_quietly (hsound s hs) cat) ?_
    rintro o s₁ h₁ ⟨hweights, hcount, hnone, hsome⟩ ⟨q₁, -⟩
    have hs₁ := hP s s₁ hs q₁
    cases o with
    | none =>
      refine Proceeds.get_bind ?_
      split_ifs with hpruned
      · exact .infeasible h₁.ready
      · refine .stop (.inr ((hnone rfl).resolve_left fun hmem => hpruned ?_))
        exact List.contains_iff_mem.mpr hmem
    | some op =>
      obtain ⟨hmem, hop⟩ := hsome op rfl
      refine (Completes.attempt (hproduce op hmem s₁ hs₁ h₁.ready)).proceeds.bind
        (hlead op hmem s₁ hs₁).attempt ?_
      rintro (_ | a) s₂ h₂ - ⟨-, hquiet⟩
      · -- an infeasible variant was not pinned, and now it is
        have hs₂ := hP s₁ s₂ hs₁ (hquiet rfl)
        refine (prune_completes h₂.ready cat op).proceeds.bind
          (prune_quietly (hsound s₂ hs₂) cat op) ?_
        rintro _ s₃ h₃ hpin ⟨q₃, -⟩
        have h₁₃ := h₂.trans h₃
        have hless := h₁₃.weights.left_lt hmem hop hpin
        rw [hweights] at hless
        refine (ih (hP s₂ s₃ hs₂ q₃) h₃.ready ((h₁.trans h₁₃).weights.parametrized cat hparametrized)
          (by omega)).mono fun a s₄ h₄ hmore hst => ?_
        have := (h₁.trans h₁₃).statements
        have := hmore hst
        omega
      · dsimp only
        split_ifs with hst
        · refine (countStatement_completes h₂.ready).proceeds.andThen fun _ s₃ h₃ hmore => ?_
          refine .pure h₃.ready fun _ => ?_
          have := (h₁.trans h₂).statements
          omega
        · exact .pure h₂.ready fun h => absurd h hst

/-- A variant of a category is drawn, and the budget allowed it. -/
theorem dispatch_proceeds (hc : c.validate = .ok ()) (hcat : cat ≠ .containerType)
    (hsound : ∀ s, P s → s.Sound c) (hP : ∀ s s', P s → Quiet c s s' → P s')
    (hlead : ∀ op ∈ cat.members, ∀ s, P s → Leads c s (produce op) R)
    (hproduce : ∀ op ∈ cat.members, ∀ s, P s → s.Ready c →
      Proceeds c s (produce op) fun _ _ => True)
    (hs : P s) (hr : s.Ready c) : Proceeds c s (dispatch cat produce) fun _ s' =>
      s.statements ≤ c.instructionBudget ∧ (cat = .statement → s.statements < s'.statements) := by
  refine (checkBudget_completes hr).proceeds.andThen ?_
  rintro _ s - ⟨rfl, hbudget⟩
  refine (ensureParametrized_completes hr cat).proceeds.bind
    (ensureParametrized_quietly (hsound s hs) cat) ?_
  rintro _ s₁ h₁ ⟨-, hparametrized⟩ ⟨q₁, -⟩
  have hs₁ := hP s s₁ hs q₁
  -- Whether weights mutate first or not, the rest of the draw is the same.
  have hrest : ∀ s₂, Advances c s s₂ → P s₂ → s₂.weights.isParametrized cat = true →
      Proceeds c s₂ (do
        applyExclusions cat
        resample cat produce (cat.members.length + 1)) fun _ s' =>
          s.statements ≤ c.instructionBudget ∧
            (cat = .statement → s.statements < s'.statements) := by
    intro s₂ h₂ hs₂ hparametrized
    refine (applyExclusions_completes h₂.ready cat).proceeds.bind
      (applyExclusions_quietly (hsound s₂ hs₂) cat) ?_
    rintro _ s₃ h₃ - ⟨q₃, -⟩
    refine (resample_proceeds hc hcat hsound hP hlead hproduce _ (hP s₂ s₃ hs₂ q₃) h₃.ready
      (h₃.weights.parametrized cat hparametrized) (Nat.lt_succ_of_le WeightTable.left_le)).mono ?_
    intro a s₄ h₄ hmore
    refine ⟨hbudget, fun hst => ?_⟩
    have := hmore hst
    have := (h₂.trans h₃).statements
    omega
  split_ifs
  · refine (maybeMutate_completes hc h₁.ready).proceeds.bind
      (maybeMutate_quietly (hsound s₁ hs₁)) ?_
    rintro _ s₂ h₂ - ⟨q₂, -⟩
    exact hrest s₂ (h₁.trans h₂) (hP s₁ s₂ hs₁ q₂) (h₂.weights.parametrized cat hparametrized)
  · exact hrest s₁ h₁ hs₁ hparametrized

end ShaderGen.Gen
