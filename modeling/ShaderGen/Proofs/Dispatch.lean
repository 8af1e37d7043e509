import ShaderGen.Proofs.Searching
import ShaderGen.Proofs.Session

/-!
Drawing a variant. Weights steer which variant is tried and nothing else: all that
happens around the routine of a variant is quiet, so what every variant of a
category does, a draw from the category does.
-/

namespace ShaderGen.Gen

variable {ρ α : Type} [RandomSource ρ] {c : Config} {s : State ρ}

/-! ### Weights -/

theorem parameter_quietly (hs : s.Sound c) (r : Interval) :
    Quietly c s (parameter r) fun _ _ => True := by
  unfold parameter
  split_ifs
  · exact .pure hs trivial
  · exact (Quietly.draw hs).mono fun _ _ _ _ => trivial
  · exact .fault hs

theorem statementWeights_quietly (hs : s.Sound c) (n : Nat) :
    Quietly c s (statementWeights n) fun _ _ => True := by
  refine (Quietly.read hs).seq ?_
  rintro _ _ - ⟨rfl, rfl⟩
  split
  · exact .pure hs trivial
  · refine (parameter_quietly hs _).seq fun _ s₁ q₁ _ => ?_
    exact (parameter_quietly q₁.sound _).seq fun _ s₂ q₂ _ => .pure q₂.sound trivial
  · refine (parameter_quietly hs _).seq fun _ s₁ q₁ _ => ?_
    exact (parameter_quietly q₁.sound _).seq fun _ s₂ q₂ _ => .pure q₂.sound trivial

omit [RandomSource ρ] in
/-- Weights are put in their place, with the pins of the configuration. -/
theorem install_steadily (hs : s.Sound c) (cat : Category) (weights : List Float) :
    Ends (installWeights cat weights) c s (fun _ s' => Quiet c s s') (Stops c) := by
  refine Ends.bind (Ends.read (Ends.bind (Ends.get ?_)))
  refine Ends.bind (Ends.checked (fun table _ => ?_) fun _ => hs)
  exact Ends.modify (.of_eq hs rfl rfl rfl)

theorem parametrize_quietly (hs : s.Sound c) (cat : Category) :
    Quietly c s (parametrize cat) fun _ _ => True := by
  have hrest (s : State ρ) (hs : s.Sound c) (weights : List Float) :
      Quietly c s _ fun _ _ => True :=
    Ends.mono (install_steadily hs cat weights) (fun _ _ h => ⟨h, trivial⟩) fun _ _ he => he.halts
  unfold parametrize
  split
  · exact (statementWeights_quietly hs _).seq fun weights s₁ q₁ _ => hrest s₁ q₁.sound weights
  · exact hrest s hs _

theorem ensureParametrized_quietly (hs : s.Sound c) (cat : Category) :
    Quietly c s (ensureParametrized cat) fun _ _ => True := by
  refine (Quietly.get hs).seq ?_
  rintro _ _ - ⟨rfl, rfl⟩
  split
  · exact .pure hs trivial
  · exact parametrize_quietly hs cat

theorem pinZero_quietly (hs : s.Sound c) (cat : Category) (op : Opcode) :
    Quietly c s (pinZero cat op) fun _ _ => True := by
  refine (ensureParametrized_quietly hs cat).seq fun _ s₁ q₁ _ => ?_
  exact (Quietly.modify q₁.sound rfl rfl rfl).mono fun _ _ _ _ => trivial

/-- A type is always pinned: its category has plain weights. -/
theorem pinZero_type_steadily (hs : s.Sound c) (op : Opcode) :
    Ends (pinZero .type op) c s (fun _ s' => Quiet c s s') (Stops c) := by
  have hensure : Ends (ensureParametrized .type) c s (fun _ s' => Quiet c s s') (Stops c) := by
    refine Ends.bind (Ends.get ?_)
    split
    · exact Quiet.refl hs
    · exact install_steadily hs .type _
  refine Ends.bind (hensure.mono (fun _ s₁ q₁ => ?_) fun _ _ he => he)
  exact Ends.modify (q₁.trans (.of_eq q₁.sound rfl rfl rfl))

theorem prune_quietly (hs : s.Sound c) (cat : Category) (op : Opcode) :
    Quietly c s (prune cat op) fun _ _ => True := by
  refine (Quietly.modify hs rfl rfl rfl).seq fun _ s₁ q₁ _ => ?_
  exact pinZero_quietly q₁.sound cat op

theorem maybeMutate_quietly (hs : s.Sound c) : Quietly c s maybeMutate fun _ _ => True := by
  refine (Quietly.read hs).seq ?_
  rintro _ _ - ⟨rfl, rfl⟩
  refine (chance_quietly hs _).seq fun b s₁ q₁ _ => ?_
  split_ifs
  · exact parametrize_quietly q₁.sound _
  · exact .pure q₁.sound trivial

/-- A variant that is drawn is a member of its category. -/
theorem sample?_quietly (hs : s.Sound c) (cat : Category) :
    Quietly c s (sample? cat) fun o _ => ∀ op, o = some op → op ∈ cat.members := by
  refine (Quietly.get hs).seq ?_
  rintro _ _ - ⟨rfl, rfl⟩
  split
  · exact .pure hs fun _ h => by cases h
  · split_ifs
    · refine (Quietly.draw hs).seq fun k s₁ q₁ _ => .pure q₁.sound fun op hop => ?_
      exact List.mem_of_getElem? hop
    · exact .fault hs
    · exact .pure hs fun _ h => by cases h

omit [RandomSource ρ] in
theorem checkBudget_quietly (hs : s.Sound c) : Quietly c s checkBudget fun _ _ => True := by
  refine (Quietly.read hs).seq ?_
  rintro _ _ - ⟨rfl, rfl⟩
  refine (Quietly.get hs).seq ?_
  rintro _ _ - ⟨rfl, rfl⟩
  split_ifs
  · exact .stop hs
  · exact .pure hs trivial

theorem applyExclusions_quietly (hs : s.Sound c) (cat : Category) :
    Quietly c s (applyExclusions cat) fun _ _ => True := by
  unfold applyExclusions
  split_ifs
  · refine (Quietly.read hs).seq ?_
    rintro _ _ - ⟨rfl, rfl⟩
    exact Quietly.forM hs fun op _ s' q => pinZero_quietly q.sound cat op
  · exact .pure hs trivial

/-! ### Draws -/

variable {R : State ρ → α → State ρ → Prop} {cat : Category} {produce : Opcode → Gen ρ α}

/-- What every variant of a category does, a draw does, however many rounds it
takes. The relation leads to sessions in order, and counting a statement does not matter
to it. -/
theorem leads_resample (hR : Rebases c R)
    (hcount : ∀ s a s', R s a s' → s'.Sound c ∧ R s a { s' with statements := s'.statements + 1 })
    (hp : ∀ op ∈ cat.members, ∀ s, s.Sound c → Leads c s (produce op) R) (rounds : Nat)
    (hs : s.Sound c) : Leads c s (resample cat produce rounds) R := by
  induction rounds generalizing s with
  | zero => exact hs
  | succ rounds ih =>
    refine (sample?_quietly hs cat).lead hR fun o s₁ q₁ ho => ?_
    cases o with
    | none =>
      refine (Quietly.get q₁.sound).lead hR ?_
      rintro _ _ - ⟨rfl, rfl⟩
      split_ifs
      · exact Quiet.refl q₁.sound
      · exact q₁.sound
    | some op =>
      refine Ends.bind (Ends.attempt (Ends.mono (hp op (ho op rfl) s₁ q₁.sound) ?_ ?_))
      · intro a s₂ ha
        dsimp only
        obtain ⟨hs₂, hcounted⟩ := hcount s₁ a s₂ ha
        split_ifs
        · refine .bind ((countStatement_ends c s₂).mono ?_ ?_)
          · rintro _ _ ⟨-, rfl⟩
            exact hcounted
          · rintro _ _ ⟨rfl, -, rfl⟩
            exact hs₂
        · exact ha
      · rintro (_ | cause) s₂ he
        · -- a variant that is infeasible is pruned, and the next round draws another one
          refine Ends.mono ((prune_quietly he.sound cat op).lead hR fun _ s₃ q₃ _ => ih q₃.sound)
            (fun _ _ hb => hR he hb) fun _ _ hb => hb.after he
        · exact he

theorem leads_dispatch (hR : Rebases c R)
    (hcount : ∀ s a s', R s a s' → s'.Sound c ∧ R s a { s' with statements := s'.statements + 1 })
    (hp : ∀ op ∈ cat.members, ∀ s, s.Sound c → Leads c s (produce op) R) (hs : s.Sound c) :
    Leads c s (dispatch cat produce) R := by
  refine (checkBudget_quietly hs).lead hR fun _ s₁ q₁ _ => ?_
  refine (ensureParametrized_quietly q₁.sound cat).lead hR fun _ s₂ q₂ _ => ?_
  -- Whether weights mutate first or not, the rest of the draw is the same.
  have hrest : ∀ s : State ρ, s.Sound c → Leads c s (do
      applyExclusions cat
      resample cat produce (cat.members.length + 1)) R := fun s hs =>
    (applyExclusions_quietly hs cat).lead hR fun _ s' q _ => leads_resample hR hcount hp _ q.sound
  split_ifs
  · exact (maybeMutate_quietly q₂.sound).lead hR fun _ s₃ q₃ _ => hrest s₃ q₃.sound
  · exact hrest s₂ q₂.sound

end ShaderGen.Gen
