import ShaderGen.Proofs.Books
import ShaderGen.Proofs.Progress
import ShaderGen.Random.Script

/-!
Pins are for good. A pin is kept beside the weights of its category, and whatever weights
are put in place later get its zero again; so it can be set before there are any, and a
draw that never picks a zero never gives the variant back. A pin touches nothing else: the
other weights of its category stay where they were, and those of other categories as well.
-/

namespace ShaderGen

variable {ρ α : Type} {c : Config}

/-! ### Tables -/

namespace WeightTable

variable {t t' t'' : WeightTable} {cat : Category} {op : Opcode}

/-- A table comes from another by pins and by weights that are put in place. -/
inductive Revised (t : WeightTable) : WeightTable → Prop
  | refl : Revised t t
  | install {t' t'' : WeightTable} (h : Revised t t') (cat : Category) (weights : List Float)
      (hinstall : t'.install cat weights = .ok t'') : Revised t t''
  | pinZero {t' : WeightTable} (h : Revised t t') (cat : Category) (op : Opcode) :
      Revised t (t'.pinZero cat op)

theorem Evolves.revised (h : t.Evolves c t') : t.Revised t' := by
  induction h with
  | refl => exact .refl
  | install _ cat base hinstall ih => exact ih.install cat _ hinstall
  | pin _ cat op ih => exact ih.pinZero cat op

theorem Revised.trans (h : t.Revised t') (h' : t'.Revised t'') : t.Revised t'' := by
  induction h' with
  | refl => exact h
  | install _ cat weights hinstall ih => exact ih.install cat weights hinstall
  | pinZero _ cat op ih => exact ih.pinZero cat op

theorem Revised.grows (h : t.Revised t') : Grows t t' := by
  induction h with
  | refl => exact .refl t
  | install _ cat weights hinstall ih => exact ih.trans (grows_install hinstall)
  | pinZero _ cat op ih => exact ih.trans grows_pinZero

/-- The weights that are put in place get the zeros of the pins. -/
theorem weights?_install {weights : List Float} (h : t.install cat weights = .ok t')
    (cat' : Category) : weights.length = cat.members.length ∧ t'.weights? cat' =
      if cat = cat' then some (applyPins (t.row cat).pins weights cat.members)
      else t.weights? cat' := by
  unfold WeightTable.install at h
  split_ifs at h with hlength
  cases h
  refine ⟨hlength, ?_⟩
  rw [weights?, row_setRow]
  split_ifs
  · rfl
  · rfl

/-- Wherever there are weights, those of pinned variants are zero. -/
def Pinned (t : WeightTable) : Prop :=
  ∀ cat w, t.weights? cat = some w → ∃ base, w = applyPins (t.row cat).pins base cat.members

theorem pinned_empty : Pinned {} := by
  intro cat w h
  rw [weights?, row_empty] at h
  cases h

theorem Pinned.install (h : t.Pinned) {weights : List Float}
    (hinstall : t.install cat weights = .ok t') : t'.Pinned := by
  unfold WeightTable.install at hinstall
  split_ifs at hinstall
  cases hinstall
  intro cat' w hw
  rw [weights?, row_setRow] at hw
  rw [row_setRow]
  split_ifs at hw ⊢ with heq
  · subst heq
    exact ⟨weights, (Option.some.inj hw).symm⟩
  · exact h cat' w hw

theorem Pinned.pinZero (h : t.Pinned) (cat : Category) (op : Opcode) :
    (t.pinZero cat op).Pinned := by
  intro cat' w hw
  obtain ⟨w', hw', hpinned⟩ := weights?_pinZero hw
  obtain ⟨base, heq⟩ := h cat' w' hw'
  refine ⟨base, (hpinned _ _ heq).trans (applyPins_congr fun op' _ => ?_)⟩
  rw [Bool.eq_iff_iff, List.contains_iff_mem, List.contains_iff_mem, mem_pins_pinZero]
  split_ifs with hcat
  · rw [List.mem_cons]
    tauto
  · tauto

theorem Pinned.revised (h : t.Pinned) (hr : t.Revised t') : t'.Pinned := by
  induction hr with
  | refl => exact h
  | install _ cat weights hinstall ih => exact ih.install hinstall
  | pinZero _ cat op ih => exact ih.pinZero cat op

/-- Wherever there are weights, there is one for each member. -/
def Aligned (t : WeightTable) : Prop :=
  ∀ cat w, t.weights? cat = some w → w.length = cat.members.length

theorem aligned_empty : Aligned {} := by
  intro cat w h
  rw [weights?, row_empty] at h
  cases h

/-- What a pin makes of the weights of its category. -/
theorem weights?_pinZero_eq_map : (t.pinZero cat op).weights? cat =
    (t.weights? cat).map fun weights => match cat.members.findIdx? (· == op) with
      | some place => weights.set place 0.0
      | none => weights := by
  rw [weights?, pinZero, row_setRow, if_pos rfl]
  rfl

theorem Aligned.pinZero (h : t.Aligned) (cat : Category) (op : Opcode) :
    (t.pinZero cat op).Aligned := by
  intro cat' w hw
  by_cases hcat : cat = cat'
  · subst hcat
    rw [weights?_pinZero_eq_map] at hw
    obtain ⟨w', hw', rfl⟩ := Option.map_eq_some_iff.mp hw
    split
    · rw [List.length_set]
      exact h cat w' hw'
    · exact h cat w' hw'
  · rw [weights?_pinZero_of_ne hcat] at hw
    exact h cat' w hw

theorem Aligned.revised (h : t.Aligned) (hr : t.Revised t') : t'.Aligned := by
  induction hr with
  | refl => exact h
  | install _ cat weights hinstall ih =>
    intro cat' w hw
    obtain ⟨hlength, hweights⟩ := weights?_install hinstall cat'
    rw [hweights] at hw
    split_ifs at hw with hcat
    · subst hcat
      cases hw
      simp [applyPins, hlength]
    · exact ih cat' w hw
  | pinZero _ cat op ih => exact ih.pinZero cat op

/-- Wherever a category has weights, those of some variants are zero. -/
def Zeroes (t : WeightTable) (cat : Category) (zeroed : List Opcode) : Prop :=
  ∀ w, t.weights? cat = some w →
    ∃ base pins, zeroed ⊆ pins ∧ w = applyPins pins base cat.members

theorem Pinned.zeroes (h : t.Pinned) (cat : Category) : t.Zeroes cat (t.row cat).pins := by
  intro w hw
  obtain ⟨base, hbase⟩ := h cat w hw
  exact ⟨base, _, List.Subset.refl _, hbase⟩

/-- The weight of a member that has to be zero is zero, once there are weights. -/
theorem Zeroes.weight?_eq {zeroed : List Opcode} (h : t.Zeroes cat zeroed) (ha : t.Aligned)
    (hmem : op ∈ cat.members) (hop : op ∈ zeroed) :
    t.weight? cat op = if t.isParametrized cat then some 0.0 else none := by
  obtain ⟨place, hplace⟩ : ∃ place, cat.members.findIdx? (· == op) = some place :=
    Option.isSome_iff_exists.mp
      (List.findIdx?_isSome.trans (List.any_eq_true.mpr ⟨op, hmem, by simp⟩))
  obtain ⟨hlt, hat, -⟩ := List.findIdx?_eq_some_iff_getElem.mp hplace
  have hfound : cat.members[place] = op := eq_of_beq hat
  rw [weight?, hplace, isParametrized]
  change (t.weights? cat).bind (·[place]?) = if (t.weights? cat).isSome then _ else _
  rcases hw : t.weights? cat with _ | w
  · rfl
  · obtain ⟨base, pins, hpins, rfl⟩ := h w hw
    have hlength := ha cat _ hw
    have hbase : place < base.length := by
      simp only [applyPins, List.length_zipWith] at hlength
      omega
    rw [Option.bind_some, applyPins, List.getElem?_zipWith, List.getElem?_eq_getElem hbase,
      List.getElem?_eq_getElem hlt]
    simp [hfound, hpins hop]

/-- The weight of a pinned member is zero, once there are weights. -/
theorem Pinned.weight?_eq (h : t.Pinned) (ha : t.Aligned) (hmem : op ∈ cat.members)
    (hop : op ∈ (t.row cat).pins) :
    t.weight? cat op = if t.isParametrized cat then some 0.0 else none :=
  (h.zeroes cat).weight?_eq ha hmem hop

/-- At most one weight differs between two tables, that of a variant; other than that its
category may have got its weights. -/
structure Touches (cat : Category) (op : Opcode) (t t' : WeightTable) : Prop where
  others : ∀ cat' ≠ cat, t'.weights? cat' = t.weights? cat'
  aligned : ∀ w, t'.weights? cat = some w → w.length = cat.members.length
  kept : ∀ w, t.weights? cat = some w → ∃ w' : List Float, t'.weights? cat = some w' ∧
    w'.length = w.length ∧ ∀ k : Nat, cat.members[k]? ≠ some op → w'[k]? = w[k]?

theorem Aligned.touches_pinZero (h : t.Aligned) : Touches cat op t (t.pinZero cat op) where
  others cat' hcat' := weights?_pinZero_of_ne hcat'.symm
  aligned := h.pinZero cat op cat
  kept w hw := by
    rw [weights?_pinZero_eq_map, hw]
    refine ⟨_, rfl, ?_, fun k hk => ?_⟩
    · split
      · exact List.length_set
      · rfl
    · split
      case h_1 place hplace =>
        obtain ⟨hlt, hat, -⟩ := List.findIdx?_eq_some_iff_getElem.mp hplace
        refine List.getElem?_set_ne fun heq => hk ?_
        rw [← heq, List.getElem?_eq_getElem hlt, eq_of_beq hat]
      case h_2 => rfl

end WeightTable

/-! ### Calls -/

/-- What a session can be asked to do with its weights, by the answer it gives. -/
inductive WeightCall : Type → Type
  | parametrize (cat : Category) : WeightCall Unit
  | ensureParametrized (cat : Category) : WeightCall Unit
  | maybeMutate : WeightCall Unit
  | pinZero (cat : Category) (op : Opcode) : WeightCall Unit
  | prune (cat : Category) (op : Opcode) : WeightCall Unit
  | hasPruned (cat : Category) : WeightCall Bool
  | sample (cat : Category) : WeightCall (Option Opcode)

/-- An interval that steers the weights of statements has no number to draw. -/
def Config.Undrawable (c : Config) : Prop :=
  ∃ r ∈ c.intervals, ¬r.max ≤ r.min ∧ RandomSource.isDrawable r.min r.max = false

namespace WeightCall

variable [RandomSource ρ] {cat : Category} {op : Opcode} {s s' : State ρ}

/-- How a session does what it is asked to do. -/
def body : WeightCall α → Gen ρ α
  | parametrize cat => Gen.parametrize cat
  | ensureParametrized cat => Gen.ensureParametrized cat
  | maybeMutate => Gen.maybeMutate
  | pinZero cat op => Gen.pinZero cat op
  | prune cat op => Gen.prune cat op
  | hasPruned cat => (·.pruned.contains cat) <$> get
  | sample cat => Gen.sample? cat

/-- A session comes from one state to another by calls, whatever each of them ends in. -/
inductive Reaches (c : Config) (s : State ρ) : State ρ → Prop
  | refl : Reaches c s s
  | call {α : Type} {s' : State ρ} (h : Reaches c s s') (k : WeightCall α) :
      Reaches c s (k.body.run c s').2

theorem body_keeps (k : WeightCall α) : k.body.Keeps (ρ := ρ) .drawing := by
  cases k with
  | parametrize cat => exact Gen.parametrize_keeps cat
  | ensureParametrized cat => exact Gen.ensureParametrized_keeps cat
  | maybeMutate => exact Gen.maybeMutate_keeps
  | pinZero cat op => exact Gen.pinZero_keeps cat op
  | prune cat op => exact Gen.prune_keeps cat op
  | hasPruned cat => exact Gen.Keeps.map Gen.Keeps.get
  | sample cat => exact .of_aside (Gen.sample?_aside cat)

theorem body_revised (k : WeightCall α) (c : Config) (s : State ρ) :
    s.weights.Revised (k.body.run c s).2.weights := (body_keeps k c s).1.1.revised

theorem Reaches.revised (h : Reaches c s s') : s.weights.Revised s'.weights := by
  induction h with
  | refl => exact .refl
  | call _ k ih => exact ih.trans (body_revised k c _)

end WeightCall

namespace Gen

variable [RandomSource ρ] {s : State ρ} {cat : Category} {op : Opcode}

/-- Weights for statements come from numbers drawn from their intervals, one for each. -/
theorem statementWeights_ends (n : Nat) :
    Ends (statementWeights n) c s (fun w s' => w.length = n ∧ s'.weights = s.weights)
      fun e _ => e = .stopped (.fault .badRange) ∧ c.Undrawable := by
  have hparameter : ∀ {r : Interval}, r ∈ c.intervals → ∀ s' : State ρ, s'.weights = s.weights →
      Ends (parameter r) c s' (fun _ s'' => s''.weights = s.weights)
        fun e _ => e = .stopped (.fault .badRange) ∧ c.Undrawable := by
    intro r hr s' hs'
    unfold parameter
    split_ifs with hpoint hdrawable
    · exact .pure hs'
    · exact .draw hs'
    · exact .fault ⟨rfl, r, hr, hpoint, Bool.eq_false_iff.mpr hdrawable⟩
  refine .bind (.read ?_)
  split
  · exact .pure ⟨List.length_replicate, rfl⟩
  · rename_i h
    refine .bind ((hparameter (by simp [Config.intervals, h]) s rfl).mono ?_ fun _ _ he => he)
    intro mean s₁ h₁
    refine .bind ((hparameter (by simp [Config.intervals, h]) s₁ h₁).mono ?_ fun _ _ he => he)
    exact fun stdDev s₂ h₂ => .pure ⟨Weights.length_gaussian _ _ _, h₂⟩
  · rename_i h
    refine .bind ((hparameter (by simp [Config.intervals, h]) s rfl).mono ?_ fun _ _ he => he)
    intro alpha s₁ h₁
    refine .bind ((hparameter (by simp [Config.intervals, h]) s₁ h₁).mono ?_ fun _ _ he => he)
    exact fun beta s₂ h₂ => .pure ⟨Weights.length_betaBinomial _ _ _, h₂⟩

theorem parametrize_ends (cat : Category) : Ends (parametrize cat) c s
    (fun _ s' => ∃ weights, s.weights.install cat weights = .ok s'.weights)
    fun e _ => e = .stopped (.fault .badRange) ∧ cat = .statement ∧ c.Undrawable := by
  have hinstall : ∀ (base : List Float) (s' : State ρ), base.length = cat.members.length →
      s'.weights = s.weights → Ends (installWeights cat base) c s'
        (fun _ s'' => ∃ weights, s.weights.install cat weights = .ok s''.weights)
        fun e _ => e = .stopped (.fault .badRange) ∧ cat = .statement ∧ c.Undrawable := by
    intro base s' hbase hs'
    refine .bind (.read (.bind (.get ?_)))
    rw [hs', WeightTable.install, if_pos (by split_ifs <;> simp [WeightTable.applyPins, hbase])]
    exact .bind (.pure (.modify ⟨_, if_pos (by split_ifs <;> simp [WeightTable.applyPins, hbase])⟩))
  unfold parametrize
  split_ifs with hcat
  · refine .bind ((statementWeights_ends _).mono ?_ ?_)
    · rintro base s' ⟨hbase, hs'⟩
      exact hinstall base s' hbase hs'
    · rintro e _ ⟨rfl, hundrawable⟩
      exact ⟨rfl, hcat, hundrawable⟩
  · exact .bind (.pure (hinstall _ s List.length_replicate rfl))

/-- Weights that a category has stay as they are. -/
theorem ensureParametrized_ends (cat : Category) : Ends (ensureParametrized cat) c s
    (fun _ s' => s'.weights.isParametrized cat = true ∧
      (s.weights.isParametrized cat = true → s'.weights = s.weights) ∧
      ∀ cat' ≠ cat, s'.weights.weights? cat' = s.weights.weights? cat')
    fun e _ => e = .stopped (.fault .badRange) ∧ cat = .statement ∧
      s.weights.isParametrized cat = false ∧ c.Undrawable := by
  refine .bind (.get ?_)
  split
  · rename_i hparametrized
    exact .pure ⟨hparametrized, fun _ => rfl, fun _ _ => rfl⟩
  · rename_i hnot
    refine (parametrize_ends cat).mono ?_ ?_
    · rintro _ s' ⟨weights, hinstall⟩
      refine ⟨?_, fun h => absurd h hnot, fun cat' hcat' => ?_⟩
      · obtain ⟨-, hweights⟩ := WeightTable.weights?_install hinstall cat
        rw [if_pos rfl] at hweights
        exact Option.isSome_iff_exists.mpr ⟨_, hweights⟩
      · obtain ⟨-, hweights⟩ := WeightTable.weights?_install hinstall cat'
        rwa [if_neg hcat'.symm] at hweights
    · rintro e _ ⟨rfl, hcat, hundrawable⟩
      exact ⟨rfl, hcat, Bool.eq_false_iff.mpr hnot, hundrawable⟩

/-- A step pins a variant and touches nothing else. It takes weights to do so, and those of
statements cannot always be drawn. -/
def Pins (c : Config) (s : State ρ) (cat : Category) (op : Opcode) (x : Gen ρ Unit) : Prop :=
  Ends x c s
    (fun _ s' => s.weights.Touches cat op s'.weights ∧ op ∈ (s'.weights.row cat).pins ∧
      s'.weights.isParametrized cat = true)
    fun e _ => e = .stopped (.fault .badRange) ∧ cat = .statement ∧
      s.weights.isParametrized cat = false ∧ c.Undrawable

theorem pinZero_pins (hs : s.weights.Aligned) (cat : Category) (op : Opcode) :
    Pins c s cat op (pinZero cat op) := by
  have hkeeps := (ensureParametrized_keeps (ρ := ρ) cat).ends c s
  refine .bind (((ensureParametrized_ends cat).and hkeeps).mono ?_ fun _ _ he => he.1)
  rintro _ s' ⟨⟨hparametrized, hsame, hothers⟩, hevolves, -⟩
  have htouches : s'.weights.Touches cat op (s'.weights.pinZero cat op) :=
    (hs.revised hevolves.revised).touches_pinZero
  refine .modify ⟨?_, WeightTable.mem_pins_pinZero.mpr (.inr ⟨rfl, rfl⟩),
    WeightTable.isParametrized_pinZero.trans hparametrized⟩
  exact {
    others := fun cat' hcat' => (htouches.others cat' hcat').trans (hothers cat' hcat')
    aligned := htouches.aligned
    kept := fun w hw => htouches.kept w
      (hsame (Option.isSome_iff_exists.mpr ⟨w, hw⟩) ▸ hw) }

theorem prune_pins (hs : s.weights.Aligned) (cat : Category) (op : Opcode) :
    Pins c s cat op (prune cat op) := by
  have hpins : Pins c { s with pruned := if s.pruned.contains cat then s.pruned
      else cat :: s.pruned } cat op (pinZero cat op) := by
    refine pinZero_pins ?_ cat op
    exact hs
  exact .bind (.modify hpins)

/-- What is drawn has a weight. -/
theorem sample?_weighs [LawfulRandomSource ρ] {zeroed : List Opcode}
    (hs : s.weights.Zeroes cat zeroed) :
    Ends (sample? cat) c s (fun o _ => ∀ op, o = some op → op ∈ cat.members ∧ op ∉ zeroed)
      fun _ _ => True := by
  refine .bind (.get ?_)
  split
  · exact .pure nofun
  · rename_i weights hweights
    split
    case isTrue hchoosable =>
      split
      · refine .bind (.draw (.pure fun op hop => ?_))
        obtain ⟨base, pins, hpins, rfl⟩ := hs weights hweights
        obtain ⟨w, hw, hne⟩ := LawfulRandomSource.weighted_ne_zero _ s.source hchoosable
        obtain ⟨op', hop', hmem, hnot⟩ := WeightTable.exists_of_applyPins_ne_zero hw hne
        obtain rfl : op' = op := Option.some.inj (hop'.symm.trans hop)
        exact ⟨hmem, fun hzero => hnot (hpins hzero)⟩
      · exact .fault trivial
    case isFalse => exact .pure nofun

/-- What is drawn has a weight, so it is not pinned. -/
theorem sample?_unpinned [LawfulRandomSource ρ] (hs : s.weights.Pinned) :
    Ends (sample? cat) c s
      (fun o _ => ∀ op, o = some op → op ∈ cat.members ∧ op ∉ (s.weights.row cat).pins)
      fun _ _ => True :=
  sample?_weighs (hs.zeroes cat)

end Gen

/-! ### Pins for good -/

/-- A variant that was pinned weighs nothing from then on and is not drawn any more, whatever
a session is asked to do with its weights, and so it is in a table by itself. The pin leaves
all other weights alone; it is not set only where weights of statements had to be drawn
first and could not. -/
theorem pinned_for_good [RandomSource ρ] [LawfulRandomSource ρ] (c : Config) (cat : Category)
    (op : Opcode) (hmem : op ∈ cat.members) :
    (∀ (source : ρ) (s : State ρ), WeightCall.Reaches c (.start source) s →
      ∀ pin ∈ [WeightCall.pinZero cat op, .prune cat op],
        (∃ s₁, pin.body.run c s = (.ok (), s₁) ∧ s.weights.Touches cat op s₁.weights ∧
          ∀ s', WeightCall.Reaches c s₁ s' → s'.weights.weight? cat op = some 0.0 ∧
            ∀ s'', (Gen.sample? cat).run c s' ≠ (.ok (some op), s'')) ∨
        (pin.body.run c s).1 = .error (.stopped (.fault .badRange)) ∧ cat = .statement ∧
          s.weights.isParametrized cat = false ∧ c.Undrawable) ∧
    ∀ t, WeightTable.Revised {} t → t.Touches cat op (t.pinZero cat op) ∧
      ∀ t', (t.pinZero cat op).Revised t' →
        t'.weight? cat op = (if t'.isParametrized cat then some 0.0 else none) ∧
        ∀ s s' : State ρ, s.weights = t' → (Gen.sample? cat).run c s ≠ (.ok (some op), s') := by
  -- a pin that is there stays, with weights or without
  have hlater : ∀ t t' : WeightTable, WeightTable.Revised {} t → t.Revised t' →
      op ∈ (t.row cat).pins →
      t'.weight? cat op = (if t'.isParametrized cat then some 0.0 else none) ∧
        ∀ s s' : State ρ, s.weights = t' → (Gen.sample? cat).run c s ≠ (.ok (some op), s') := by
    intro t t' ht hlater hop
    have hpinned : t'.Pinned := WeightTable.pinned_empty.revised (ht.trans hlater)
    have hop' : op ∈ (t'.row cat).pins := hlater.grows.pins cat op hop
    refine ⟨hpinned.weight?_eq (WeightTable.aligned_empty.revised (ht.trans hlater)) hmem hop', ?_⟩
    rintro s s' rfl hrun
    exact ((Gen.sample?_unpinned hpinned).of_run_ok hrun op rfl).2 hop'
  refine ⟨fun source s hs pin hpin => ?_, fun t ht => ⟨?_, fun t' ht' => ?_⟩⟩
  · have hrevised : WeightTable.Revised {} s.weights := hs.revised
    have haligned : s.weights.Aligned := WeightTable.aligned_empty.revised hrevised
    have hpins : Gen.Pins c s cat op pin.body := by
      rcases List.mem_pair.mp hpin with rfl | rfl
      · exact Gen.pinZero_pins haligned cat op
      · exact Gen.prune_pins haligned cat op
    rcases hrun : pin.body.run c s with ⟨e | ⟨⟩, s₁⟩
    · obtain ⟨rfl, hrest⟩ := hpins.of_run_error hrun
      exact .inr ⟨rfl, hrest⟩
    · obtain ⟨htouches, hop, hparametrized⟩ := hpins.of_run_ok hrun
      refine .inl ⟨s₁, rfl, htouches, fun s' hs' => ?_⟩
      have hrevised₁ : s.weights.Revised s₁.weights := by
        have h := WeightCall.body_revised pin c s
        rwa [hrun] at h
      obtain ⟨hweight, hsample⟩ := hlater _ _ (hrevised.trans hrevised₁) hs'.revised hop
      rw [if_pos (hs'.revised.grows.parametrized cat hparametrized)] at hweight
      exact ⟨hweight, fun s'' => hsample s' s'' rfl⟩
  · exact (WeightTable.aligned_empty.revised ht).touches_pinZero
  · exact hlater _ _ (ht.pinZero cat op) ht' (WeightTable.mem_pins_pinZero.mpr (.inr ⟨rfl, rfl⟩))

/-- Equal weights, drawn anew before each statement. -/
def Config.restless : Config where
  mutationProbability := 1.0
  weighting := .uniform

/-- Additions are pinned before there are weights, and the weights drawn after that have a
zero for them. -/
theorem pinned_for_good_restless : Opcode.iAdd ∈ Category.statement.members ∧
    (∃ s₁ s₂ : State Script,
      (WeightCall.prune .statement .iAdd).body.run .restless (.start ⟨[1]⟩) = (.ok (), s₁) ∧
      WeightCall.maybeMutate.body.run .restless s₁ = (.ok (), s₂) ∧
      s₂.weights.weight? .statement .iAdd = some 0.0 ∧
      ∀ s', (Gen.sample? .statement).run .restless s₂ ≠ (.ok (some .iAdd), s')) ∧
    ∃ t, (({} : WeightTable).pinZero .statement .iAdd).install .statement
        (Weights.uniform Category.statement.members.length) = .ok t ∧
      t.weight? .statement .iAdd = some 0.0 := by
  have hmem : Opcode.iAdd ∈ Category.statement.members := by decide
  have hgood := pinned_for_good (ρ := Script) .restless .statement .iAdd hmem
  refine ⟨hmem, ?_, ?_⟩
  · rcases hgood.1 ⟨[1]⟩ _ .refl (.prune .statement .iAdd) (by simp) with
      ⟨s₁, hrun, -, hlater⟩ | ⟨hfault, -⟩
    · obtain ⟨hweight, hsample⟩ := hlater _ (.call .refl .maybeMutate)
      obtain rfl : s₁ = _ := (congrArg Prod.snd hrun).symm
      exact ⟨_, _, hrun, rfl, hweight, hsample⟩
    · cases hfault
  · obtain ⟨-, hlater⟩ := hgood.2 {} .refl
    have hinstall : (({} : WeightTable).pinZero .statement .iAdd).install .statement
        (Weights.uniform Category.statement.members.length) = .ok _ := rfl
    exact ⟨_, hinstall, (hlater _ (.install .refl .statement _ hinstall)).1⟩

end ShaderGen
