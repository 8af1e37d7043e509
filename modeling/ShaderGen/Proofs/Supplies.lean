import ShaderGen.Proofs.ProgressTables
import ShaderGen.Proofs.Search

/-!
Steps that cannot fail. Equal weights, which those of any category but that of statements
are, can be put in place and drawn with whatever else the configuration says. What is picked
from a list that is not empty is picked, so scalars, vectors and matrices can always be made,
and so can a constant of a number.
-/

namespace ShaderGen

theorem Ty.isNumericScalar_of_mem {ty : Ty} (h : ty.opcode ∈ Category.numericType.members) :
    ty.isNumericScalar = true := by
  cases ty <;> first | rfl | (revert h; simp [Ty.opcode, Category.members])

variable {ρ α β : Type} [RandomSource ρ] {c : Config} {s s' s'' : State ρ} {cat : Category}
  {op : Opcode}

/-! ### Weights -/

/-- The weights of a category are equal. Those of statements are if the configuration says
so. -/
def Config.Even (c : Config) (cat : Category) : Prop := cat = .statement → c.weighting = .uniform

theorem Config.Even.of_ne (h : cat ≠ .statement) : c.Even cat := fun heq => absurd heq h

/-- Two sessions differ in their weights alone, and those of the second one are weights of
the configuration with no pins but the old ones and some new ones. -/
structure State.Repins (c : Config) (new : Category → Opcode → Prop) (s s' : State ρ) : Prop where
  rest : s' = { s with weights := s'.weights }
  drawn : s'.weights.Drawn ρ c s.pruned
  grows : s.weights.Grows s'.weights
  pins : ∀ cat, ∀ op ∈ (s'.weights.row cat).pins, op ∈ (s.weights.row cat).pins ∨ new cat op

namespace State.Repins

variable {new new' : Category → Opcode → Prop}

theorem refl (hd : s.weights.Drawn ρ c s.pruned) : s.Repins c new s :=
  ⟨rfl, hd, .refl _, fun _ _ h => .inl h⟩

theorem trans (h : s.Repins c new s') (h' : s'.Repins c new s'') : s.Repins c new s'' where
  rest := by rw [h'.rest, h.rest]
  drawn := by
    have hpruned : s'.pruned = s.pruned := by rw [h.rest]
    exact hpruned ▸ h'.drawn
  grows := h.grows.trans h'.grows
  pins cat op hop := (h'.pins cat op hop).elim (h.pins cat op) .inr

theorem mono (h : s.Repins c new s') (hnew : ∀ cat op, new cat op → new' cat op) :
    s.Repins c new' s' :=
  ⟨h.rest, h.drawn, h.grows, fun cat op hop => (h.pins cat op hop).imp_right (hnew cat op)⟩

/-- The weights may be drawn with again. -/
theorem drawn' (h : s.Repins c new s') : s'.weights.Drawn ρ c s'.pruned := by
  have hpruned : s'.pruned = s.pruned := by rw [h.rest]
  exact hpruned ▸ h.drawn

end State.Repins

namespace Gen

/-- A step ends in a value. -/
abbrev Surely (c : Config) (s : State ρ) (x : Gen ρ α) (post : α → State ρ → Prop) : Prop :=
  Ends x c s post fun _ _ => False

omit [RandomSource ρ] in
theorem Surely.bind {x : Gen ρ α} {f : α → Gen ρ β} {post : α → State ρ → Prop}
    {post' : β → State ρ → Prop} (hx : Surely c s x post)
    (hf : ∀ a s', post a s' → Surely c s' (f a) post') : Surely c s (x >>= f) post' :=
  Ends.bind (hx.mono hf fun _ _ h => h)

omit [RandomSource ρ] in
theorem Surely.exists_run {x : Gen ρ α} {post : α → State ρ → Prop} (h : Surely c s x post) :
    ∃ a s', x.run c s = (.ok a, s') ∧ post a s' := by
  rcases hrun : x.run c s with ⟨e | a, s'⟩
  · exact (h.of_run_error hrun).elim
  · exact ⟨a, s', rfl, h.of_run_ok hrun⟩

theorem install_surely (hd : s.weights.Drawn ρ c s.pruned) {base : List Float}
    (hbase : c.WeighsFor ρ cat base) : Surely c s (installWeights cat base) fun _ s' =>
      s.Repins c (fun _ _ => False) s' ∧ s'.weights.isParametrized cat = true := by
  obtain ⟨t, hinstall, hdrawn, hgrows, hparametrized⟩ := hd.exists_install hbase
  refine Ends.bind (.read (Ends.bind (.get ?_)))
  rw [hbase.applyPins_withheld, hinstall]
  refine ⟨⟨rfl, hdrawn, hgrows, fun cat' op hop => .inl ?_⟩, hparametrized⟩
  exact WeightTable.pins_install hinstall cat' ▸ hop

theorem parametrize_surely (heven : c.Even cat) (hd : s.weights.Drawn ρ c s.pruned) :
    Surely c s (parametrize cat) fun _ s' =>
      s.Repins c (fun _ _ => False) s' ∧ s'.weights.isParametrized cat = true := by
  unfold parametrize
  split_ifs with hcat
  · subst hcat
    unfold statementWeights
    refine Ends.bind (Ends.bind (.read ?_))
    rw [heven rfl]
    have hbase : c.WeighsFor ρ .statement (Weights.uniform Category.statement.members.length) := by
      rw [Config.WeighsFor, if_pos rfl]
      exact .uniform (heven rfl)
    exact .pure (install_surely hd hbase)
  · exact install_surely hd (by rw [Config.WeighsFor, if_neg hcat])

theorem ensureParametrized_surely (heven : c.Even cat) (hd : s.weights.Drawn ρ c s.pruned) :
    Surely c s (ensureParametrized cat) fun _ s' =>
      s.Repins c (fun _ _ => False) s' ∧ s'.weights.isParametrized cat = true := by
  refine Ends.bind (.get ?_)
  split
  · exact .pure ⟨.refl hd, ‹_›⟩
  · exact parametrize_surely heven hd

theorem pinZero_surely (heven : c.Even cat) (hd : s.weights.Drawn ρ c s.pruned)
    (hop : cat ∈ s.pruned ∨ cat.isType = true ∧ (op ∈ c.excluded ∨ op = .typeFunction)) :
    Surely c s (pinZero cat op) fun _ s' =>
      s.Repins c (fun cat' op' => cat' = cat ∧ op' = op) s' ∧
        s'.weights.isParametrized cat = true ∧ op ∈ (s'.weights.row cat).pins := by
  refine (ensureParametrized_surely heven hd).bind ?_
  rintro _ s₁ ⟨h₁, hparametrized⟩
  have hpruned : s₁.pruned = s.pruned := by rw [h₁.rest]
  rw [← hpruned] at hop
  have h₂ : s₁.Repins c (fun cat' op' => cat' = cat ∧ op' = op)
      { s₁ with weights := s₁.weights.pinZero cat op } := by
    refine ⟨rfl, h₁.drawn'.pinZero hop, WeightTable.grows_pinZero, fun cat' op' hop' => ?_⟩
    exact (WeightTable.mem_pins_pinZero.mp hop').imp_right fun h => ⟨h.1.symm, h.2⟩
  exact .modify ⟨(h₁.mono fun _ _ h => h.elim).trans h₂,
    h₂.grows.parametrized _ hparametrized, WeightTable.mem_pins_pinZero.mpr (.inr ⟨rfl, rfl⟩)⟩

/-- A variant is pinned, and its category is one with variants that were infeasible. -/
theorem prune_surely (heven : c.Even cat) (hd : s.weights.Drawn ρ c s.pruned) :
    Surely c s (prune cat op) fun _ s' => ∃ pruned,
      (∀ cat', cat' ∈ pruned ↔ cat' = cat ∨ cat' ∈ s.pruned) ∧ s.weights.Drawn ρ c pruned ∧
        State.Repins c (fun cat' op' => cat' = cat ∧ op' = op) { s with pruned } s' ∧
          s'.weights.isParametrized cat = true := by
  refine Ends.bind (.modify ?_)
  generalize hpruned : (if s.pruned.contains cat then s.pruned else cat :: s.pruned) = pruned
  have hmem : ∀ cat', cat' ∈ pruned ↔ cat' = cat ∨ cat' ∈ s.pruned := by
    intro cat'
    rw [← hpruned]
    split_ifs with hold
    · exact ⟨.inr, Or.rec (fun h => h ▸ List.contains_iff_mem.mp hold) id⟩
    · exact List.mem_cons
  have hdrawn : s.weights.Drawn ρ c pruned :=
    ⟨hd.weights, fun cat' hcat => hd.pins cat' fun h => hcat ((hmem cat').mpr (.inr h))⟩
  refine (pinZero_surely heven hdrawn (.inl ((hmem cat).mpr (.inl rfl)))).mono ?_ fun _ _ h => h
  exact fun _ s' h => ⟨pruned, hmem, hdrawn, h.1, h.2.1⟩

/-- The excluded types of a category are pinned. -/
theorem applyExclusions_surely (heven : c.Even cat) (hd : s.weights.Drawn ρ c s.pruned) :
    Surely c s (applyExclusions cat) fun _ s' =>
      s.Repins c (fun cat' op' => cat' = cat ∧ cat.isType = true ∧ op' ∈ c.excluded) s' ∧
        (cat.isType = true → ∀ op ∈ c.excluded, op ∈ cat.members →
          op ∈ (s'.weights.row cat).pins) := by
  unfold applyExclusions
  split_ifs with htype
  · refine Ends.bind (.read ?_)
    suffices hall : ∀ ops : List Opcode, (∀ op ∈ ops, op ∈ c.excluded) → ∀ s : State ρ,
        s.weights.Drawn ρ c s.pruned → Surely c s (ops.forM (pinZero cat)) fun _ s' =>
          s.Repins c (fun cat' op' => cat' = cat ∧ cat.isType = true ∧ op' ∈ c.excluded) s' ∧
            ∀ op ∈ ops, op ∈ (s'.weights.row cat).pins by
      refine (hall _ (fun op hop => List.mem_of_mem_filter hop) s hd).mono ?_ fun _ _ h => h
      rintro _ s' ⟨h, hpins⟩
      exact ⟨h, fun _ op hop hmem =>
        hpins op (List.mem_filter.mpr ⟨hop, List.contains_iff_mem.mpr hmem⟩)⟩
    intro ops hops
    induction ops with
    | nil => exact fun s hd => .pure ⟨.refl hd, nofun⟩
    | cons op ops ih =>
      intro s hd
      have hop := hops op List.mem_cons_self
      refine (pinZero_surely heven hd (.inr ⟨htype, .inl hop⟩)).bind ?_
      rintro _ s₁ ⟨h₁, -, hpin⟩
      refine (ih (fun op hop => hops op (List.mem_cons_of_mem _ hop)) s₁ h₁.drawn').mono ?_
        fun _ _ h => h
      rintro _ s₂ ⟨h₂, hpins⟩
      refine ⟨(h₁.mono ?_).trans h₂, ?_⟩
      · rintro _ _ ⟨rfl, rfl⟩
        exact ⟨rfl, htype, hop⟩
      · rintro op' (_ | ⟨_, hop'⟩)
        · exact h₂.grows.pins cat _ hpin
        · exact hpins op' hop'
  · exact .pure ⟨.refl hd, fun h => absurd h htype⟩

/-- Where there is a weight to draw, a variant is drawn that is not pinned. -/
theorem sample?_draws [LawfulRandomSource ρ] (hd : s.weights.Drawn ρ c s.pruned)
    {weights : List Float} (hweights : s.weights.weights? cat = some weights)
    (hchoosable : RandomSource.choosable weights = true)
    (hfinite : (RandomSource.total weights).isFinite = true) :
    Surely c s (sample? cat) fun o s' => (∃ source, s' = { s with source }) ∧
      ∃ op, o = some op ∧ op ∈ cat.members ∧ op ∉ (s.weights.row cat).pins := by
  refine Ends.bind (.get ?_)
  rw [hweights]
  dsimp only
  rw [if_pos hchoosable, if_pos hfinite]
  refine Ends.bind (.draw (.pure ⟨⟨_, rfl⟩, ?_⟩))
  obtain ⟨w, hk, hw⟩ := LawfulRandomSource.weighted_ne_zero weights s.source hchoosable
  obtain ⟨op, hop, hmem, hpins⟩ := hd.unpinned hweights hk hw
  exact ⟨op, hop, hmem, hpins⟩

/-- As long as some variant is not pinned, one is drawn that is not. -/
theorem sample?_surely [LawfulRandomSource ρ] (hcat : cat ≠ .statement)
    (hd : s.weights.Drawn ρ c s.pruned) (hparametrized : s.weights.isParametrized cat = true)
    (hmem : op ∈ cat.members) (hop : op ∉ (s.weights.row cat).pins) :
    Surely c s (sample? cat) fun o s' => (∃ source, s' = { s with source }) ∧
      ∃ op, o = some op ∧ op ∈ cat.members ∧ op ∉ (s.weights.row cat).pins := by
  obtain ⟨weights, hweights⟩ := Option.isSome_iff_exists.mp hparametrized
  change s.weights.weights? cat = some weights at hweights
  exact sample?_draws hd hweights (hd.choosable_of_not_mem hcat hmem hop hweights)
    (hd.total_isFinite hcat hweights)

/-! ### Calm steps -/

/-- A calm and quiet step that ends in a value. -/
def Supplies (c : Config) (s : State ρ) (x : Gen ρ α) (post : α → State ρ → Prop) : Prop :=
  Surely c s x fun a s' => Still 0 s s' ∧ Quiet c s s' ∧ post a s'

omit [RandomSource ρ] in
theorem Supplies.of {x : Gen ρ α} {post : α → State ρ → Prop} (hquiet : Quietly c s x post)
    (hcalm : Calmly c s x) (hfeasible : Feasible c s x) : Supplies c s x post := by
  refine Ends.mono (hquiet.and (hcalm.and hfeasible)) (fun a s' h => ⟨h.2.1, h.1⟩) ?_
  rintro e s' ⟨-, hcalm, hne⟩
  exact hne (Calmly.eq_infeasible hcalm)

omit [RandomSource ρ] in
theorem Supplies.surely {x : Gen ρ α} {post : α → State ρ → Prop} (h : Supplies c s x post) :
    Surely c s x fun a s' => Still 0 s s' ∧ Quiet c s s' ∧ post a s' := h

omit [RandomSource ρ] in
theorem Supplies.bind {x : Gen ρ α} {f : α → Gen ρ β} {post : α → State ρ → Prop}
    {post' : β → State ρ → Prop} (hx : Supplies c s x post)
    (hf : ∀ a s', Quiet c s s' → post a s' → Supplies c s' (f a) post') :
    Supplies c s (x >>= f) post' := by
  refine Surely.bind hx ?_
  rintro a s₁ ⟨h₁, q₁, ha⟩
  exact Ends.mono (hf a s₁ q₁ ha) (fun _ _ h => ⟨h₁.trans h.1, q₁.trans h.2.1, h.2.2⟩)
    fun _ _ h => h

omit [RandomSource ρ] in
theorem Supplies.mono {x : Gen ρ α} {post post' : α → State ρ → Prop} (h : Supplies c s x post)
    (hpost : ∀ a s', Quiet c s s' → post a s' → post' a s') : Supplies c s x post' :=
  Ends.mono h (fun a s' h => ⟨h.1, h.2.1, hpost a s' h.2.1 h.2.2⟩) fun _ _ h => h

section Feasible

omit [RandomSource ρ]

theorem pure_feasible (a : α) : Feasible c s (pure a : Gen ρ α) := Ends.pure trivial

theorem draw_feasible (f : ρ → α × ρ) : Feasible c s (draw f) := Ends.draw trivial

theorem build_feasible (f : Module → α × Module) : Feasible c s (build f : Gen ρ α) :=
  Ends.build trivial

theorem internType_feasible (t : Ty) : Feasible c s (internType t : Gen ρ EntryId) :=
  build_feasible _

theorem checked_feasible (r : Except Fault α) : Feasible c s (checked r : Gen ρ α) :=
  Ends.checked (fun _ _ => trivial) fun _ => nofun

end Feasible

theorem chance_feasible (p : Float) : Feasible c s (chance p : Gen ρ Bool) := by
  unfold chance
  split_ifs
  · exact draw_feasible _
  · exact draw_feasible _
  · exact draw_feasible _
  · exact fun h => nomatch h

theorem range_feasible (lo hi : Nat) : Feasible c s (range lo hi : Gen ρ Nat) :=
  (draw_feasible _).bind fun _ _ => pure_feasible _

omit [RandomSource ρ] in
theorem get_supplies (hs : s.Sound c) :
    Supplies c s MonadState.get fun s₁ s' => s₁ = s ∧ s' = s :=
  .of (Quietly.get hs) Calmly.get (Ends.get trivial)

omit [RandomSource ρ] in
theorem internType_supplies (hs : s.Sound c) {t : Ty} (ht : t.WellFormed c s.code.table) :
    Supplies c s (internType t) fun id s' => s'.code.table.IsType id t :=
  .of (Quietly.internType hs t ht) (Calmly.internType t) (internType_feasible t)

omit [RandomSource ρ] in
theorem indexConstant_feasible (n : Nat) : Feasible c s (indexConstant n : Gen ρ EntryId) :=
  (internType_feasible _).bind fun _ _ => build_feasible _

omit [RandomSource ρ] in
theorem indexConstant_supplies (hs : s.Sound c) {n : Nat} (hn : n < 2 ^ 32) :
    Supplies c s (indexConstant n) fun id s' => s'.code.table.IsIndex id n :=
  .of (indexConstant_quietly hs hn) (indexConstant_calmly n) (indexConstant_feasible n)

theorem intValue_feasible (width : Nat) (signed : Bool) :
    Feasible c s (intValue width signed : Gen ρ Literal) := by
  refine (checked_feasible _).bind fun _ _ => (chance_feasible _).bind fun _ _ => ?_
  split
  · exact (draw_feasible _).bind fun _ _ => pure_feasible _
  · exact (draw_feasible _).bind fun _ _ => pure_feasible _

theorem floatValue_feasible (width : Nat) : Feasible c s (floatValue width : Gen ρ Literal) := by
  unfold floatValue
  split_ifs <;> exact (draw_feasible _).bind fun _ _ => pure_feasible _

/-- A number has a constant. -/
theorem constantOf_feasible {ty : EntryId} {t : Ty} (hty : s.code.table.IsType ty t)
    (ht : t.isNumericScalar = true) : Feasible c s (constantOf ty : Gen ρ EntryId) := by
  refine Ends.bind (.get (Ends.bind (.query (fun t' ht' => ?_) fun _ => nofun)))
  obtain rfl := hty.unique (Module.typeAt_eq_ok.mp ht')
  cases t with
  | int => exact (intValue_feasible _ _).bind fun _ _ => build_feasible _
  | float => exact (floatValue_feasible _).bind fun _ _ => build_feasible _
  | _ => cases ht

section Bounded

variable [BoundedRandomSource ρ]

theorem pick_feasible {items : List α} (h : items ≠ []) :
    Feasible c s (pick items : Gen ρ α) :=
  (pick_ends items).mono (fun _ _ _ => trivial) fun _ _ he => absurd he.2 h

theorem intWidth_feasible : Feasible c s (intWidth : Gen ρ Nat) :=
  Ends.bind (.read (pick_feasible (List.ne_nil_of_mem c.mem_intWidths_32)))

theorem floatWidth_feasible : Feasible c s (floatWidth : Gen ρ Nat) :=
  Ends.bind (.read (pick_feasible (List.ne_nil_of_mem c.mem_floatWidths_32)))

theorem matrixType_feasible : Feasible c s (matrixType : Gen ρ Ty) :=
  floatWidth_feasible.bind fun _ _ => (internType_feasible _).bind fun _ _ =>
    (range_feasible _ _).bind fun _ _ => (internType_feasible _).bind fun _ _ =>
      (range_feasible _ _).bind fun _ _ => pure_feasible _

theorem range_supplies (hs : s.Sound c) {lo hi : Nat} (h : lo ≤ hi) :
    Supplies c s (range lo hi) fun k _ => lo ≤ k ∧ k ≤ hi :=
  .of (range_quietly hs h) (range_calmly lo hi) (range_feasible lo hi)

omit [RandomSource ρ] [BoundedRandomSource ρ] in
theorem functionsFull_supplies (hs : s.Sound c) : Supplies c s functionsFull fun full s' =>
    s' = s ∧ full = decide (c.maxFunctions ≤ s.functionTypes.size) :=
  .of (functionsFull_quietly hs)
    (Calmly.read.andThen fun _ _ _ => Calmly.get.andThen fun _ _ _ => Settles.pure)
    (Ends.bind (.read (Ends.bind (.get (.pure trivial)))))

theorem constantOf_supplies (hs : s.Sound c) {ty : EntryId} {t : Ty}
    (hty : s.code.table.IsType ty t) (ht : t.isNumericScalar = true) :
    Supplies c s (constantOf ty) fun id s' => s'.code.table.HasConst id ty :=
  .of (constantOf_quietly hs ty) (constantOf_calmly hs ⟨t, hty⟩) (constantOf_feasible hty ht)

/-- The types that have no parts can always be made. -/
theorem typeVariant_supplies {nested : Category → Gen ρ EntryId} (hn : Nests c nested)
    (hs : s.Sound c)
    (hop : op ∈ [Opcode.typeBool, .typeInt, .typeFloat, .typeMatrix]) :
    Supplies c s (typeVariant nested op) fun id s' =>
      ∃ ty, s'.code.table.IsType id ty ∧ ty.opcode = op := by
  have hfunction : op ≠ .typeFunction := by
    rintro rfl
    revert hop
    decide
  have hquiet := typeVariant_quietly hn hs hfunction
  simp only [List.mem_cons, List.not_mem_nil, or_false] at hop
  rcases hop with rfl | rfl | rfl | rfl
  · exact .of hquiet (Calmly.internType _) (internType_feasible .bool)
  · refine .of hquiet ?_ ?_
    · exact intWidth_calmly.andThen fun _ _ _ =>
        (chance_calmly isProbability_half).andThen fun _ _ _ => Calmly.internType _
    · exact intWidth_feasible.bind fun _ _ => (chance_feasible _).bind fun _ _ =>
        internType_feasible _
  · exact .of hquiet (floatWidth_calmly.andThen fun _ _ _ => Calmly.internType _)
      (floatWidth_feasible.bind fun _ _ => internType_feasible _)
  · exact .of hquiet (matrixType_calmly.andThen fun _ _ _ => Calmly.internType _)
      (matrixType_feasible.bind fun _ _ => internType_feasible _)

end Bounded

end Gen

end ShaderGen
