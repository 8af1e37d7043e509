import ShaderGen.Proofs.ProgressBlocks
import ShaderGen.Proofs.Simulation
import ShaderGen.Proofs.Supplies
import ShaderGen.Random.Certain

/-!
Statements never run out either, as long as there is a constant. A constant can be copied in
every scope, so copies are never infeasible, and nothing but what was infeasible is pinned
among statements. Where their weights are equal, a statement can be drawn that is not pinned,
and weights that are drawn anew leave the pins as they are.
-/

namespace ShaderGen

variable {ρ α : Type} [RandomSource ρ] {c : Config} {s s' s'' : State ρ} {scope : ScopeId}
  {op : Opcode}

theorem Config.WeighsFor.eq_uniform {cat : Category} {base : List Float}
    (h : c.WeighsFor ρ cat base) (heven : c.Even cat) :
    base = Weights.uniform cat.members.length := by
  unfold WeighsFor at h
  split_ifs at h with hcat
  · subst hcat
    cases h with
    | uniform => rfl
    | gaussian h => cases (heven rfl).symm.trans h
    | betaBinomial h => cases (heven rfl).symm.trans h
  · exact h

/-- A session in which statements can be drawn: there is a constant to copy, and copies are
not pinned. The count of statements fits its word. -/
structure State.Fertile (c : Config) (s : State ρ) : Prop where
  sound : s.Sound c
  ready : s.Ready c
  fits : s.statements < 2 ^ 64
  constant : ∃ id ty, s.code.table.HasConst id ty
  copies : Opcode.copyObject ∉ (s.weights.row .statement).pins

/-- A fertile session follows another one and has the scopes and the statements of it. -/
structure Thrives (c : Config) (s s' : State ρ) : Prop where
  fertile : s'.Fertile c
  scopes : s.scopes ≤ s'.scopes
  statements : s'.statements = s.statements

theorem Thrives.refl (hs : s.Fertile c) : Thrives c s s := ⟨hs, le_refl _, rfl⟩

theorem Thrives.trans (h : Thrives c s s') (h' : Thrives c s' s'') : Thrives c s s'' :=
  ⟨h'.fertile, h.scopes.trans h'.scopes, h'.statements.trans h.statements⟩

/-- A fertile session follows another one and has a scope. -/
structure Hosts (c : Config) (s : State ρ) (scope : ScopeId) (s' : State ρ) : Prop where
  fertile : s'.Fertile c
  present : s'.HasScope scope
  table : s.code.table ≤ s'.code.table

theorem Hosts.refl (hs : s.Fertile c) (hscope : s.HasScope scope) : Hosts c s scope s :=
  ⟨hs, hscope, le_refl _⟩

theorem Hosts.after {child : ScopeId} (h : Hosts c s scope s') (h' : Hosts c s' child s'') :
    Hosts c s child s'' := ⟨h'.fertile, h'.present, h.table.trans h'.table⟩

namespace State.Fertile

/-- Where no weight changes, no constant is lost and nothing is counted, a session stays
fertile. -/
theorem later (hs : s.Fertile c) (hsound : s'.Sound c) (hready : s'.Ready c)
    (htable : s.code.table ≤ s'.code.table) (hweights : s'.weights = s.weights)
    (hstatements : s'.statements = s.statements) : s'.Fertile c where
  sound := hsound
  ready := hready
  fits := hstatements ▸ hs.fits
  constant := by
    obtain ⟨id, ty, hid⟩ := hs.constant
    exact ⟨id, ty, hid.mono htable⟩
  copies := hweights ▸ hs.copies

theorem still (hs : s.Fertile c) (h : Still 0 s s') (hsound : s'.Sound c)
    (htable : s.code.table ≤ s'.code.table) : Thrives c s s' :=
  ⟨hs.later hsound (h.ready hs.ready) htable h.weights h.statements, by rw [h.scopes],
    h.statements⟩

theorem quiet (hs : s.Fertile c) (h : Still 0 s s') (q : Quiet c s s') : Thrives c s s' :=
  hs.still h q.sound q.table_le

/-- A calm step that gives no value is infeasible. -/
theorem infeasible {e : Ending} (hs : s.Fertile c)
    (h : e = .infeasible ∧ Still 0 s s' ∨
      e = .stopped (.fault .overflow) ∧ 0 < 0 ∧ 2 ^ 32 ≤ s.nextSerial + 0)
    (hhalts : Halts c s e s') : e = .infeasible ∧ Thrives c s s' := by
  obtain ⟨rfl, hstill⟩ | ⟨-, hlt, -⟩ := h
  · exact ⟨rfl, hs.quiet hstill hhalts⟩
  · exact absurd hlt (Nat.lt_irrefl 0)

/-- New pins do not matter, but for that of copies. -/
theorem repins (hs : s.Fertile c) {new : Category → Opcode → Prop} (h : s.Repins c new s')
    (hnew : ¬new .statement .copyObject) : Thrives c s s' := by
  obtain ⟨hrest, hdrawn, -, hpins⟩ := h
  rw [hrest]
  have q : Quiet c s { s with weights := s'.weights } := .of_eq hs.sound rfl rfl rfl
  exact ⟨⟨q.sound, ⟨hdrawn, hs.ready.known⟩, hs.fits, hs.constant,
    fun h => (hpins _ _ h).elim hs.copies hnew⟩, le_refl _, rfl⟩

end State.Fertile

namespace Gen

/-! ### Copies -/

section Bounded

variable [BoundedRandomSource ρ]

/-- A search for something to copy finds the constants. -/
theorem copied_feasible (hs : s.Fertile c) (hscope : s.HasScope scope) :
    Feasible c s (operand scope Predicate.data) := by
  have hshows := hs.ready.shows hs.sound hscope
  have htotal : Predicate.data.Total s.code := Predicate.total_ofTy Ty.isData
  obtain ⟨as, ha⟩ := State.statementsWhere_answers hs.sound hshows htotal
  have hb : s.constantsWhere Predicate.data = _ := State.constantsWhere_eq fun x hx =>
    htotal ((Table.mem_constants.mp hx).holdsType hs.sound.table)
  obtain ⟨id, ty, hid⟩ := hs.constant
  have hdata := Predicate.ofTy_eq_true.mpr (hid.isData hs.sound.table)
  obtain ⟨k, hk, rfl⟩ := hid
  have hmem : Value.entry id ∈ s.passing Predicate.data
      (s.code.table.constants.map fun x => (.entry x.1, x.2.ty)) :=
    State.mem_passing.mpr ⟨k.ty, List.mem_map_of_mem (Table.mem_constants.mpr hk), hdata⟩
  refine Ends.bind (Ends.ask (fun vs hvs => pick_feasible ?_) fun _ => nofun)
  simp only [State.operandsWhere, ha, hb, bind_eq_ok, pure_eq_ok, Except.ok.injEq,
    exists_eq_left'] at hvs
  rw [← hvs]
  exact List.ne_nil_of_mem (List.mem_append_right as hmem)

/-- There is always something to copy, so copies are not infeasible. -/
theorem copyObject_feasible (hs : s.Fertile c) (hscope : s.HasScope scope)
    (arm : Option (ScopeId → Gen ρ Block)) :
    Feasible c s (variantWith arm scope .copyObject) := by
  change Feasible c s (unary scope .copyObject Predicate.data)
  refine Ends.bind (Ends.bind (Ends.mono ((copied_feasible hs hscope).and
    (operand_quietly hs.sound scope _)) ?_ fun _ _ he => he.1))
  rintro v s₁ ⟨-, -, ty, hty, -, -⟩
  refine Ends.bind (Ends.bind (Ends.query (fun o ho => ?_) fun _ => nofun))
  obtain rfl : some ty = o := Except.ok.inj (hty.symm.trans ho)
  exact .pure (.pure (.bind (.build (.pure trivial))))

/-! ### Statements -/

/-- Statements but selections are produced or infeasible, and copies are produced. A fertile
session stays fertile, and what a statement shows is there. -/
theorem variantWith_thrives (hs : s.Fertile c) (hscope : s.HasScope scope)
    (hmem : op ∈ Category.statement.members) (hop : op ≠ .selectionMerge) :
    Ends (variantWith none scope op) c s
      (fun p s' => Thrives c s s' ∧ ∀ d ∈ p.visible, d.index < s'.code.instrs.size)
      fun e s' => e = .infeasible ∧ op ≠ .copyObject ∧ Thrives c s s' := by
  obtain ⟨recipe, hrecipe⟩ := exists_recipe hmem
  have hselection : recipe ≠ .selection := by
    rintro rfl
    exact hop (Opcode.eq_selectionMerge hrecipe)
  have hcalm := variantWith_calmly hs.sound (hs.ready.shows hs.sound hscope) none hrecipe hselection
  have harms : FillsArms (ρ := ρ) c none := nofun
  have hlead := variantWith_leads harms hs.sound scope op
  refine Ends.mono (hcalm.and (hlead.and Ends.ran)) ?_ ?_
  · rintro p s' ⟨hstill, hp, -⟩
    exact ⟨hs.still hstill hp.sound hp.grows.le.table, hp.visible_lt_size⟩
  · rintro e s' ⟨hcalm, hhalts, hrun⟩
    obtain ⟨rfl, h⟩ := hs.infeasible hcalm hhalts
    refine ⟨rfl, ?_, h⟩
    rintro rfl
    exact (copyObject_feasible hs hscope none).of_run_error hrun rfl

end Bounded

/-- A variant that is not pinned is drawn among statements of equal weights: copies are
left. -/
theorem sampleStatement_surely [LawfulRandomSource ρ] (hweighting : c.weighting = .uniform)
    (hs : s.Fertile c) (hparametrized : s.weights.isParametrized .statement = true) :
    Surely c s (sample? .statement) fun o s' => Thrives c s s' ∧
      ∃ op, o = some op ∧ op ∈ Category.statement.members := by
  obtain ⟨weights, hweights⟩ := Option.isSome_iff_exists.mp hparametrized
  change s.weights.weights? .statement = some weights at hweights
  obtain ⟨base, hbase, heq⟩ := hs.ready.drawn.weights .statement weights hweights
  obtain rfl := hbase.eq_uniform fun _ => hweighting
  have hleft : Opcode.copyObject ∉ (s.weights.row .statement).pins ++ c.withheld := by
    rw [List.mem_append, not_or]
    refine ⟨hs.copies, ?_⟩
    unfold Config.withheld
    split_ifs <;> decide
  refine (sample?_draws hs.ready.drawn hweights ?_ ?_).mono ?_ fun _ _ h => h
  · rw [heq]
    exact Weights.choosable_uniform (by decide) (by decide) hleft
  · rw [heq]
    exact Weights.total_uniform_isFinite (by decide)
  · rintro _ _ ⟨⟨source, rfl⟩, op, rfl, hmem, -⟩
    exact ⟨hs.quiet ⟨rfl, rfl, rfl, rfl, Nat.le_refl _, Nat.le_refl _⟩
      (.of_eq hs.sound rfl rfl rfl), op, rfl, hmem⟩

/-- A statement that was infeasible is pinned, and is no copy. -/
theorem pruneStatement_surely (hweighting : c.weighting = .uniform) (hs : s.Fertile c)
    (hop : op ≠ .copyObject) : Surely c s (prune .statement op) fun _ s' =>
      Thrives c s s' ∧ s'.weights.isParametrized .statement = true := by
  refine (prune_surely (fun _ => hweighting) hs.ready.drawn).mono ?_ fun _ _ h => h
  rintro _ s' ⟨pruned, -, hdrawn, h, hparametrized⟩
  have q : Quiet c s { s with pruned } := .of_eq hs.sound rfl rfl rfl
  have hs₁ : State.Fertile c { s with pruned } :=
    hs.later q.sound ⟨hdrawn, hs.ready.known⟩ (le_refl _) rfl rfl
  exact ⟨Thrives.trans ⟨hs₁, le_refl _, rfl⟩ (hs₁.repins h fun h => hop h.2.symm), hparametrized⟩

/-- The weights of statements are put in place, and every now and then drawn anew. -/
theorem prepareStatement_surely (hc : c.validate = .ok ()) (hweighting : c.weighting = .uniform)
    (hs : s.Fertile c) : Surely c s (Plan.prepare .statement) fun _ s' =>
      Thrives c s s' ∧ s'.weights.isParametrized .statement = true := by
  have heven : c.Even .statement := fun _ => hweighting
  refine (ensureParametrized_surely heven hs.ready.drawn).bind ?_
  rintro _ s₁ ⟨h₁, hparametrized⟩
  have hs₁ := hs.repins h₁ id
  have hmutate : Surely c s₁ maybeMutate fun _ s' =>
      Thrives c s₁ s' ∧ s'.weights.isParametrized .statement = true := by
    have hp := c.mutationProbability_of_validate hc
    refine Ends.bind (.read ((Supplies.of (chance_quietly hs₁.fertile.sound _) (chance_calmly hp)
      (chance_feasible _)).surely.bind ?_))
    rintro again s₂ ⟨h₂, q₂, -⟩
    have hs₂ := hs₁.fertile.quiet h₂ q₂
    split_ifs
    · refine (parametrize_surely heven hs₂.fertile.ready.drawn).mono ?_ fun _ _ h => h
      exact fun _ s₃ h₃ => ⟨hs₂.trans (hs₂.fertile.repins h₃.1 id), h₃.2⟩
    · exact .pure ⟨hs₂, h₂.weights ▸ hparametrized⟩
  rw [if_pos rfl]
  refine hmutate.bind ?_
  rintro _ s₂ ⟨hs₂, hparametrized⟩
  exact .pure ⟨hs₁.trans hs₂, hparametrized⟩

/-- A statement that was produced is counted, unless the count is full. -/
theorem countStatement_fertile (hs : s.Fertile c) : Ends countStatement c s
    (fun _ s' => s'.Fertile c ∧ s'.scopes = s.scopes ∧ s'.code = s.code)
    fun e _ => e = .stopped (.fault .overflow) ∧ 2 ^ 64 ≤ s.statements + 1 := by
  refine (countStatement_ends c s).mono ?_ fun _ _ h => ⟨h.1, h.2.1⟩
  rintro _ _ ⟨hfits, rfl⟩
  have q : Quiet c s { s with statements := s.statements + 1 } := .counted hs.sound _
  exact ⟨⟨q.sound, ⟨hs.ready.drawn, hs.ready.known⟩, hfits, hs.constant, hs.copies⟩, rfl, rfl⟩

/-- More statements are wanted where that is certain. -/
theorem certain_surely [CertainRandomSource ρ] (hc : c.validate = .ok ())
    (hp : c.statementProbability = 1.0) (hs : s.Fertile c) :
    Surely c s (chance c.statementProbability) fun again s' => again = true ∧ Thrives c s s' := by
  have hvalid := c.statementProbability_of_validate hc
  have hyes : Ends (chance c.statementProbability) c s (fun again _ => again = true)
      fun _ _ => True := by
    rw [hp, Config.isProbability] at *
    unfold chance
    rw [if_pos hvalid]
    exact .draw (CertainRandomSource.chance_one s.source)
  refine (hyes.and (Supplies.of (chance_quietly hs.sound _) (chance_calmly hvalid)
    (chance_feasible _))).mono ?_ fun _ _ he => he.2
  exact fun again s' h => ⟨h.1, hs.quiet h.2.1 h.2.2.1⟩

/-! ### Scopes -/

omit [RandomSource ρ] in
theorem childScope_surely (hscope : s.HasScope scope) (function : Option InstrId) :
    Surely c s (childScope scope function) fun _ s' => ∃ scopes, s' = { s with scopes } := by
  obtain ⟨x, hx⟩ := hscope
  refine Ends.bind (.get ?_)
  cases hchild : s.scopes.child? scope function with
  | none =>
    rw [ScopeTree.child?, hx] at hchild
    cases hchild
  | some => exact .bind (.modify (.pure ⟨_, rfl⟩))

omit [RandomSource ρ] in
theorem scopeAt_surely (hscope : s.HasScope scope) :
    Surely c s (scopeAt scope) fun _ s' => s' = s := by
  obtain ⟨x, hx⟩ := hscope
  refine Ends.bind (.get ?_)
  dsimp only
  rw [hx]
  rfl

omit [RandomSource ρ] in
theorem declare_surely (hscope : s.HasScope scope) (id : InstrId) :
    Surely c s (declare scope id) fun _ s' => ∃ scopes, s' = { s with scopes } := by
  refine (scopeAt_surely hscope).bind ?_
  rintro _ _ rfl
  exact .modify ⟨_, rfl⟩

omit [RandomSource ρ] in
theorem levelsLeft_surely (scope : ScopeId) :
    Surely c s (levelsLeft scope) fun _ s' => s' = s := by
  refine Ends.bind (.get ?_)
  split
  · exact .bind (.read (.pure rfl))
  · exact .pure rfl

/-- A scope is opened below another one. -/
theorem childScope_hosts (hs : s.Fertile c) (hscope : s.HasScope scope)
    (function : Option InstrId) :
    Surely c s (childScope scope function) fun child s' => Hosts c s child s' := by
  refine ((childScope_completes hs.ready hscope function).and
    ((childScope_steadily hs.sound scope function).and
      (childScope_surely hscope function))).mono ?_ fun _ _ he => he.2.2
  rintro child _ ⟨⟨h, -⟩, ho, scopes, rfl⟩
  exact ⟨hs.later ho.sound h.ready (le_refl _) rfl rfl, ho.present, le_refl _⟩

theorem declare_hosts (hs : s.Fertile c) (hscope : s.HasScope scope) {id : InstrId}
    (hid : id.index < s.code.instrs.size) :
    Surely c s (declare scope id) fun _ s' => Hosts c s scope s' ∧ s'.code = s.code := by
  refine ((declare_completes hs.ready hscope hid).and ((declare_steadily hs.sound scope id).and
    (declare_surely hscope id))).mono ?_ fun _ _ he => he.2.2
  rintro _ _ ⟨⟨h, -⟩, hd, scopes, rfl⟩
  exact ⟨⟨hs.later hd.sound h.ready (le_refl _) rfl rfl, hd.present hscope, le_refl _⟩, rfl⟩

/-- What a statement shows is declared. -/
theorem append_hosts (hs : s.Fertile c) (hscope : s.HasScope scope) (b : Block) {p : Production}
    (hp : ∀ d ∈ p.visible, d.index < s.code.instrs.size) :
    Surely c s (append scope b p) fun _ s' => Hosts c s scope s' := by
  suffices hall : Surely c s (p.visible.forM (declare scope)) fun _ s' => Hosts c s scope s' from
    hall.bind fun _ _ h => .pure h
  generalize p.visible = ids at hp
  induction ids generalizing s with
  | nil => exact .pure (.refl hs hscope)
  | cons id ids ih =>
    refine (declare_hosts hs hscope (hp id List.mem_cons_self)).bind ?_
    rintro _ s₁ ⟨h₁, hcode⟩
    have hids : ∀ d ∈ ids, d.index < s₁.code.instrs.size := fun d hd =>
      hcode ▸ hp d (List.mem_cons_of_mem _ hd)
    exact (ih h₁.fertile h₁.present hids).mono (fun _ _ h => h₁.after h) fun _ _ he => he

/-! ### Functions -/

/-- An instruction is added, at the end of those that are there. -/
theorem alloc_hosts (hs : s.Fertile c) (hscope : s.HasScope scope) {i : Instr}
    (hi : s.code.Typed i) :
    Surely c s (alloc i) fun id s' => Hosts c s scope s' ∧ id.index < s'.code.instrs.size := by
  refine ((alloc_steadily hs.sound hi).and ((Calmly.alloc i).and (build_feasible _))).mono ?_ ?_
  · rintro id s' ⟨ha, hstill, -⟩
    have hthrives := hs.still hstill ha.sound ha.grows.le.table
    refine ⟨⟨hthrives.fertile, hscope.mono hthrives.scopes, ha.grows.le.table⟩, ?_⟩
    rw [ha.slot, ha.size]
    exact Nat.lt_succ_self _
  · rintro e s' ⟨-, hcalm, hne⟩
    exact hne (Calmly.eq_infeasible hcalm)

theorem parameterOf_hosts (hs : s.Fertile c) (hscope : s.HasScope scope) {ty : EntryId}
    (hty : s.code.table.IsOf ty .arithmeticType) :
    Surely c s (parameterOf scope ty) fun _ s' => Hosts c s scope s' := by
  refine (alloc_hosts hs hscope (.functionParameter hty)).bind ?_
  rintro id s₁ ⟨h₁, hid⟩
  exact (declare_hosts h₁.fertile h₁.present hid).bind fun _ _ h => .pure (h₁.after h.1)

theorem parameters_hosts (hs : s.Fertile c) (hscope : s.HasScope scope) {tys : List EntryId}
    (htys : ∀ ty ∈ tys, s.code.table.IsOf ty .arithmeticType) :
    Surely c s (tys.mapM (parameterOf scope)) fun _ s' => Hosts c s scope s' := by
  induction tys generalizing s with
  | nil => exact .pure (.refl hs hscope)
  | cons ty tys ih =>
    rw [List.mapM_cons]
    refine (parameterOf_hosts hs hscope (htys ty List.mem_cons_self)).bind fun _ s₁ h₁ => ?_
    have htys₁ : ∀ ty ∈ tys, s₁.code.table.IsOf ty .arithmeticType := fun ty hty =>
      (htys ty (List.mem_cons_of_mem _ hty)).mono h₁.table
    exact (ih h₁.fertile h₁.present htys₁).bind fun _ _ h => .pure (h₁.after h)

/-- A function begins in a scope of its own. -/
theorem head_hosts (hs : s.Fertile c) (hroot : s.HasScope ScopeTree.root) (opening : InstrId)
    {tys : List EntryId} (htys : ∀ ty ∈ tys, s.code.table.IsOf ty .arithmeticType) :
    Surely c s (Plan.head opening tys) fun h s' => Hosts c s h.scope s' := by
  refine (childScope_hosts hs hroot (some opening)).bind fun scope s₁ h₁ => ?_
  refine (parameters_hosts h₁.fertile h₁.present fun ty hty => (htys ty hty).mono h₁.table).bind
    fun params s₂ h₂ => ?_
  refine (alloc_hosts h₂.fertile h₂.present .label).bind ?_
  rintro entry s₃ ⟨h₃, -⟩
  refine (levelsLeft_surely scope).bind ?_
  rintro levels _ rfl
  exact .pure (h₁.after (h₂.after h₃))

end Gen

end ShaderGen
