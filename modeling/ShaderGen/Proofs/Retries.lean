import ShaderGen.Proofs.Sparing

/-!
What is left of variants that are retried. A draw tries variants until one of them is
produced. Those that are infeasible have searched, which adds types and constants to the
table, and they cost their category a weight; so whatever relation of sessions overlooks
searching and changes of weights holds between the start of a draw and the start of the
variant that is produced at last. What the draw adds is what this one variant adds.
-/

namespace ShaderGen

variable {ρ α β : Type} {c : Config}

/-! ### Tables of weights -/

namespace WeightTable

variable {t t' : WeightTable} {cat cat' : Category}

theorem row_pinZero_of_ne {op : Opcode} (h : cat ≠ cat') :
    (t.pinZero cat op).row cat' = t.row cat' := by
  rw [pinZero, row_setRow, if_neg h]

theorem row_install_of_ne {weights : List Float} (hinstall : t.install cat weights = .ok t')
    (h : cat ≠ cat') : t'.row cat' = t.row cat' := by
  unfold install at hinstall
  split_ifs at hinstall
  cases hinstall
  rw [row_setRow, if_neg h]

end WeightTable

/-! ### Modules and sessions -/

/-- A module comes from another by new types and constants at the end of its table. -/
structure Module.Appends (m m' : Module) : Prop where
  instrs : m'.instrs = m.instrs
  annotations : m'.annotations = m.annotations
  imports : m'.imports = m.imports
  entries : ∃ added, m'.table.entries.toList = m.table.entries.toList ++ added ∧
    ∀ e ∈ added, e.var? = none

namespace Module

variable {m m' m'' : Module}

theorem Appends.refl (m : Module) : m.Appends m := ⟨rfl, rfl, rfl, [], by simp, by simp⟩

theorem Appends.trans (h : m.Appends m') (h' : m'.Appends m'') : m.Appends m'' := by
  obtain ⟨added, hadded, hvar⟩ := h.entries
  obtain ⟨added', hadded', hvar'⟩ := h'.entries
  refine ⟨h'.instrs.trans h.instrs, h'.annotations.trans h.annotations,
    h'.imports.trans h.imports, added ++ added', ?_, List.forall_mem_append.mpr ⟨hvar, hvar'⟩⟩
  rw [hadded', hadded, List.append_assoc]

theorem appends_intern (m : Module) {e : Entity} (he : e.var? = none) :
    m.Appends (m.intern e).2 := by
  refine ⟨rfl, rfl, rfl, ?_⟩
  change ∃ added, (m.table.intern e).2.entries.toList = _ ∧ _
  rw [Table.entries_intern]
  split
  · exact ⟨[], by simp, by simp⟩
  · exact ⟨[e], rfl, by simpa using he⟩

end Module

/-- A session goes on without a statement or a variable: only types and constants come in. -/
structure State.Undisturbed (s s' : State ρ) : Prop where
  code : s.code.Appends s'.code
  scopes : s'.scopes = s.scopes
  statements : s'.statements = s.statements
  nextSerial : s'.nextSerial = s.nextSerial

/-- A session goes on without a new function either. -/
structure State.Untouched (s s' : State ρ) : Prop extends s.Undisturbed s' where
  functionTypes : s'.functionTypes = s.functionTypes

namespace State

variable {s s' s'' : State ρ}

theorem Undisturbed.refl (s : State ρ) : s.Undisturbed s := ⟨.refl _, rfl, rfl, rfl⟩

theorem Undisturbed.trans (h : s.Undisturbed s') (h' : s'.Undisturbed s'') : s.Undisturbed s'' :=
  ⟨h.code.trans h'.code, h'.scopes.trans h.scopes, h'.statements.trans h.statements,
    h'.nextSerial.trans h.nextSerial⟩

theorem Untouched.refl (s : State ρ) : s.Untouched s := ⟨.refl s, rfl⟩

theorem Untouched.trans (h : s.Untouched s') (h' : s'.Untouched s'') : s.Untouched s'' :=
  ⟨h.toUndisturbed.trans h'.toUndisturbed, h'.functionTypes.trans h.functionTypes⟩

/-- What is drawn for a category is weighed as before: its weights are the same, and so are
its pins and whether anything of it was found infeasible. -/
structure WeighsAlike (cat : Category) (s s' : State ρ) : Prop where
  row : s'.weights.row cat = s.weights.row cat
  pruned : s'.pruned.contains cat = s.pruned.contains cat

theorem WeighsAlike.trans {cat : Category} (h : WeighsAlike cat s s')
    (h' : WeighsAlike cat s' s'') : WeighsAlike cat s s'' :=
  ⟨h'.row.trans h.row, h'.pruned.trans h.pruned⟩

/-- A session that has drawn from a category counts it if it is a statement. -/
def counted (cat : Category) (s : State ρ) : State ρ :=
  if cat = .statement then { s with statements := s.statements + 1 } else s

end State

namespace Gen

/-- A variant that is drawn is a member of its category. -/
theorem sample?_mem [RandomSource ρ] {cat : Category} (c : Config) (s : State ρ) :
    Ends (sample? cat) c s (fun o _ => ∀ op, o = some op → op ∈ cat.members) fun _ _ => True := by
  refine .bind (.get ?_)
  split
  · exact .pure nofun
  · split_ifs
    · exact .bind (.draw (.pure fun op hop => List.mem_of_getElem? hop))
    · exact .fault trivial
    · exact .pure nofun

/-! ### Relations -/

/-- A relation of sessions that overlooks searching and changes of weights, but for the
weights of some categories. -/
structure Overlooks (R : State ρ → State ρ → Prop) (watched : Category → Prop) : Prop where
  trans : ∀ {s s' s''}, R s s' → R s' s'' → R s s''
  draw : ∀ (s : State ρ) (source : ρ), R s { s with source := source }
  internType : ∀ (s : State ρ) (t : Ty), R s { s with code := (s.code.internType t).2 }
  internConst : ∀ (s : State ρ) (k : Const), R s { s with code := (s.code.internConst k).2 }
  weigh : ∀ (s : State ρ) (weights : WeightTable) (pruned : List Category),
    (∀ cat, watched cat → s.WeighsAlike cat { s with weights := weights, pruned := pruned }) →
      R s { s with weights := weights, pruned := pruned }

theorem overlooks_untouched : Overlooks (State.Untouched (ρ := ρ)) fun _ => False where
  trans := .trans
  draw _ _ := ⟨⟨.refl _, rfl, rfl, rfl⟩, rfl⟩
  internType s t := ⟨⟨s.code.appends_intern (e := .type t) rfl, rfl, rfl, rfl⟩, rfl⟩
  internConst s k := ⟨⟨s.code.appends_intern (e := .const k) rfl, rfl, rfl, rfl⟩, rfl⟩
  weigh _ _ _ _ := ⟨⟨.refl _, rfl, rfl, rfl⟩, rfl⟩

/-- The weights of a category may be watched as well. -/
theorem Overlooks.and_weighsAlike {R : State ρ → State ρ → Prop} {watched : Category → Prop}
    (h : Overlooks R watched) (cat : Category) :
    Overlooks (fun s s' => R s s' ∧ s.WeighsAlike cat s')
      fun cat' => watched cat' ∨ cat' = cat where
  trans h₁ h₂ := ⟨h.trans h₁.1 h₂.1, h₁.2.trans h₂.2⟩
  draw s source := ⟨h.draw s source, rfl, rfl⟩
  internType s t := ⟨h.internType s t, rfl, rfl⟩
  internConst s k := ⟨h.internConst s k, rfl, rfl⟩
  weigh s weights pruned hall :=
    ⟨h.weigh s weights pruned fun cat' hcat' => hall cat' (.inl hcat'), hall cat (.inr rfl)⟩

/-- A draw ends with what the run of one variant ends with, and all that came before that run
is overlooked. -/
def DrawnFrom (R : State ρ → State ρ → Prop) (cat : Category) (produce : Opcode → Gen ρ α)
    (c : Config) (s : State ρ) (a : α) (s' : State ρ) : Prop :=
  ∃ op ∈ cat.members, ∃ s₁ s₂, R s s₁ ∧ (produce op).run c s₁ = (.ok a, s₂) ∧
    s' = s₂.counted cat

/-- A draw ends without a result, and all that happened is overlooked, or all that came before
the run of a variant that stopped the session. A statement that was produced may be one too
many to count. -/
def StoppedIn (R : State ρ → State ρ → Prop) (cat : Category) (produce : Opcode → Gen ρ α)
    (c : Config) (s : State ρ) (e : Ending) (s' : State ρ) : Prop :=
  R s s' ∨ ∃ op ∈ cat.members, ∃ s₁ cause, R s s₁ ∧ e = .stopped cause ∧
    ((produce op).run c s₁ = (.error e, s') ∨
      cat = .statement ∧ ∃ a, (produce op).run c s₁ = (.ok a, s'))

namespace Overlooks

variable {R : State ρ → State ρ → Prop} {watched : Category → Prop} (hR : Overlooks R watched)
include hR

theorem refl (s : State ρ) : R s s := hR.draw s s.source

theorem bind {x : Gen ρ α} {g : α → Gen ρ β} (hx : Relates R x) (hg : ∀ a, Relates R (g a)) :
    Relates R (x >>= g) := .bind hR.trans hx hg

/-- What is overlooked may be done while searching. -/
theorem searching {x : Gen ρ α} (h : Searching (fun _ y => Relates R y) x) : Relates R x := by
  induction h with
  | but h => exact h
  | bind _ _ hx hg => exact hR.bind hx hg
  | attempt _ hx => exact fun c s => attempt_ends (hx c s)
  | draw f => exact fun _ s => .draw (hR.draw s _)
  | internType t => exact fun _ s => .build (hR.internType s t)
  | internConst k => exact fun _ s => .build (hR.internConst s k)
  | _ => exact fun _ s => hR.refl s

theorem forM {g : β → Gen ρ Unit} (hg : ∀ b, Relates R (g b)) (bs : List β) :
    Relates R (bs.forM g) := hR.searching (.forM (fun b => .but (hg b)) bs)

/-! ### Draws of variants -/

variable [RandomSource ρ] {cat : Category} (hcat : ¬watched cat)
include hcat

omit [RandomSource ρ] in
theorem install (base : List Float) : Relates R (installWeights cat base) := by
  intro c s
  refine .bind (.read (.bind (.get (.bind
    (.checked (fun table htable => .modify ?_) fun _ => hR.refl s)))))
  refine hR.weigh s table s.pruned fun cat' hwatched => ⟨?_, rfl⟩
  exact WeightTable.row_install_of_ne htable fun heq => hcat (heq ▸ hwatched)

theorem parametrize : Relates R (parametrize cat) := by
  unfold Gen.parametrize
  split
  · exact hR.bind (hR.searching (statementWeights_searching _)) fun base => hR.install hcat base
  · exact hR.bind (fun _ s => hR.refl s) fun base => hR.install hcat base

theorem ensureParametrized : Relates R (ensureParametrized cat) := by
  refine hR.bind (hR.searching .get) fun s => ?_
  split
  · exact fun _ s => hR.refl s
  · exact hR.parametrize hcat

theorem pinZero (op : Opcode) : Relates R (pinZero cat op) := by
  refine hR.bind (hR.ensureParametrized hcat) fun _ _ s => .modify ?_
  refine hR.weigh s (s.weights.pinZero cat op) s.pruned fun cat' hwatched => ⟨?_, rfl⟩
  exact WeightTable.row_pinZero_of_ne fun heq => hcat (heq ▸ hwatched)

theorem prune (op : Opcode) : Relates R (prune cat op) := by
  refine hR.bind (fun _ s => .modify ?_) fun _ => hR.pinZero hcat op
  refine hR.weigh s s.weights _ fun cat' hwatched => ⟨rfl, ?_⟩
  have hne : cat' ≠ cat := fun heq => hcat (heq ▸ hwatched)
  dsimp only
  split
  · rfl
  · simp [hne]

theorem maybeMutate (h : cat = .statement) : Relates R (maybeMutate (ρ := ρ)) := by
  subst h
  refine hR.bind (hR.searching .read) fun c => hR.bind (hR.searching (chance_searching _)) ?_
  intro mutates
  split
  · exact hR.parametrize hcat
  · exact fun _ s => hR.refl s

theorem applyExclusions : Relates R (applyExclusions cat) := by
  unfold Gen.applyExclusions
  split
  · exact hR.bind (hR.searching .read) fun c => hR.forM (fun op => hR.pinZero hcat op) _
  · exact fun _ s => hR.refl s

variable {produce : Opcode → Gen ρ α} {s : State ρ}

omit [RandomSource ρ] hcat in
/-- What is overlooked may come first. -/
theorem behind {x : Gen ρ α} {s₁ : State ρ} (h : R s s₁)
    (hx : Ends x c s₁ (DrawnFrom R cat produce c s₁) (StoppedIn R cat produce c s₁)) :
    Ends x c s₁ (DrawnFrom R cat produce c s) (StoppedIn R cat produce c s) := by
  refine hx.mono ?_ ?_
  · rintro a s' ⟨op, hop, s₂, s₃, h₂, hrest⟩
    exact ⟨op, hop, s₂, s₃, hR.trans h h₂, hrest⟩
  · rintro e s' (h₂ | ⟨op, hop, s₂, cause, h₂, hrest⟩)
    · exact .inl (hR.trans h h₂)
    · exact .inr ⟨op, hop, s₂, cause, hR.trans h h₂, hrest⟩

theorem resample_ends (hproduce : ∀ op ∈ cat.members, ∀ s₁, Ends (produce op) c s₁
      (fun _ _ => True) fun e s₂ => e = .infeasible → R s₁ s₂) (rounds : Nat) :
    Ends (resample cat produce rounds) c s (DrawnFrom R cat produce c s)
      (StoppedIn R cat produce c s) := by
  induction rounds generalizing s with
  | zero => exact .inl (hR.refl s)
  | succ rounds ih =>
    refine .bind (((sample?_mem c s).and (hR.searching (sample?_searching cat) c s)).mono ?_
      fun e s' h => .inl h.2)
    rintro (_ | op) s₁ ⟨hmem, h₁⟩
    · refine .bind (.get ?_)
      split
      · exact .infeasible (.inl h₁)
      · exact .stop (.inl h₁)
    · refine .bind (.attempt (((hproduce op (hmem op rfl) s₁).and .ran).mono ?_ ?_))
      · rintro a s₂ ⟨-, hrun⟩
        have hdrawn : DrawnFrom R cat produce c s a (s₂.counted cat) :=
          ⟨op, hmem op rfl, s₁, s₂, h₁, hrun, rfl⟩
        unfold State.counted at hdrawn
        dsimp only
        split_ifs at hdrawn ⊢
        · refine .bind ((countStatement_ends c s₂).mono ?_ ?_)
          · rintro _ _ ⟨-, rfl⟩
            exact .pure hdrawn
          · rintro _ _ ⟨rfl, -, rfl⟩
            exact .inr ⟨op, hmem op rfl, s₁, _, h₁, rfl, .inr ⟨‹_›, a, hrun⟩⟩
        · exact .pure hdrawn
      · rintro (_ | cause) s₂ ⟨h₂, hrun⟩
        · -- the next round starts behind the variant that was found infeasible
          have h₂ := hR.trans h₁ (h₂ rfl)
          exact .bind ((hR.prune hcat op c s₂).mono
            (fun _ s₃ h₃ => hR.behind (hR.trans h₂ h₃) ih) fun _ _ h₃ => .inl (hR.trans h₂ h₃))
        · exact .inr ⟨op, hmem op rfl, s₁, cause, h₁, rfl, .inl hrun⟩

/-- What a draw leaves behind, however many rounds it takes: where something is produced, only
the run that produced it, and else nothing or the run that stopped the session. -/
theorem dispatch_ends (hproduce : ∀ op ∈ cat.members, ∀ s₁, Ends (produce op) c s₁
      (fun _ _ => True) fun e s₂ => e = .infeasible → R s₁ s₂) :
    Ends (dispatch cat produce) c s (DrawnFrom R cat produce c s)
      (StoppedIn R cat produce c s) := by
  have hbudget : Relates R (checkBudget : Gen ρ Unit) := by
    refine hR.bind (hR.searching .read) fun c => hR.bind (hR.searching .get) fun s => ?_
    split
    · exact fun _ s => .stop (hR.refl s)
    · exact fun _ s => hR.refl s
  have hrest : ∀ s₁, R s s₁ → Ends (do
      Gen.applyExclusions cat
      Gen.resample cat produce (cat.members.length + 1)) c s₁
      (DrawnFrom R cat produce c s) (StoppedIn R cat produce c s) := fun s₁ h₁ =>
    .bind ((hR.applyExclusions hcat c s₁).mono
      (fun _ s₂ h₂ => hR.behind (hR.trans h₁ h₂) (hR.resample_ends hcat hproduce _))
      fun _ _ h₂ => .inl (hR.trans h₁ h₂))
  refine .bind ((hbudget c s).mono (fun _ s₁ h₁ => ?_) fun _ _ h => .inl h)
  refine .bind ((hR.ensureParametrized hcat c s₁).mono (fun _ s₂ h₂ => ?_)
    fun _ _ h₂ => .inl (hR.trans h₁ h₂))
  have h₂ := hR.trans h₁ h₂
  split
  · exact .bind ((hR.maybeMutate hcat ‹_› c s₂).mono
      (fun _ s₃ h₃ => hrest s₃ (hR.trans h₂ h₃)) fun _ _ h₃ => .inl (hR.trans h₂ h₃))
  · exact hrest s₂ h₂

/-- Where variants are no statements and all of them do what is overlooked, so does a draw. -/
theorem dispatch (hstatement : cat ≠ .statement)
    (hproduce : ∀ op ∈ cat.members, Relates R (produce op)) :
    Relates R (Gen.dispatch cat produce) := by
  intro c s
  refine (hR.dispatch_ends hcat fun op hop s₁ => (hproduce op hop c s₁).mono
    (fun _ _ _ => trivial) fun _ _ h _ => h).mono ?_ ?_
  · rintro a s' ⟨op, hop, s₁, s₂, h₁, hrun, rfl⟩
    rw [State.counted, if_neg hstatement]
    exact hR.trans h₁ ((hproduce op hop c s₁).of_run_ok hrun)
  · rintro e s' (h | ⟨op, hop, s₁, cause, h₁, rfl, hrun | ⟨hcount, -⟩⟩)
    · exact h
    · exact hR.trans h₁ ((hproduce op hop c s₁).of_run_error hrun)
    · exact absurd hcount hstatement

end Overlooks

end Gen

end ShaderGen
