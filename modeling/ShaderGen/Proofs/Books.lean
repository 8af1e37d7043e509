import ShaderGen.Proofs.Plain

/-!
The books of a session: its weights, the categories of which something was infeasible,
and the number of statements. Only the drawing of variants writes to them. Every other
routine leaves them as they were and never stops for the budget, however it ends: plain
steps do, and so do declarations and decorations. What is written is a change of weights or
one more statement.
-/

namespace ShaderGen

variable {ρ α β : Type}

/-- What a session draws from, and how much it has drawn. -/
structure Books where
  weights : WeightTable
  pruned : List Category
  statements : Nat

/-- The books of a session. -/
def State.books (s : State ρ) : Books := ⟨s.weights, s.pruned, s.statements⟩

/-- The changes of weights that a configuration allows: fresh weights for a category, with
nothing for extended instructions unless the configuration has them, and pins. -/
inductive WeightTable.Evolves (c : Config) (t : WeightTable) : WeightTable → Prop
  | refl : Evolves c t t
  | install {t' t'' : WeightTable} (h : Evolves c t t') (cat : Category) (base : List Float)
      (hinstall : t'.install cat (if c.extendedInstructions then base
        else WeightTable.applyPins [.extInst] base cat.members) = .ok t'') : Evolves c t t''
  | pin {t' : WeightTable} (h : Evolves c t t') (cat : Category) (op : Opcode) :
      Evolves c t (t'.pinZero cat op)

theorem WeightTable.Evolves.trans {c : Config} {t t' t'' : WeightTable} (h : t.Evolves c t')
    (h' : t'.Evolves c t'') : t.Evolves c t'' := by
  induction h' with
  | refl => exact h
  | install _ cat base hinstall ih => exact ih.install cat base hinstall
  | pin _ cat op ih => exact ih.pin cat op

/-- A way in which books may change. -/
structure Upkeep where
  rel : Config → Books → Books → Prop
  refl : ∀ c b, rel c b b
  trans : ∀ c b b' b'', rel c b b' → rel c b' b'' → rel c b b''

namespace Upkeep

/-- Nothing changes. -/
def idle : Upkeep where
  rel _ b b' := b' = b
  refl _ _ := rfl
  trans _ _ _ _ h h' := h'.trans h

/-- Everything may change. -/
def any : Upkeep where
  rel _ _ _ := True
  refl _ _ := trivial
  trans _ _ _ _ _ _ := trivial

/-- Everything may change but the number of statements. -/
def drawing : Upkeep where
  rel c b b' := b.weights.Evolves c b'.weights ∧ b.pruned ⊆ b'.pruned ∧ b'.statements = b.statements
  refl _ _ := ⟨.refl, fun _ h => h, rfl⟩
  trans _ _ _ _ h h' :=
    ⟨h.1.trans h'.1, fun _ hcat => h'.2.1 (h.2.1 hcat), h'.2.2.trans h.2.2⟩

end Upkeep

namespace Gen

/-- A step changes the books in a certain way only, and does not stop for the budget. -/
def Keeps (u : Upkeep) (x : Gen ρ α) : Prop :=
  ∀ c s, u.rel c s.books (x.run c s).2.books ∧
    ∀ limit, (x.run c s).1 ≠ .error (.stopped (.overBudget limit))

/-- A step is no business of the books. -/
abbrev Aside (x : Gen ρ α) : Prop := Keeps .idle x

namespace Keeps

variable {u : Upkeep} {x : Gen ρ α}

theorem ends (h : Keeps u x) (c : Config) (s : State ρ) : Ends x c s
    (fun _ s' => u.rel c s.books s'.books) fun _ s' => u.rel c s.books s'.books := by
  have hkept := (h c s).1
  unfold Ends
  rcases hrun : x.run c s with ⟨e | a, s'⟩
  · simpa only [hrun] using hkept
  · simpa only [hrun] using hkept

theorem of_aside (h : Aside x) : Keeps u x := by
  intro c s
  obtain ⟨hbooks, hbudget⟩ := h c s
  exact ⟨(hbooks : _ = _) ▸ u.refl c _, hbudget⟩

theorem any (h : Keeps u x) : Keeps .any x := fun c s => ⟨trivial, (h c s).2⟩

theorem pure (a : α) : Keeps u (Pure.pure a : Gen ρ α) := fun c s => ⟨u.refl c s.books, nofun⟩

theorem bind {g : α → Gen ρ β} (hx : Keeps u x) (hg : ∀ a, Keeps u (g a)) :
    Keeps u (x >>= g) := by
  intro c s
  obtain ⟨hkept, hbudget⟩ := hx c s
  rw [run_bind]
  rcases hrun : x.run c s with ⟨e | a, s'⟩
  · rw [hrun] at hkept hbudget
    exact ⟨hkept, fun limit h => hbudget limit (congrArg Except.error (Except.error.inj h))⟩
  · rw [hrun] at hkept
    exact ⟨u.trans c _ _ _ hkept (hg a c s').1, (hg a c s').2⟩

theorem map {g : α → β} (hx : Keeps u x) : Keeps u (g <$> x) := by
  rw [map_eq_pure_bind]
  exact bind hx fun _ => pure _

theorem attempt (hx : Keeps u x) : Keeps u (Gen.attempt x) := by
  intro c s
  obtain ⟨hkept, hbudget⟩ := hx c s
  rw [run_attempt]
  rcases hrun : x.run c s with ⟨(_ | cause) | a, s'⟩
  · rw [hrun] at hkept
    exact ⟨hkept, nofun⟩
  · rw [hrun] at hkept hbudget
    exact ⟨hkept, fun limit h => hbudget limit (congrArg Except.error (Except.error.inj h))⟩
  · rw [hrun] at hkept
    exact ⟨hkept, nofun⟩

theorem mapM {g : β → Gen ρ α} (hg : ∀ b, Keeps u (g b)) (bs : List β) : Keeps u (bs.mapM g) := by
  induction bs with
  | nil => exact pure []
  | cons b bs ih =>
    rw [List.mapM_cons]
    exact bind (hg b) fun _ => bind ih fun _ => pure _

theorem forM {g : β → Gen ρ Unit} (hg : ∀ b, Keeps u (g b)) (bs : List β) :
    Keeps u (bs.forM g) := by
  induction bs with
  | nil => exact pure ()
  | cons b bs ih => exact bind (hg b) fun _ => ih

theorem get : Keeps u (MonadState.get : Gen ρ (State ρ)) := fun c s => ⟨u.refl c s.books, nofun⟩

theorem read : Keeps u (MonadReader.read : Gen ρ Config) := fun c s => ⟨u.refl c s.books, nofun⟩

theorem modify {g : State ρ → State ρ} (h : ∀ c s, u.rel c s.books (g s).books) :
    Keeps u (modify g) := fun c s => ⟨h c s, nofun⟩

theorem infeasible : Keeps u (Gen.infeasible : Gen ρ α) := fun c s => ⟨u.refl c s.books, nofun⟩

theorem fault (e : Fault) : Keeps u (Gen.fault e : Gen ρ α) :=
  fun c s => ⟨u.refl c s.books, nofun⟩

theorem stop {cause : Stop} (h : ∀ limit, cause ≠ .overBudget limit) :
    Keeps u (Gen.stop cause : Gen ρ α) := fun c s =>
  ⟨u.refl c s.books, fun limit he => h limit (Ending.stopped.inj (Except.error.inj he))⟩

theorem require (o : Option α) : Keeps u (Gen.require o : Gen ρ α) := by
  cases o with
  | none => exact infeasible
  | some a => exact pure a

theorem checked (r : Except Fault α) : Keeps u (Gen.checked r : Gen ρ α) := by
  cases r with
  | error e => exact fault e
  | ok a => exact pure a

theorem query (q : Module → Except Fault α) : Keeps u (Gen.query q : Gen ρ α) :=
  bind get fun _ => checked _

theorem ask (q : State ρ → Except Fault α) : Keeps u (Gen.ask q) := bind get fun _ => checked _

theorem draw (f : ρ → α × ρ) : Keeps u (Gen.draw f) := fun c s => ⟨u.refl c s.books, nofun⟩

theorem build (f : Module → α × Module) : Keeps u (Gen.build f : Gen ρ α) :=
  fun c s => ⟨u.refl c s.books, nofun⟩

end Keeps

/-- What is plain but for steps that keep the books keeps them. -/
theorem Plain.keeps {u : Upkeep} {x : Gen ρ α} (h : Plain (fun _ y => Keeps u y) x) :
    Keeps u x := by
  induction h with
  | but h =>
    cases h with
    | but h => exact h
    | alloc i h => exact .build _
    | rescope f => exact .modify fun c s => u.refl c s.books
  | pure a => exact .pure a
  | bind _ _ hx hg => exact .bind hx hg
  | attempt _ hx => exact .attempt hx
  | get => exact .get
  | read => exact .read
  | infeasible => exact .infeasible
  | stop h => exact .stop h
  | draw f => exact .draw f
  | internType t => exact .build _
  | internConst k => exact .build _

@[grind ←]
theorem Plain.aside {x : Gen ρ α} (h : Plain (fun _ y => Aside y) x) : Aside x := h.keeps

/-! ### Variables -/

theorem declaring_aside : Declaring fun _ (x : Gen ρ _) => Aside x where
  alloc _ := .but (.build _)
  annotate _ := .but (.build _)
  moduleVariable _ _ _ := .but (.bind .get fun _ => .bind (.checked _) fun _ =>
    .bind (.modify fun _ _ => rfl) fun _ => .bind (.build _) fun _ => .pure _)

variable [RandomSource ρ]

theorem localVariable_aside : Aside (ρ := ρ) localVariable :=
  (localVariable_plain declaring_aside).aside

theorem storageBuffers_aside : Aside (ρ := ρ) storageBuffers :=
  (storageBuffers_plain declaring_aside).aside

theorem privateVariables_aside : Aside (ρ := ρ) privateVariables :=
  (privateVariables_plain declaring_aside).aside

/-! ### Imports -/

theorem extended_aside (scope : ScopeId) : Aside (ρ := ρ) (extended scope) :=
  (extended_plain (fun _ _ => .bind (Plain.but (.build _)) fun _ => emit_plain _ _ _ nofun)
    scope).aside

/-! ### Changes of weights -/

omit [RandomSource ρ] in
/-- Weights are put in place if they fit, and nothing happens otherwise. -/
theorem install_keeps (cat : Category) (base : List Float) :
    Keeps (ρ := ρ) .drawing (installWeights cat base) := by
  intro c s
  suffices h : ∀ r : Except Fault WeightTable, (∀ table, r = .ok table →
      s.weights.Evolves c table) → ∀ out, out = (checked r >>= fun table =>
        modify fun s : State ρ => { s with weights := table }).run c s →
      Upkeep.drawing.rel c s.books out.2.books ∧
        ∀ limit, out.1 ≠ .error (.stopped (.overBudget limit)) from
    h _ (fun table htable => .install .refl cat base htable) _ rfl
  rintro (e | table) h out rfl
  · exact ⟨Upkeep.refl _ c _, nofun⟩
  · exact ⟨⟨h table rfl, fun _ h => h, rfl⟩, nofun⟩

theorem parametrize_keeps (cat : Category) : Keeps (ρ := ρ) .drawing (parametrize cat) := by
  unfold parametrize
  split_ifs
  · exact .bind (Plain.keeps (statementWeights_searching _)) fun base => install_keeps cat base
  · exact install_keeps cat _

theorem ensureParametrized_keeps (cat : Category) :
    Keeps (ρ := ρ) .drawing (ensureParametrized cat) := by
  refine .bind .get fun s => ?_
  split
  · exact .pure ()
  · exact parametrize_keeps cat

theorem pinZero_keeps (cat : Category) (op : Opcode) :
    Keeps (ρ := ρ) .drawing (pinZero cat op) :=
  .bind (ensureParametrized_keeps cat) fun _ =>
    .modify fun _ _ => ⟨.pin .refl cat op, fun _ h => h, rfl⟩

theorem prune_keeps (cat : Category) (op : Opcode) : Keeps (ρ := ρ) .drawing (prune cat op) := by
  refine .bind (.modify fun c s => ⟨.refl, fun cat' h => ?_, rfl⟩) fun _ => pinZero_keeps cat op
  change cat' ∈ if s.pruned.contains cat then s.pruned else cat :: s.pruned
  split
  · exact h
  · exact List.mem_cons_of_mem _ h

theorem maybeMutate_keeps : Keeps (ρ := ρ) .drawing maybeMutate := by
  refine .bind .read fun c => .bind (Plain.keeps (chance_searching _)) fun b => ?_
  split
  · exact parametrize_keeps .statement
  · exact .pure ()

theorem applyExclusions_keeps (cat : Category) :
    Keeps (ρ := ρ) .drawing (applyExclusions cat) := by
  unfold applyExclusions
  split
  · exact .bind .read fun c => .forM (fun op => pinZero_keeps cat op) _
  · exact .pure ()

theorem addFunctionType_keeps (id : EntryId) :
    Keeps (ρ := ρ) .drawing (addFunctionType id) := by
  refine .bind (.modify fun c s => Upkeep.refl _ c _) fun _ =>
    .bind (Plain.keeps functionsFull_searching) fun full => ?_
  split
  · exact pinZero_keeps _ _
  · exact .pure ()

theorem sample?_aside (cat : Category) : Aside (ρ := ρ) (sample? cat) :=
  Plain.aside (sample?_searching cat)

end Gen

end ShaderGen
