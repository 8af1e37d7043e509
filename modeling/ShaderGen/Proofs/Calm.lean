import ShaderGen.Proofs.Answers

/-!
Steps that cannot stop a session. Where every question has an answer, a step ends in
a value or is infeasible, and it leaves the weights, the scopes and the count of
statements alone. The one thing that such a step may run out of are numbers for the
variables of the module, so these are counted: a step that settles with `k` of
them takes at most `k`, and stops only if they do not fit their word.
-/

namespace ShaderGen

variable {ρ α β : Type} {c : Config}

/-- A state follows another without a change of weights, scopes and statements, and
with at most `k` new variables of the module. -/
structure Still (k : Nat) (s s' : State ρ) : Prop where
  weights : s'.weights = s.weights
  pruned : s'.pruned = s.pruned
  statements : s'.statements = s.statements
  scopes : s'.scopes = s.scopes
  size : s.code.instrs.size ≤ s'.code.instrs.size
  serial : s'.nextSerial ≤ s.nextSerial + k

theorem Still.refl (k : Nat) (s : State ρ) : Still k s s :=
  ⟨rfl, rfl, rfl, rfl, Nat.le_refl _, Nat.le_add_right _ _⟩

theorem Still.trans {j k : Nat} {s s' s'' : State ρ} (h : Still j s s') (h' : Still k s' s'') :
    Still (j + k) s s'' where
  weights := h'.weights.trans h.weights
  pruned := h'.pruned.trans h.pruned
  statements := h'.statements.trans h.statements
  scopes := h'.scopes.trans h.scopes
  size := h.size.trans h'.size
  serial := by
    have := h.serial
    have := h'.serial
    omega

theorem Still.mono {j k : Nat} {s s' : State ρ} (h : Still j s s') (hjk : j ≤ k) :
    Still k s s' :=
  ⟨h.weights, h.pruned, h.statements, h.scopes, h.size, by have := h.serial; omega⟩

theorem State.Shows.still {s s' : State ρ} {scope : ScopeId} {k : Nat} (h : s.Shows scope)
    (h' : Still k s s') : s'.Shows scope := by
  refine ⟨by rw [h'.scopes]; exact h.present, ?_⟩
  rw [h'.scopes]
  exact fun d hd => Nat.lt_of_lt_of_le (h.known d hd) h'.size

namespace Gen

/-- A step ends in a value or infeasible, with at most `k` new variables of the
module, unless there are no numbers left for them. -/
def Settles (k : Nat) (c : Config) (s : State ρ) (x : Gen ρ α) : Prop :=
  Ends x c s (fun _ s' => Still k s s') fun e s' =>
    e = .infeasible ∧ Still k s s' ∨
      e = .stopped (.fault .overflow) ∧ 0 < k ∧ 2 ^ 32 ≤ s.nextSerial + k

/-- A step ends in a value or infeasible and adds no variable to the module. -/
abbrev Calmly (c : Config) (s : State ρ) (x : Gen ρ α) : Prop := Settles 0 c s x

/-- An attempt at a step that keeps a relation: without a value it has been quiet. -/
theorem Leads.attempt {s : State ρ} {x : Gen ρ α} {R : State ρ → α → State ρ → Prop}
    (h : Leads c s x R) : Ends (Gen.attempt x) c s
      (fun o s' => (∀ a, o = some a → R s a s') ∧ (o = none → Quiet c s s')) (Halts c s) := by
  refine Ends.attempt (Ends.mono h ?_ ?_)
  · intro a s' ha
    refine ⟨fun b hb => ?_, nofun⟩
    cases hb
    exact ha
  · rintro (_ | cause) s' he
    · exact ⟨nofun, fun _ => he⟩
    · exact he

namespace Settles

variable {j k : Nat} {s : State ρ} {x : Gen ρ α} {f : α → Gen ρ β}

theorem mono (h : Settles j c s x) (hjk : j ≤ k) : Settles k c s x := by
  refine Ends.mono h (fun _ _ h => h.mono hjk) ?_
  rintro e s' (⟨rfl, h⟩ | ⟨rfl, hpos, hfull⟩)
  · exact .inl ⟨rfl, h.mono hjk⟩
  · exact .inr ⟨rfl, by omega, by omega⟩

/-- Steps that settle settle one after the other; what is known of the first one
may come from elsewhere. -/
theorem bind {ok : α → State ρ → Prop} {bad : Ending → State ρ → Prop} (hx : Settles j c s x)
    (h : Ends x c s ok bad)
    (hf : ∀ a s', ok a s' → Still j s s' → Settles k c s' (f a)) :
    Settles (j + k) c s (x >>= f) := by
  refine Ends.bind (Ends.mono (hx.and h) ?_ ?_)
  · rintro a s' ⟨hstill, ha⟩
    refine Ends.mono (hf a s' ha hstill) (fun _ _ h => hstill.trans h) ?_
    rintro e s'' (⟨rfl, h⟩ | ⟨rfl, hpos, hfull⟩)
    · exact .inl ⟨rfl, hstill.trans h⟩
    · exact .inr ⟨rfl, by omega, by have := hstill.serial; omega⟩
  · rintro e s' ⟨⟨rfl, h⟩ | ⟨rfl, hpos, hfull⟩, -⟩
    · exact .inl ⟨rfl, h.mono (Nat.le_add_right _ _)⟩
    · exact .inr ⟨rfl, by omega, by omega⟩

/-- A step that goes by where the session stands. -/
theorem get_bind {f : State ρ → Gen ρ α} (h : Settles k c s (f s)) :
    Settles k c s (MonadState.get >>= f) := Ends.bind (Ends.get h)

/-- A computation that succeeds in front of a step. -/
theorem checked_bind {r : Except Fault β} {g : β → Gen ρ α} {b : β} (h : r = .ok b)
    (hg : Settles k c s (g b)) : Settles k c s (Gen.checked r >>= g) := by
  rw [h]
  exact Ends.bind hg

/-- A question with an answer in front of a step. -/
theorem query_bind {f : Module → Except Fault β} {g : β → Gen ρ α}
    (h : ∃ b, f s.code = .ok b) (hg : ∀ b, f s.code = .ok b → Settles k c s (g b)) :
    Settles k c s (Gen.query f >>= g) := by
  obtain ⟨b, hb⟩ := h
  refine Ends.bind (Ends.bind (Ends.get ?_))
  rw [hb]
  exact hg b hb

theorem pure {a : α} : Settles k c s (Pure.pure a : Gen ρ α) := Still.refl k s

theorem infeasible : Settles k c s (Gen.infeasible : Gen ρ α) := .inl ⟨rfl, .refl k s⟩

theorem attempt (h : Settles k c s x) : Settles k c s (Gen.attempt x) := by
  refine Ends.attempt (Ends.mono h (fun _ _ h => h) ?_)
  rintro e s' (⟨rfl, h⟩ | ⟨rfl, h⟩)
  · exact h
  · exact .inr ⟨rfl, h⟩

end Settles

namespace Calmly

variable {k : Nat} {s : State ρ} {x : Gen ρ α} {f : α → Gen ρ β}

/-- A calm step in front of one that settles. -/
theorem bind {ok : α → State ρ → Prop} {bad : Ending → State ρ → Prop} (hx : Calmly c s x)
    (h : Ends x c s ok bad)
    (hf : ∀ a s', ok a s' → Still 0 s s' → Settles k c s' (f a)) : Settles k c s (x >>= f) :=
  Nat.zero_add k ▸ Settles.bind hx h hf

/-- What a quiet step leaves behind is known from elsewhere. -/
theorem seq {post : α → State ρ → Prop} (hx : Calmly c s x) (h : Quietly c s x post)
    (hf : ∀ a s', Quiet c s s' → post a s' → Settles k c s' (f a)) : Settles k c s (x >>= f) :=
  hx.bind h fun a s' ha _ => hf a s' ha.1 ha.2

/-- Nothing but where the first step leaves the session matters to the second. -/
theorem andThen (hx : Calmly c s x) (hf : ∀ a s', Still 0 s s' → Settles k c s' (f a)) :
    Settles k c s (x >>= f) :=
  hx.bind Ends.trivial fun a s' _ h => hf a s' h

/-- A calm step that produces nothing is infeasible. -/
theorem eq_infeasible {s' : State ρ} {e : Ending} (h : e = .infeasible ∧ Still 0 s s' ∨
    e = .stopped (.fault .overflow) ∧ 0 < 0 ∧ 2 ^ 32 ≤ s.nextSerial + 0) : e = .infeasible := by
  rcases h with ⟨rfl, _⟩ | ⟨_, hpos, _⟩
  · rfl
  · exact absurd hpos (Nat.lt_irrefl 0)

theorem get : Calmly c s (MonadState.get : Gen ρ (State ρ)) := Still.refl 0 s

theorem read : Calmly c s (MonadReader.read : Gen ρ Config) := Still.refl 0 s

theorem draw {f : ρ → α × ρ} : Calmly c s (Gen.draw f) :=
  ⟨rfl, rfl, rfl, rfl, Nat.le_refl _, Nat.le_refl _⟩

theorem require {o : Option α} : Calmly c s (Gen.require o : Gen ρ α) :=
  Ends.require (fun _ _ => Still.refl 0 s) (.inl ⟨rfl, .refl 0 s⟩)

/-- A computation that succeeds. -/
theorem checked {r : Except Fault α} (h : ∃ a, r = .ok a) :
    Calmly c s (Gen.checked r : Gen ρ α) := by
  obtain ⟨a, rfl⟩ := h
  exact Still.refl 0 s

/-- A question that has an answer. -/
theorem query {f : Module → Except Fault α} (h : ∃ a, f s.code = .ok a) :
    Calmly c s (Gen.query f : Gen ρ α) :=
  Ends.bind (Ends.get (checked h))

theorem ask {f : State ρ → Except Fault α} (h : ∃ a, f s = .ok a) :
    Calmly c s (Gen.ask f : Gen ρ α) :=
  Ends.bind (Ends.get (checked h))

/-- A change of the module that removes no instruction. -/
theorem build {f : Module → α × Module}
    (h : s.code.instrs.size ≤ (f s.code).2.instrs.size) :
    Calmly c s (Gen.build f : Gen ρ α) :=
  Ends.build ⟨rfl, rfl, rfl, rfl, h, Nat.le_refl _⟩

theorem internType (ty : Ty) : Calmly c s (Gen.internType ty : Gen ρ EntryId) :=
  build (Nat.le_refl _)

theorem internConst (k : Const) : Calmly c s (Gen.internConst k : Gen ρ EntryId) :=
  build (Nat.le_refl _)

theorem annotate (a : Annotation) : Calmly c s (Gen.annotate a : Gen ρ Unit) :=
  build (Nat.le_refl _)

theorem alloc (i : Instr) : Calmly c s (Gen.alloc i : Gen ρ InstrId) :=
  build (by simp [Module.alloc])

/-! ### Lists -/

theorem mapM {f : β → Gen ρ α} {post : β → α → State ρ → Prop} {xs : List β} (hs : s.Sound c)
    (hq : ∀ b ∈ xs, ∀ s', Quiet c s s' → Quietly c s' (f b) (post b))
    (hf : ∀ b ∈ xs, ∀ s', Quiet c s s' → Still 0 s s' → Calmly c s' (f b)) :
    Calmly c s (xs.mapM f) := by
  induction xs generalizing s with
  | nil => exact Settles.pure
  | cons b xs ih =>
    rw [List.mapM_cons]
    refine (hf b (by simp) s (.refl hs) (.refl 0 s)).bind (hq b (by simp) s (.refl hs)) ?_
    rintro a s₁ ⟨q₁, _⟩ h₁
    refine Calmly.andThen (ih q₁.sound (fun b hb s' q => hq b (by simp [hb]) s' (q₁.trans q)) ?_)
      fun _ _ _ => Settles.pure
    exact fun b hb s' q h => hf b (by simp [hb]) s' (q₁.trans q) (h₁.trans h)

/-- Steps that are calm wherever the session stands. -/
theorem each {f : β → Gen ρ α} {xs : List β} (hf : ∀ b ∈ xs, ∀ s', Calmly c s' (f b)) :
    Calmly c s (xs.mapM f) := by
  induction xs generalizing s with
  | nil => exact Settles.pure
  | cons b xs ih =>
    rw [List.mapM_cons]
    refine (hf b (by simp) s).andThen fun _ _ _ => ?_
    exact Calmly.andThen (ih fun b hb => hf b (by simp [hb])) fun _ _ _ => Settles.pure

theorem forM {f : β → Gen ρ Unit} {xs : List β} (hf : ∀ b ∈ xs, ∀ s', Calmly c s' (f b)) :
    Calmly c s (xs.forM f) := by
  induction xs generalizing s with
  | nil => exact Settles.pure
  | cons b xs ih =>
    exact (hf b (by simp) s).andThen fun _ _ _ => ih fun b hb => hf b (by simp [hb])

end Calmly

end Gen

end ShaderGen
