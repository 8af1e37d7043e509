import Mathlib.Order.Basic
import ShaderGen.Generator.Operands

/-!
How a step can end. `Ends x c s ok bad` speaks of the one run of `x` from `s`:
if it produces a value then `ok` holds of the value and the state after it, and
if it does not then `bad` holds of the ending and the state after that. Every
way of putting steps together has a rule, so a routine is followed in the order
in which it is written and what a step leaves behind is named once.
-/

namespace ShaderGen.Gen

variable {ρ α β : Type}

theorem run_bind (x : Gen ρ α) (f : α → Gen ρ β) (c : Config) (s : State ρ) :
    (x >>= f).run c s =
      match x.run c s with
      | (.ok a, s') => (f a).run c s'
      | (.error e, s') => (.error e, s') := by
  change (match x.run c s with
    | (r, s') => (ExceptT.bindCont (fun a => f a c) r : StateM (State ρ) _) s') = _
  rcases x.run c s with ⟨_ | _, _⟩ <;> rfl

theorem run_map (f : α → β) (x : Gen ρ α) (c : Config) (s : State ρ) :
    (f <$> x).run c s =
      match x.run c s with
      | (.ok a, s') => (.ok (f a), s')
      | (.error e, s') => (.error e, s') := by
  rw [map_eq_pure_bind, run_bind]
  rcases x.run c s with ⟨_ | _, _⟩ <;> rfl

theorem run_tryCatch (x : Gen ρ α) (handle : Ending → Gen ρ α) (c : Config) (s : State ρ) :
    (tryCatch x handle).run c s =
      match x.run c s with
      | (.ok a, s') => (.ok a, s')
      | (.error e, s') => (handle e).run c s' := by
  unfold run
  simp only [tryCatch, tryCatchThe, MonadExceptOf.tryCatch, ExceptT.tryCatch, ReaderT.run,
    ExceptT.mk, bind]
  unfold StateT.bind ExceptT.run
  dsimp only
  rcases x c s with ⟨_ | _, _⟩ <;> rfl

/-- An infeasible step counts as a step that produces nothing. -/
theorem run_attempt (x : Gen ρ α) (c : Config) (s : State ρ) :
    (attempt x).run c s =
      match x.run c s with
      | (.ok a, s') => (.ok (some a), s')
      | (.error .infeasible, s') => (.ok none, s')
      | (.error (.stopped cause), s') => (.error (.stopped cause), s') := by
  rw [attempt, run_tryCatch, run_map]
  rcases x.run c s with ⟨(_ | _) | _, _⟩ <;> rfl

/-- However `x` ends when it is run from `s`: a value and the state after it
satisfy `ok`, any other ending and the state after it satisfy `bad`. -/
def Ends (x : Gen ρ α) (c : Config) (s : State ρ) (ok : α → State ρ → Prop)
    (bad : Ending → State ρ → Prop) : Prop :=
  match x.run c s with
  | (.ok a, s') => ok a s'
  | (.error e, s') => bad e s'

namespace Ends

variable {x : Gen ρ α} {c : Config} {s : State ρ} {ok : α → State ρ → Prop}
  {bad : Ending → State ρ → Prop}

theorem of_run_ok {a : α} {s' : State ρ} (h : Ends x c s ok bad)
    (hrun : x.run c s = (.ok a, s')) : ok a s' := by
  rwa [Ends, hrun] at h

theorem of_run_error {e : Ending} {s' : State ρ} (h : Ends x c s ok bad)
    (hrun : x.run c s = (.error e, s')) : bad e s' := by
  rwa [Ends, hrun] at h

theorem mono {ok' : α → State ρ → Prop} {bad' : Ending → State ρ → Prop}
    (h : Ends x c s ok bad) (hok : ∀ a s', ok a s' → ok' a s')
    (hbad : ∀ e s', bad e s' → bad' e s') : Ends x c s ok' bad' := by
  unfold Ends at h ⊢
  split at h
  · exact hok _ _ h
  · exact hbad _ _ h

theorem trivial : Ends x c s (fun _ _ => True) fun _ _ => True := by
  unfold Ends
  split
  · exact True.intro
  · exact True.intro

/-- What a step ends with is what its run ends with. -/
theorem ran : Ends x c s (fun a s' => x.run c s = (.ok a, s'))
    fun e s' => x.run c s = (.error e, s') := by
  unfold Ends
  split
  · assumption
  · assumption

/-- Two things that hold of one run. -/
theorem and {ok' : α → State ρ → Prop} {bad' : Ending → State ρ → Prop}
    (h : Ends x c s ok bad) (h' : Ends x c s ok' bad') :
    Ends x c s (fun a s' => ok a s' ∧ ok' a s') fun e s' => bad e s' ∧ bad' e s' := by
  unfold Ends at h h' ⊢
  rcases hrun : x.run c s with ⟨_ | _, _⟩ <;> simp only [hrun] at h h' ⊢ <;> exact ⟨h, h'⟩

theorem pure {a : α} (h : ok a s) : Ends (Pure.pure a) c s ok bad := h

theorem bind {f : α → Gen ρ β} {ok : β → State ρ → Prop}
    (h : Ends x c s (fun a s' => Ends (f a) c s' ok bad) bad) :
    Ends (x >>= f) c s ok bad := by
  unfold Ends at h ⊢
  rw [run_bind]
  rcases hrun : x.run c s with ⟨_ | _, _⟩ <;> simpa only [hrun] using h

/-- A step and what follows it, where both may end otherwise in the same ways. -/
theorem seq {f : α → Gen ρ β} {mid : α → State ρ → Prop} {ok : β → State ρ → Prop}
    (h : Ends x c s mid bad) (hf : ∀ a s', mid a s' → Ends (f a) c s' ok bad) :
    Ends (x >>= f) c s ok bad :=
  bind (h.mono hf fun _ _ he => he)

/-- What a step establishes wherever it starts does not depend on the steps before. -/
theorem after {f : α → Gen ρ β} {ok : β → State ρ → Prop}
    (hf : ∀ a s', Ends (f a) c s' ok fun _ _ => True) : Ends (x >>= f) c s ok fun _ _ => True :=
  bind (mono trivial (fun a s' _ => hf a s') fun _ _ _ => True.intro)

theorem map {f : α → β} {ok : β → State ρ → Prop}
    (h : Ends x c s (fun a s' => ok (f a) s') bad) : Ends (f <$> x) c s ok bad := by
  rw [map_eq_pure_bind]
  exact bind (h.mono (fun _ _ ha => ha) fun _ _ he => he)

theorem infeasible (h : bad .infeasible s) : Ends Gen.infeasible c s ok bad := h

theorem stop {cause : Stop} (h : bad (.stopped cause) s) : Ends (Gen.stop cause) c s ok bad := h

theorem fault {f : Fault} (h : bad (.stopped (.fault f)) s) : Ends (Gen.fault f) c s ok bad := h

theorem get {ok : State ρ → State ρ → Prop} (h : ok s s) : Ends MonadState.get c s ok bad := h

theorem read {ok : Config → State ρ → Prop} (h : ok c s) : Ends MonadReader.read c s ok bad := h

theorem modify {f : State ρ → State ρ} {ok : Unit → State ρ → Prop} (h : ok () (f s)) :
    Ends (modify f) c s ok bad := h

theorem draw {f : ρ → α × ρ} (h : ok (f s.source).1 { s with source := (f s.source).2 }) :
    Ends (Gen.draw f) c s ok bad := h

theorem build {f : Module → α × Module} (h : ok (f s.code).1 { s with code := (f s.code).2 }) :
    Ends (Gen.build f) c s ok bad := h

theorem require {o : Option α} (hsome : ∀ a, o = some a → ok a s)
    (hnone : bad .infeasible s) : Ends (Gen.require o) c s ok bad := by
  cases o with
  | none => exact hnone
  | some a => exact hsome a rfl

theorem checked {r : Except Fault α} (hok : ∀ a, r = .ok a → ok a s)
    (herror : ∀ f, bad (.stopped (.fault f)) s) : Ends (Gen.checked r) c s ok bad := by
  cases r with
  | error f => exact herror f
  | ok a => exact hok a rfl

theorem query {f : Module → Except Fault α} (hok : ∀ a, f s.code = .ok a → ok a s)
    (herror : ∀ f, bad (.stopped (.fault f)) s) : Ends (Gen.query f) c s ok bad :=
  bind (get (checked hok herror))

theorem ask {f : State ρ → Except Fault α} (hok : ∀ a, f s = .ok a → ok a s)
    (herror : ∀ f, bad (.stopped (.fault f)) s) : Ends (Gen.ask f) c s ok bad :=
  bind (get (checked hok herror))

theorem attempt {ok : Option α → State ρ → Prop}
    (h : Ends x c s (fun a s' => ok (some a) s') fun
      | .infeasible, s' => ok none s'
      | .stopped cause, s' => bad (.stopped cause) s') : Ends (Gen.attempt x) c s ok bad := by
  unfold Ends at h ⊢
  rw [run_attempt]
  rcases hrun : x.run c s with ⟨(_ | _) | _, _⟩ <;> simpa only [hrun] using h

end Ends

end ShaderGen.Gen
