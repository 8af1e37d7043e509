import ShaderGen.Proofs.Calm
import ShaderGen.Proofs.Functions
import ShaderGen.Proofs.Weighting

/-!
How far a session gets. `Config.Breaks` lists what may stop the session of a valid
configuration before its shader is finished, the budget aside: each has to do with
numbers of the configuration that are too large or with weights among which nothing
can be drawn. A step that `Proceeds` stops for no other reason; it only adds pins,
statements and instructions. Each round of a draw that is infeasible pins a variant
that was not pinned before, so the rounds of a draw suffice.
-/

namespace ShaderGen

open RandomSource (choosable total isDrawable)
open WeightTable (applyPins)

/-! ### Reasons to stop -/

/-- The intervals that the weights of statements are drawn with. -/
def Config.intervals (c : Config) : List Interval :=
  match c.weighting with
  | .uniform => []
  | .gaussian => [c.gaussian.mean, c.gaussian.stdDev]
  | .betaBinomial => [c.betaBinomial.alpha, c.betaBinomial.beta]

/-- What may stop the session of a valid configuration, other than its budget. -/
inductive Config.Breaks (ρ : Type) [RandomSource ρ] (c : Config) : Stop → Prop
  /-- The attempts at types or constants do not fit their word. -/
  | attempts (h : 2 ^ 64 ≤ c.maxTypes * 4 ∨ 2 ^ 64 ≤ c.maxConstants * 4) :
      Breaks ρ c (.fault .overflow)
  /-- No room can be reserved for the list of buffers. -/
  | reservation (h : UInt64.size / 2 ≤ 4 * c.storageBuffers) : Breaks ρ c (.fault .tooLarge)
  /-- The numbers of the variables of the module do not fit their word. -/
  | serials (h : 2 ^ 32 ≤ c.storageBuffers + c.privateVariables) : Breaks ρ c (.fault .overflow)
  /-- The ids of a program do not fit their word. -/
  | ids {source : ρ} {program bounded : Shader} {s : State ρ} {count : Nat}
      (hprogram : Gen.program.run c (.start source) = (.ok program, s))
      (hbound : program.boundIndices = .ok (count, bounded))
      (h : 2 ^ 32 ≤ bounded.code.imports.size + bounded.code.table.size + bounded.body.size + 1) :
      Breaks ρ c (.fault .overflow)
  /-- The count of statements may not fit its word. -/
  | count (h : 2 ^ 64 ≤ c.instructionBudget + c.maxDepth + 1) : Breaks ρ c (.fault .overflow)
  /-- An interval is too long to draw from. -/
  | interval {r : Interval} (hr : r ∈ c.intervals) (h : ¬r.max ≤ r.min)
      (hd : isDrawable r.min r.max = false) : Breaks ρ c (.fault .badRange)
  /-- The weights of the statements do not add up. -/
  | sum {base : List Float} (h : c.Weighs ρ base) (pins : List Opcode)
      (hd : choosable (applyPins (pins ++ c.withheld) base Category.statement.members) = true)
      (hsum : (total (applyPins (pins ++ c.withheld) base Category.statement.members)).isFinite =
        false) : Breaks ρ c (.fault .badRange)
  /-- Nothing can be drawn with the weights of the statements. -/
  | weightless {base : List Float} (h : c.Weighs ρ base)
      (hd : choosable (applyPins c.withheld base Category.statement.members) = false) :
      Breaks ρ c (.weightless .statement)

/-- The numbers that are multiplied and reserved for fit their words. -/
structure Config.Fits (c : Config) : Prop where
  types : c.maxTypes * 4 < 2 ^ 64
  constants : c.maxConstants * 4 < 2 ^ 64
  buffers : 4 * c.storageBuffers < UInt64.size / 2

/-- Among equal weights there is one to draw. -/
theorem Config.Breaks.of_uniform {ρ : Type} [RandomSource ρ] {c : Config} {cause : Stop}
    (h : c.Breaks ρ cause) (huniform : c.weighting = .uniform) :
    cause = .fault .overflow ∨ cause = .fault .tooLarge := by
  have hbase : ∀ {base : List Float}, c.Weighs ρ base →
      base = Weights.uniform Category.statement.members.length := by
    rintro _ (_ | h | h)
    · rfl
    · exact absurd (huniform.symm.trans h) nofun
    · exact absurd (huniform.symm.trans h) nofun
  cases h with
  | attempts | serials | ids | count => exact .inl rfl
  | reservation => exact .inr rfl
  | interval hr =>
    rw [Config.intervals, huniform] at hr
    cases hr
  | sum hweighs pins _ hsum =>
    rw [hbase hweighs, Weights.total_uniform_isFinite (by decide)] at hsum
    cases hsum
  | weightless hweighs hd =>
    have hextended : Opcode.iAdd ∉ c.withheld := by
      unfold Config.withheld
      split_ifs
      · exact List.not_mem_nil
      · decide
    rw [hbase hweighs, Weights.choosable_uniform (by decide) (by decide) hextended] at hd
    cases hd

/-- What may stop the session of a valid configuration. -/
def Config.MayStop (ρ : Type) [RandomSource ρ] (c : Config) (cause : Stop) : Prop :=
  cause = .overBudget c.instructionBudget ∨ c.Breaks ρ cause

/-- Nothing in the configuration makes a count run out. -/
theorem Config.MayStop.ne_outOfSteps {ρ : Type} [RandomSource ρ] {c : Config} {cause : Stop}
    (h : c.MayStop ρ cause) : cause ≠ .fault .outOfSteps := by
  rintro rfl
  rcases h with hbudget | hbreaks
  · cases hbudget
  · cases hbreaks

/-- What may stop a session in a state: what may stop any session of its configuration, or a
count of statements that is full. -/
def State.MayStop {ρ : Type} [RandomSource ρ] (c : Config) (s : State ρ) (cause : Stop) : Prop :=
  c.MayStop ρ cause ∨ cause = .fault .overflow ∧ 2 ^ 64 ≤ s.statements + 1

theorem State.MayStop.ne_outOfSteps {ρ : Type} [RandomSource ρ] {c : Config} {s : State ρ}
    {cause : Stop} (h : s.MayStop c cause) : cause ≠ .fault .outOfSteps := by
  rcases h with h | ⟨rfl, -⟩
  · exact h.ne_outOfSteps
  · exact nofun

/-! ### Valid configurations -/

namespace Config

variable {c : Config}

theorem mutationProbability_of_validate (h : c.validate = .ok ()) :
    isProbability c.mutationProbability = true := by
  simp only [validate, require_bind_eq_ok] at h
  exact h.2.1

theorem statementProbability_of_validate (h : c.validate = .ok ()) :
    isProbability c.statementProbability = true := by
  simp only [validate, require_bind_eq_ok] at h
  exact h.1

/-- Integers or floats are left to draw. -/
theorem numeric_of_validate (h : c.validate = .ok ()) :
    Opcode.typeInt ∉ c.excluded ∨ Opcode.typeFloat ∉ c.excluded := by
  simp only [validate, require_bind_eq_ok] at h
  obtain ⟨-, -, -, -, -, -, -, -, -, -, -, -, -, -, h⟩ := h
  obtain ⟨excluded, hexcluded, h⟩ := bind_eq_ok.mp h
  have hboth : (!(excluded.contains .typeInt && excluded.contains .typeFloat)) = true := by
    cases hleft : !(excluded.contains .typeInt && excluded.contains .typeFloat) with
    | true => rfl
    | false =>
      rw [hleft] at h
      cases h
  rw [Config.excluded, hexcluded]
  by_contra hnot
  simp only [not_or, not_not] at hnot
  simp [hnot.1, hnot.2] at hboth

end Config

variable {ρ α β : Type} [RandomSource ρ] {c : Config} {s s' : State ρ}

/-! ### Advances -/

/-- A session has the weights of its configuration, and its scopes know instructions
that are there. -/
structure State.Ready (c : Config) (s : State ρ) : Prop where
  drawn : s.weights.Drawn ρ c s.pruned
  known : ∀ scope x, s.scopes.get? scope = some x →
    ∀ d ∈ x.locals, d.index < s.code.instrs.size

/-- A state follows another, ready for more steps. -/
structure Advances (c : Config) (s s' : State ρ) : Prop where
  ready : s'.Ready c
  weights : s.weights.Grows s'.weights
  pruned : ∀ cat ∈ s.pruned, cat ∈ s'.pruned
  statements : s.statements ≤ s'.statements
  size : s.code.instrs.size ≤ s'.code.instrs.size
  serial : s'.nextSerial ≤ s.nextSerial

namespace Advances

theorem refl (hr : s.Ready c) : Advances c s s :=
  ⟨hr, .refl _, fun _ h => h, Nat.le_refl _, Nat.le_refl _, Nat.le_refl _⟩

theorem trans {s'' : State ρ} (h : Advances c s s') (h' : Advances c s' s'') :
    Advances c s s'' :=
  ⟨h'.ready, h.weights.trans h'.weights, fun cat hcat => h'.pruned cat (h.pruned cat hcat),
    h.statements.trans h'.statements, h.size.trans h'.size, h'.serial.trans h.serial⟩

/-- A calm step advances a session. -/
theorem of_still (hr : s.Ready c) (h : Still 0 s s') : Advances c s s' where
  ready := {
    drawn := by rw [h.weights, h.pruned]; exact hr.drawn
    known := by
      rw [h.scopes]
      exact fun scope x hx d hd => Nat.lt_of_lt_of_le (hr.known scope x hx d hd) h.size }
  weights := h.weights ▸ .refl _
  pruned := by rw [h.pruned]; exact fun _ h => h
  statements := Nat.le_of_eq h.statements.symm
  size := h.size
  serial := h.serial

/-- Other weights, among which nothing new was found infeasible. -/
theorem of_weights (hr : s.Ready c) {t : WeightTable} (ht : t.Drawn ρ c s.pruned)
    (hgrows : s.weights.Grows t) : Advances c s { s with weights := t } :=
  ⟨⟨ht, hr.known⟩, hgrows, fun _ h => h, Nat.le_refl _, Nat.le_refl _, Nat.le_refl _⟩

theorem counted (h : Advances c s s') :
    Advances c s { s' with statements := s'.statements + 1 } :=
  ⟨⟨h.ready.drawn, h.ready.known⟩, h.weights, h.pruned, Nat.le_succ_of_le h.statements, h.size,
    h.serial⟩

end Advances

theorem State.ready_start (c : Config) (source : ρ) : (State.start source).Ready c := by
  refine ⟨WeightTable.drawn_empty, fun scope x hx d hd => ?_⟩
  have hlt := ScopeTree.lt_size_of_get? hx
  have hzero : scope.index = 0 := by
    simpa [State.start] using hlt
  simp [State.start, ScopeTree.get?, hzero] at hx
  subst hx
  exact absurd hd (Array.not_mem_empty d)

/-- A scope that is there shows instructions that are there. -/
theorem State.Ready.shows (hr : s.Ready c) (hs : s.Sound c) {scope : ScopeId}
    (h : s.HasScope scope) : s.Shows scope := by
  obtain ⟨x, hx⟩ := h
  refine ⟨by rw [hx]; rfl, fun d hd => ?_⟩
  have hmem : ∀ k, ∀ scope x, s.scopes.get? scope = some x → scope.index = k →
      ∀ d ∈ s.scopes.visible scope, d.index < s.code.instrs.size := by
    intro k
    induction k using Nat.strongRecOn with
    | ind k ih =>
      intro scope x hx hk d hd
      rcases (ScopeTree.mem_visible hs.scopes hx).mp hd with hd | ⟨p, hp, hd⟩
      · exact hr.known scope x hx d (by simpa using hd)
      · have hlt := hs.scopes hx hp
        obtain ⟨y, hy⟩ := ScopeTree.get?_of_lt_size (t := s.scopes) (s := p) (by
          have := ScopeTree.lt_size_of_get? hx
          omega)
        exact ih p.index (by omega) p y hy rfl d hd
  exact hmem _ scope x hx rfl d hd

namespace Gen

/-- A step advances the session, and its value and the state after it satisfy `post`;
it stops only for a reason that is allowed. -/
def Proceeds (c : Config) (s : State ρ) (x : Gen ρ α) (post : α → State ρ → Prop) : Prop :=
  Ends x c s (fun a s' => Advances c s s' ∧ post a s') fun e s' =>
    e = .infeasible ∧ Advances c s s' ∨ ∃ cause, e = .stopped cause ∧ s'.MayStop c cause

/-- A step that proceeds and is never infeasible. -/
def Completes (c : Config) (s : State ρ) (x : Gen ρ α) (post : α → State ρ → Prop) : Prop :=
  Ends x c s (fun a s' => Advances c s s' ∧ post a s') fun e s' =>
    ∃ cause, e = .stopped cause ∧ s'.MayStop c cause

namespace Proceeds

variable {x : Gen ρ α} {f : α → Gen ρ β} {post : α → State ρ → Prop} {post' : β → State ρ → Prop}

theorem mono {post' : α → State ρ → Prop} (h : Proceeds c s x post)
    (hpost : ∀ a s', Advances c s s' → post a s' → post' a s') : Proceeds c s x post' :=
  Ends.mono h (fun a s' ha => ⟨ha.1, hpost a s' ha.1 ha.2⟩) fun _ _ he => he

/-- What else is known of a step that proceeds may come from elsewhere. -/
theorem bind {ok : α → State ρ → Prop} {bad : Ending → State ρ → Prop} (hx : Proceeds c s x post)
    (h : Ends x c s ok bad)
    (hf : ∀ a s', Advances c s s' → post a s' → ok a s' → Proceeds c s' (f a) post') :
    Proceeds c s (x >>= f) post' := by
  refine Ends.bind (Ends.mono (Ends.and hx h) ?_ fun e s' he => he.1)
  rintro a s' ⟨⟨hadv, hpost⟩, hok⟩
  refine Ends.mono (hf a s' hadv hpost hok) (fun b s'' hb => ⟨hadv.trans hb.1, hb.2⟩) ?_
  rintro e s'' (⟨rfl, he⟩ | he)
  · exact .inl ⟨rfl, hadv.trans he⟩
  · exact .inr he

theorem andThen (hx : Proceeds c s x post)
    (hf : ∀ a s', Advances c s s' → post a s' → Proceeds c s' (f a) post') :
    Proceeds c s (x >>= f) post' :=
  hx.bind Ends.trivial fun a s' hadv ha _ => hf a s' hadv ha

theorem pure {a : α} (hr : s.Ready c) (h : post a s) : Proceeds c s (Pure.pure a) post :=
  ⟨.refl hr, h⟩

theorem infeasible (hr : s.Ready c) : Proceeds c s Gen.infeasible post := .inl ⟨rfl, .refl hr⟩

theorem stop {cause : Stop} (h : c.MayStop ρ cause) : Proceeds c s (Gen.stop cause) post :=
  .inr ⟨_, rfl, .inl h⟩

theorem get_bind {f : State ρ → Gen ρ β} (h : Proceeds c s (f s) post') :
    Proceeds c s (MonadState.get >>= f) post' := Ends.bind (Ends.get h)

/-- A calm step proceeds. -/
theorem of_calmly (hr : s.Ready c) (h : Calmly c s x) : Proceeds c s x fun _ _ => True := by
  refine Ends.mono h (fun _ _ h => ⟨.of_still hr h, trivial⟩) ?_
  rintro e s' (⟨rfl, h⟩ | ⟨_, h, _⟩)
  · exact .inl ⟨rfl, .of_still hr h⟩
  · exact absurd h (Nat.lt_irrefl 0)

end Proceeds

namespace Completes

variable {x : Gen ρ α} {f : α → Gen ρ β} {post : α → State ρ → Prop} {post' : β → State ρ → Prop}

theorem proceeds (h : Completes c s x post) : Proceeds c s x post :=
  Ends.mono h (fun _ _ h => h) fun _ _ he => .inr he

theorem mono {post' : α → State ρ → Prop} (h : Completes c s x post)
    (hpost : ∀ a s', Advances c s s' → post a s' → post' a s') : Completes c s x post' :=
  Ends.mono h (fun a s' ha => ⟨ha.1, hpost a s' ha.1 ha.2⟩) fun _ _ he => he

theorem bind {ok : α → State ρ → Prop} {bad : Ending → State ρ → Prop}
    (hx : Completes c s x post) (h : Ends x c s ok bad)
    (hf : ∀ a s', Advances c s s' → post a s' → ok a s' → Completes c s' (f a) post') :
    Completes c s (x >>= f) post' := by
  refine Ends.bind (Ends.mono (Ends.and hx h) ?_ fun e s' he => he.1)
  rintro a s' ⟨⟨hadv, hpost⟩, hok⟩
  exact Ends.mono (hf a s' hadv hpost hok) (fun b s'' hb => ⟨hadv.trans hb.1, hb.2⟩)
    fun _ _ he => he

theorem andThen (hx : Completes c s x post)
    (hf : ∀ a s', Advances c s s' → post a s' → Completes c s' (f a) post') :
    Completes c s (x >>= f) post' :=
  hx.bind Ends.trivial fun a s' hadv ha _ => hf a s' hadv ha

theorem pure {a : α} (hr : s.Ready c) (h : post a s) : Completes c s (Pure.pure a) post :=
  ⟨.refl hr, h⟩

theorem stop {cause : Stop} (h : c.MayStop ρ cause) : Completes c s (Gen.stop cause) post :=
  ⟨_, rfl, .inl h⟩

theorem get_bind {f : State ρ → Gen ρ β} (h : Completes c s (f s) post') :
    Completes c s (MonadState.get >>= f) post' := Ends.bind (Ends.get h)

theorem read_bind {f : Config → Gen ρ β} (h : Completes c s (f c) post') :
    Completes c s (MonadReader.read >>= f) post' := Ends.bind (Ends.read h)

theorem checked_bind {r : Except Fault α} {a : α} (h : r = .ok a)
    (hf : Completes c s (f a) post') : Completes c s (Gen.checked r >>= f) post' := by
  rw [h]
  exact Ends.bind hf

theorem query_bind {q : Module → Except Fault α} {a : α} (h : q s.code = .ok a)
    (hf : Completes c s (f a) post') : Completes c s (Gen.query q >>= f) post' := by
  refine Ends.bind (Ends.bind (Ends.get ?_))
  rw [h]
  exact hf

theorem modify {f : State ρ → State ρ} {post : Unit → State ρ → Prop} (h : Advances c s (f s))
    (hpost : post () (f s)) : Completes c s (modify f) post := Ends.modify ⟨h, hpost⟩

theorem draw (hr : s.Ready c) {f : ρ → α × ρ}
    (h : post (f s.source).1 { s with source := (f s.source).2 }) :
    Completes c s (Gen.draw f) post :=
  Ends.draw ⟨⟨⟨hr.drawn, hr.known⟩, .refl _, fun _ h => h, Nat.le_refl _, Nat.le_refl _,
    Nat.le_refl _⟩, h⟩

/-- An attempt at a step that proceeds. -/
theorem attempt (h : Proceeds c s x post) :
    Completes c s (Gen.attempt x) fun o s' => ∀ a, o = some a → post a s' := by
  refine Ends.attempt (Ends.mono h ?_ ?_)
  · rintro a s' ⟨hadv, ha⟩
    refine ⟨hadv, fun b hb => ?_⟩
    cases hb
    exact ha
  · rintro e s' (⟨rfl, hadv⟩ | ⟨cause, rfl, h⟩)
    · exact ⟨hadv, nofun⟩
    · exact ⟨cause, rfl, h⟩

end Completes

end Gen

end ShaderGen
