import Mathlib.Data.List.Forall2
import ShaderGen.Proofs.Queries
import ShaderGen.Proofs.Scopes
import ShaderGen.Proofs.Step
import ShaderGen.Proofs.Streams

/-!
What holds in every state of a session. `State.Sound` is the invariant: entries
keep their rules, instructions are typed, scopes are a tree. Most steps only read
and intern; such a step is `Quiet`, and quiet steps follow each other by
`Quietly.seq`. A step that turns out infeasible has been quiet too, and the
invariant holds where a session stops.
-/

namespace ShaderGen

variable {ρ α β : Type} {c : Config}

/-! ### The invariant -/

/-- The state of a session under a configuration is as it should be. -/
structure State.Sound (c : Config) (s : State ρ) : Prop where
  table : s.code.table.WellFormed c
  typed : ∀ {k : Nat} {i : Instr}, s.code.instrs[k]? = some i → s.code.Typed i
  scopes : s.scopes.WellFormed
  annotated : ∀ a ∈ s.code.annotations, a.target.index < s.code.table.size
  listed : ∀ ty ∈ s.functionTypes, ∃ r params, s.code.table.IsType ty (.function r params)
  few : s.functionTypes.size ≤ c.maxFunctions

/-- A state follows another by reading and interning alone. -/
structure Quiet (c : Config) (s s' : State ρ) : Prop where
  sound : s'.Sound c
  later : s.code ≤ s'.code
  instrs : s'.code.instrs = s.code.instrs
  scopes : s'.scopes = s.scopes
  functionTypes : s'.functionTypes = s.functionTypes

namespace Quiet

variable {s s' s'' : State ρ}

theorem refl (hs : s.Sound c) : Quiet c s s := ⟨hs, le_refl _, rfl, rfl, rfl⟩

theorem trans (h : Quiet c s s') (h' : Quiet c s' s'') : Quiet c s s'' :=
  ⟨h'.sound, h.later.trans h'.later, h'.instrs.trans h.instrs, h'.scopes.trans h.scopes,
    h'.functionTypes.trans h.functionTypes⟩

theorem table_le (h : Quiet c s s') : s.code.table ≤ s'.code.table := h.later.table

theorem grows (h : Quiet c s s') : Module.Extends s.code s'.code :=
  ⟨h.later, fun hi => by rw [h.instrs]; exact hi⟩

/-- Only the code, the scopes and the function types matter to the invariant. -/
theorem of_eq (hs : s.Sound c) (hcode : s'.code = s.code) (hscopes : s'.scopes = s.scopes)
    (htypes : s'.functionTypes = s.functionTypes) : Quiet c s s' where
  sound := {
    table := by rw [hcode]; exact hs.table
    typed := by rw [hcode]; exact hs.typed
    scopes := by rw [hscopes]; exact hs.scopes
    annotated := by rw [hcode]; exact hs.annotated
    listed := by rw [hcode, htypes]; exact hs.listed
    few := by rw [htypes]; exact hs.few }
  later := by rw [hcode]
  instrs := by rw [hcode]
  scopes := hscopes
  functionTypes := htypes

/-- Counting a statement is quiet. -/
theorem counted (hs : s.Sound c) (n : Nat) : Quiet c s { s with statements := n } :=
  of_eq hs rfl rfl rfl

/-- A module that keeps the instructions and the rules of entries may take the
place of the module of a state. -/
theorem of_code (hs : s.Sound c) {m : Module} (hle : s.code ≤ m) (hm : m.instrs = s.code.instrs)
    (hwf : m.table.WellFormed c)
    (hann : ∀ a ∈ m.annotations, a.target.index < m.table.size) :
    Quiet c s { s with code := m } where
  sound := {
    table := hwf
    typed := fun hi => (hs.typed (by rw [← hm]; exact hi)).mono hle
    scopes := hs.scopes
    annotated := hann
    listed := fun ty hty => by
      obtain ⟨r, params, h⟩ := hs.listed ty hty
      exact ⟨r, params, hle.table h⟩
    few := hs.few }
  later := hle
  instrs := hm
  scopes := rfl
  functionTypes := rfl

theorem intern (hs : s.Sound c) {e : Entity} (he : e.WellFormed c s.code.table) :
    Quiet c s { s with code := (s.code.intern e).2 } := by
  have hle := s.code.table.le_intern e
  refine of_code hs ⟨hle, fun hi => ⟨_, hi, rfl, rfl⟩, fun hn => hn⟩ rfl (hs.table.intern he) ?_
  intro a ha
  exact Nat.lt_of_lt_of_le (hs.annotated a ha) (Table.size_le hle)

end Quiet

/-- How a step that produces nothing leaves the session: quiet if it was
infeasible, and in order if it stopped. -/
def Halts (c : Config) (s : State ρ) : Ending → State ρ → Prop
  | .infeasible, s' => Quiet c s s'
  | .stopped _, s' => s'.Sound c

/-- A step that is never infeasible leaves a session in order where it stops. -/
def Stops (c : Config) : Ending → State ρ → Prop
  | .infeasible, _ => False
  | .stopped _, s' => s'.Sound c

theorem Stops.halts {s s' : State ρ} {e : Ending} (h : Stops c e s') : Halts c s e s' := by
  cases e with
  | infeasible => exact h.elim
  | stopped => exact h

theorem Halts.sound {s s' : State ρ} {e : Ending} (h : Halts c s e s') : s'.Sound c := by
  cases e with
  | infeasible => exact Quiet.sound h
  | stopped => exact h

theorem Stops.sound {s' : State ρ} {e : Ending} (h : Stops c e s') : s'.Sound c := by
  cases e with
  | infeasible => exact h.elim
  | stopped => exact h

theorem Halts.after {s s' s'' : State ρ} {e : Ending} (h : Quiet c s s') (h' : Halts c s' e s'') :
    Halts c s e s'' := by
  cases e with
  | infeasible => exact h.trans h'
  | stopped => exact h'

namespace Gen

/-! ### Quiet steps -/

/-- A step is quiet, and its value and the state after it satisfy `post`. -/
def Quietly (c : Config) (s : State ρ) (x : Gen ρ α) (post : α → State ρ → Prop) : Prop :=
  Ends x c s (fun a s' => Quiet c s s' ∧ post a s') (Halts c s)

namespace Quietly

variable {s : State ρ} {x : Gen ρ α} {post : α → State ρ → Prop}

theorem mono {post' : α → State ρ → Prop} (h : Quietly c s x post)
    (hpost : ∀ a s', Quiet c s s' → post a s' → post' a s') : Quietly c s x post' :=
  Ends.mono h (fun a s' ha => ⟨ha.1, hpost a s' ha.1 ha.2⟩) fun _ _ he => he

/-- A quiet step in front of another step. -/
theorem bind {f : α → Gen ρ β} {ok : β → State ρ → Prop} (h : Quietly c s x post)
    (hf : ∀ a s', Quiet c s s' → post a s' → Ends (f a) c s' ok (Halts c s')) :
    Ends (x >>= f) c s ok (Halts c s) :=
  Ends.bind (Ends.mono h (fun a s' ha =>
    (hf a s' ha.1 ha.2).mono (fun _ _ hb => hb) fun _ _ he => he.after ha.1) fun _ _ he => he)

/-- A quiet step in front of another quiet step. -/
theorem seq {f : α → Gen ρ β} {post' : β → State ρ → Prop} (h : Quietly c s x post)
    (hf : ∀ a s', Quiet c s s' → post a s' → Quietly c s' (f a) post') :
    Quietly c s (x >>= f) post' :=
  bind h fun a s' hq ha =>
    Ends.mono (hf a s' hq ha) (fun _ _ hb => ⟨hq.trans hb.1, hb.2⟩) fun _ _ he => he

theorem pure {a : α} (hs : s.Sound c) (h : post a s) : Quietly c s (Pure.pure a) post :=
  ⟨.refl hs, h⟩

theorem infeasible (hs : s.Sound c) : Quietly c s Gen.infeasible post := Quiet.refl hs

theorem stop (hs : s.Sound c) {cause : Stop} : Quietly c s (Gen.stop cause) post := hs

theorem fault (hs : s.Sound c) {f : Fault} : Quietly c s (Gen.fault f) post := hs

theorem get (hs : s.Sound c) : Quietly c s MonadState.get (fun s₁ s' => s₁ = s ∧ s' = s) :=
  ⟨.refl hs, rfl, rfl⟩

theorem read (hs : s.Sound c) :
    Quietly c s MonadReader.read (fun c' s' => c' = c ∧ s' = s) :=
  ⟨.refl hs, rfl, rfl⟩

theorem require {o : Option α} (post : α → State ρ → Prop) (hs : s.Sound c)
    (h : ∀ a, o = some a → post a s) : Quietly c s (Gen.require o) post :=
  Ends.require (fun a ha => ⟨.refl hs, h a ha⟩) (Quiet.refl hs)

theorem checked {r : Except Fault α} (post : α → State ρ → Prop) (hs : s.Sound c)
    (h : ∀ a, r = .ok a → post a s) : Quietly c s (Gen.checked r) post :=
  Ends.checked (fun a ha => ⟨.refl hs, h a ha⟩) fun _ => hs

theorem query (hs : s.Sound c) {f : Module → Except Fault α} :
    Quietly c s (Gen.query f) (fun a s' => s' = s ∧ f s.code = .ok a) :=
  Ends.query (fun _ ha => ⟨.refl hs, rfl, ha⟩) fun _ => hs

/-- A question to which the answer is known. -/
theorem answer (hs : s.Sound c) {f : Module → Except Fault α} {a : α} (h : f s.code = .ok a) :
    Quietly c s (Gen.query f) (fun a' s' => s' = s ∧ a = a') :=
  (query hs).mono fun _ _ _ ha => ⟨ha.1, Except.ok.inj (h.symm.trans ha.2)⟩

theorem typeAt (hs : s.Sound c) (id : EntryId) :
    Quietly c s (Gen.query (·.typeAt id)) (fun ty s' => s' = s ∧ s.code.table.IsType id ty) :=
  (query hs).mono fun _ _ _ ha => ⟨ha.1, Module.typeAt_eq_ok.mp ha.2⟩

/-- A step that goes on with the part of a type at an index. -/
theorem part {ty : EntryId} {index : Nat} {f : EntryId → Gen ρ β} {post' : β → State ρ → Prop}
    (hs : s.Sound c)
    (hf : ∀ part, s.code.table.Part ty index part → Quietly c s (f part) post') :
    Quietly c s (do f (← Gen.require (← Gen.query (·.memberType? ty index)))) post' := by
  refine (query hs).seq ?_
  rintro part? s - ⟨rfl, hpart?⟩
  refine (require (fun part s' => s' = s ∧ part? = some part) hs fun _ h => ⟨rfl, h⟩).seq ?_
  rintro part s - ⟨rfl, rfl⟩
  exact hf part (Module.part_of_memberType? hs.table hpart?)

theorem ask (hs : s.Sound c) {f : State ρ → Except Fault α} :
    Quietly c s (Gen.ask f) (fun a s' => s' = s ∧ f s = .ok a) :=
  Ends.ask (fun _ ha => ⟨.refl hs, rfl, ha⟩) fun _ => hs

/-- A change of anything but the code, the scopes and the function types. -/
theorem modify {f : State ρ → State ρ} (hs : s.Sound c) (hcode : (f s).code = s.code)
    (hscopes : (f s).scopes = s.scopes) (htypes : (f s).functionTypes = s.functionTypes) :
    Quietly c s (modify f) (fun _ s' => s' = f s) :=
  Ends.modify ⟨.of_eq hs hcode hscopes htypes, rfl⟩

theorem draw (hs : s.Sound c) {f : ρ → α × ρ} :
    Quietly c s (Gen.draw f) (fun a s' => s'.code = s.code ∧ a = (f s.source).1) :=
  Ends.draw ⟨.of_eq hs rfl rfl rfl, rfl, rfl⟩

theorem attempt (h : Quietly c s x post) :
    Quietly c s (Gen.attempt x) (fun o s' => ∀ a, o = some a → post a s') := by
  refine Ends.attempt (Ends.mono h ?_ ?_)
  · rintro a s' ⟨hq, ha⟩
    exact ⟨hq, fun b hb => by cases hb; exact ha⟩
  · rintro (_ | cause) s' he
    · exact ⟨he, fun a ha => by cases ha⟩
    · exact he

theorem internEntity (hs : s.Sound c) (e : Entity) (he : e.WellFormed c s.code.table) :
    Quietly c s (build (·.intern e)) (fun answer s' => s'.code.table.get? answer.id = some e) :=
  Ends.build ⟨.intern hs he, s.code.table.get?_intern e⟩

theorem internType (hs : s.Sound c) (ty : Ty) (hty : ty.WellFormed c s.code.table) :
    Quietly c s (Gen.internType ty) (fun id s' => s'.code.table.IsType id ty) :=
  Ends.build ⟨.intern (e := .type ty) hs hty, s.code.table.get?_intern (.type ty)⟩

theorem internConst (hs : s.Sound c) (k : Const) (hk : k.WellFormed s.code.table) :
    Quietly c s (Gen.internConst k) (fun id s' => s'.code.table.IsConst id k) :=
  Ends.build ⟨.intern (e := .const k) hs hk, s.code.table.get?_intern (.const k)⟩

theorem annotate (hs : s.Sound c) (a : Annotation) (ha : a.target.index < s.code.table.size) :
    Quietly c s (Gen.annotate a) (fun _ _ => True) := by
  refine Ends.build ⟨.of_code hs ?_ rfl hs.table fun b hb => ?_, trivial⟩
  · exact ⟨le_refl _, fun hi => ⟨_, hi, rfl, rfl⟩, fun hn => hn⟩
  · rcases Array.mem_push.mp hb with hb | rfl
    · exact hs.annotated b hb
    · exact ha

/-- Importing a set answers the slot of its name. -/
theorem importSet {name : String} (hs : s.Sound c) :
    Quietly c s (build (·.importSet name))
      (fun set s' => s'.code.imports[set.index]? = some name) := by
  refine Ends.build ?_
  unfold Module.importSet
  split
  · rename_i k hk
    refine ⟨.of_eq hs rfl rfl rfl, ?_⟩
    obtain ⟨hlt, heq, _⟩ := Array.findIdx?_eq_some_iff_getElem.mp hk
    rw [Array.getElem?_eq_getElem hlt, eq_of_beq heq]
  · refine ⟨.of_code hs ⟨le_refl _, fun hi => ⟨_, hi, rfl, rfl⟩, fun {k n} hn => ?_⟩ rfl hs.table
      hs.annotated, by simp⟩
    have hlt := (Array.getElem?_eq_some_iff.mp hn).1
    rw [Array.getElem?_push, if_neg (by omega)]
    exact hn

end Quietly

/-- A relation between the states before and after a step and its value, which
quiet steps in front of the step may precede. -/
def Rebases (c : Config) (R : State ρ → α → State ρ → Prop) : Prop :=
  ∀ ⦃s s₁ a s'⦄, Quiet c s s₁ → R s₁ a s' → R s a s'

/-- A step keeps a relation, and otherwise halts in order. -/
def Leads (c : Config) (s : State ρ) (x : Gen ρ α) (R : State ρ → α → State ρ → Prop) : Prop :=
  Ends x c s (R s) (Halts c s)

namespace Quietly

variable {s : State ρ} {x : Gen ρ α} {post : α → State ρ → Prop}

/-- A quiet step in front of one that keeps a relation. -/
theorem lead {f : α → Gen ρ β} {R : State ρ → β → State ρ → Prop} (hR : Rebases c R)
    (h : Quietly c s x post)
    (hf : ∀ a s', Quiet c s s' → post a s' → Leads c s' (f a) R) : Leads c s (x >>= f) R :=
  bind h fun a s' hq ha => (hf a s' hq ha).mono (fun _ _ hb => hR hq hb) fun _ _ he => he

/-! ### Lists -/

/-- A quiet step for each member of a list. -/
theorem mapM {f : β → Gen ρ α} (post : β → α → State ρ → Prop)
    (hmono : ∀ b a s s', Quiet c s s' → post b a s → post b a s') {xs : List β} (hs : s.Sound c)
    (hf : ∀ b ∈ xs, ∀ s', Quiet c s s' → Quietly c s' (f b) (post b)) :
    Quietly c s (xs.mapM f) (fun as s' => List.Forall₂ (fun b a => post b a s') xs as) := by
  induction xs generalizing s with
  | nil => exact pure hs .nil
  | cons b xs ih =>
    rw [List.mapM_cons]
    refine (hf b (by simp) s (.refl hs)).seq fun a s₁ q₁ ha => ?_
    refine (ih q₁.sound fun b hb s' q => hf b (by simp [hb]) s' (q₁.trans q)).seq
      fun as s₂ q₂ has => ?_
    -- What is said of the first value has to hold behind the others, hence `hmono`.
    exact pure q₂.sound (.cons (hmono b a s₁ s₂ q₂ ha) has)

theorem forM {f : β → Gen ρ Unit} {xs : List β} (hs : s.Sound c)
    (hf : ∀ b ∈ xs, ∀ s', Quiet c s s' → Quietly c s' (f b) fun _ _ => True) :
    Quietly c s (xs.forM f) (fun _ _ => True) := by
  induction xs generalizing s with
  | nil => exact pure hs trivial
  | cons b xs ih =>
    refine (hf b (by simp) s (.refl hs)).seq fun _ s₁ q₁ _ => ?_
    exact ih q₁.sound fun b hb s' q => hf b (by simp [hb]) s' (q₁.trans q)

end Quietly

end Gen

/-- A list of answers where each has one. -/
theorem exists_forall₂ {α β : Type} {R : β → α → Prop} {bs : List β} (h : ∀ b ∈ bs, ∃ a, R b a) :
    ∃ as, List.Forall₂ R bs as := by
  induction bs with
  | nil => exact ⟨[], .nil⟩
  | cons b bs ih =>
    obtain ⟨a, ha⟩ := h b (by simp)
    obtain ⟨as, has⟩ := ih fun b hb => h b (by simp [hb])
    exact ⟨a :: as, .cons ha has⟩

theorem forall₂_exists_of_mem {R : β → α → Prop} {bs : List β} {as : List α}
    (h : List.Forall₂ R bs as) {a : α} (ha : a ∈ as) : ∃ b ∈ bs, R b a := by
  induction h with
  | nil => cases ha
  | cons hr _ ih =>
    rcases List.mem_cons.mp ha with rfl | ha
    · exact ⟨_, List.mem_cons_self, hr⟩
    · obtain ⟨b, hb, hr⟩ := ih ha
      exact ⟨b, List.mem_cons_of_mem _ hb, hr⟩

/-- What is said of the numbers below `n` and a list, member by member, is said of
the list and its places. -/
theorem forall₂_range {R : Nat → α → Prop} {n : Nat} {as : List α}
    (h : List.Forall₂ R (List.range n) as) :
    as.length = n ∧ ∀ i a, as[i]? = some a → R i a := by
  have hlen : as.length = n := by simpa using h.length_eq.symm
  refine ⟨hlen, fun i a ha => ?_⟩
  obtain ⟨hi, rfl⟩ := List.getElem?_eq_some_iff.mp ha
  simpa using (List.forall₂_iff_get.mp h).2 i (by simpa [hlen] using hi) hi

namespace Gen

/-! ### Draws -/

section Draws

variable [RandomSource ρ] {s : State ρ}

/-- A yes or no can always be drawn, from a probability that is a number. -/
theorem chance_steadily (hs : s.Sound c) (p : Float) :
    Ends (chance p) c s (fun _ s' => Quiet c s s') (Stops c) := by
  have hdraw (f : ρ → Bool × ρ) : Ends (Gen.draw f) c s (fun _ s' => Quiet c s s') (Stops c) :=
    Ends.draw (.of_eq hs rfl rfl rfl)
  unfold chance
  split_ifs
  · exact hdraw _
  · exact hdraw _
  · exact hdraw _
  · exact hs

theorem chance_quietly (hs : s.Sound c) (p : Float) : Quietly c s (chance p) fun _ _ => True :=
  Ends.mono (chance_steadily hs p) (fun _ _ h => ⟨h, trivial⟩) fun _ _ he => he.halts

/-- A member that is picked is one, and the code stays as it is. -/
theorem pick_quietly (hs : s.Sound c) (items : List α) :
    Quietly c s (pick items) fun a s' => a ∈ items ∧ s'.code = s.code := by
  refine (Quietly.draw hs).seq fun o s₁ q₁ ho => ?_
  refine Quietly.require _ q₁.sound fun a ha => ?_
  obtain ⟨hcode, rfl⟩ := ho
  refine ⟨?_, hcode⟩
  cases items with
  | nil => cases ha
  | cons item items => exact List.mem_of_getElem? ha

theorem range_quietly [BoundedRandomSource ρ] (hs : s.Sound c) {lo hi : Nat} (h : lo ≤ hi) :
    Quietly c s (range lo hi) fun k _ => lo ≤ k ∧ k ≤ hi := by
  refine (Quietly.draw hs).seq fun k s₁ q₁ hk => ?_
  refine Quietly.pure q₁.sound ?_
  have := BoundedRandomSource.below_lt 1 (hi - lo + 1) s.source (by omega)
  rw [← hk.2] at this
  omega

end Draws

end Gen

end ShaderGen
