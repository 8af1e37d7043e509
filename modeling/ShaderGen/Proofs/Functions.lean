import ShaderGen.Generator.Program
import ShaderGen.Proofs.Blocks

/-!
Whole programs. The table is filled by steps that add no instruction and open no
scope, and its first function type is that of the entry point. A function opens a
scope below the root, in which nothing is declared, so what its body may read is
its own; functions that follow each other fill the arena one behind the other.
-/

namespace ShaderGen

namespace Config

theorem require_bind_eq_ok {α : Type} {holds : Bool} {error : Error}
    {f : Unit → Except Error α} {a : α} :
    (require holds error >>= f) = .ok a ↔ holds = true ∧ f () = .ok a := by
  cases holds <;> simp [require, bind, Except.bind]

/-- A configuration that keeps its rules asks for a function. -/
theorem maxFunctions_ne_zero (c : Config) (h : c.validate = .ok ()) : c.maxFunctions ≠ 0 := by
  simp only [validate, require_bind_eq_ok] at h
  obtain ⟨-, -, -, -, -, -, -, -, -, -, -, hmax, -⟩ := h
  simpa using hmax

/-- It allows some depth. -/
theorem maxDepth_ne_zero (c : Config) (h : c.validate = .ok ()) : c.maxDepth ≠ 0 := by
  simp only [validate, require_bind_eq_ok] at h
  obtain ⟨-, -, -, -, -, -, -, -, -, -, -, -, hmax, -⟩ := h
  simpa using hmax

end Config

theorem Module.IsFunction.parameter {m : Module} {ty : EntryId} {f : FunctionParts}
    (h : m.IsFunction ty f) {p : InstrId} (hp : p ∈ f.params) :
    ∃ ty, m.instrs[p.index]? = some ⟨.functionParameter, some ty, []⟩ := by
  obtain ⟨_, _, _, _, hparams⟩ := h.opens
  have hflip := List.Forall₂.flip (R := fun (ty : EntryId) (p : InstrId) =>
    m.instrs[p.index]? = some ⟨.functionParameter, some ty, []⟩) hparams
  obtain ⟨ty, _, hty⟩ := forall₂_exists_of_mem hflip hp
  exact ⟨ty, hty⟩

variable {ρ : Type} {c : Config} {s s' : State ρ} {scope : ScopeId}

theorem State.sound_start (c : Config) (source : ρ) : (State.start source).Sound c where
  table := Table.wellFormed_empty
  typed := by simp [State.start]
  scopes := ScopeTree.wellFormed_start
  annotated := by simp [State.start]
  listed := by simp [State.start]
  few := by simp [State.start]

namespace Gen

variable [RandomSource ρ]

/-! ### The table -/

/-- The entry point's type is listed first. -/
theorem entryPointType_steadily (hs : s.Sound c) (hnone : s.functionTypes = #[])
    (hmax : c.maxFunctions ≠ 0) : Ends entryPointType c s
      (fun _ s' => Enlists c s s' ∧ ∃ ty r, s'.functionTypes = #[ty] ∧
        s'.code.table.IsType ty (.function r []) ∧ s'.code.table.IsType r .void) (Halts c s) := by
  refine (Quietly.internType hs .void trivial).bind fun r s₁ q₁ hr => ?_
  have hty : (Ty.function r []).WellFormed c s₁.code.table := ⟨hr, by simp⟩
  refine (Quietly.internType q₁.sound _ hty).bind fun ty s₂ q₂ hty => ?_
  have q := q₁.trans q₂
  have hroom : s₂.functionTypes.size < c.maxFunctions := by
    rw [q.functionTypes, hnone]
    exact Nat.pos_of_ne_zero hmax
  refine (addFunctionType_steadily q₂.sound hty hroom).mono ?_ fun _ _ he => he.halts
  rintro _ s₃ ⟨he, hlist⟩
  refine ⟨q.enlists.trans he, ty, r, ?_, he.later.table hty, he.later.table (q₂.table_le hr)⟩
  rw [hlist, q.functionTypes, hnone]
  rfl

omit [RandomSource ρ] in
theorem fill_enlists {produce : Gen ρ EntryId} {post : EntryId → State ρ → Prop}
    (hp : ∀ s : State ρ, s.Sound c → Leads c s produce fun s id s' => Enlists c s s' ∧ post id s')
    (isEnough : State ρ → Bool) (attempts : Nat) (hs : s.Sound c) :
    Ends (fill isEnough produce attempts) c s (fun _ s' => Enlists c s s') (Stops c) := by
  induction attempts generalizing s with
  | zero => exact Ends.pure (Quiet.refl hs).enlists
  | succ attempts ih =>
    refine Ends.bind (Ends.get ?_)
    split_ifs
    · exact Ends.pure (Quiet.refl hs).enlists
    · refine Ends.bind (Ends.attempt (Ends.mono (hp s hs) ?_ ?_))
      · rintro id s₁ ⟨he, _⟩
        exact (ih he.sound).mono (fun _ _ he' => he.trans he') fun _ _ he' => he'
      · rintro (_ | cause) s₁ he
        · -- an attempt without a value may still have interned on its way
          exact (ih he.sound).mono (fun _ _ he' => he.enlists.trans he') fun _ _ he' => he'
        · exact he

omit [RandomSource ρ] in
theorem attemptsFor_quietly (hs : s.Sound c) (entries : Nat) :
    Quietly c s (attemptsFor entries) fun _ _ => True :=
  Quietly.checked _ hs fun _ _ => trivial

variable [BoundedRandomSource ρ]

theorem constant_leads (hs : s.Sound c) : Leads c s constant fun s id s' =>
    Enlists c s s' ∧ ∃ ty, s'.code.table.HasConst id ty :=
  Ends.mono (constant_quietly hs) (fun _ _ h => h.imp_left Quiet.enlists) fun _ _ he => he

/-- Filling the table adds no instruction and leaves the tree of scopes alone. -/
theorem globalTable_ends (hs : s.Sound c) (hnone : s.functionTypes = #[])
    (hmax : c.maxFunctions ≠ 0) : Ends globalTable c s
      (fun _ s' => Enlists c s s' ∧ ∃ ty r rest, s'.functionTypes.toList = ty :: rest ∧
        s'.code.table.IsType ty (.function r []) ∧ s'.code.table.IsType r .void)
      (fun _ s' => s'.Sound c) := by
  refine Ends.bind ((entryPointType_steadily hs hnone hmax).mono ?_ fun _ _ he => he.sound)
  rintro _ s₁ ⟨h₁, ty, r, hlist, hty, hr⟩
  refine Ends.bind (Ends.read (Ends.bind ?_))
  refine Ends.mono (attemptsFor_quietly h₁.sound _) ?_ fun _ _ he => he.sound
  rintro types s₂ ⟨q₂, _⟩
  refine Ends.bind ((fill_enlists (fun _ hs => type_leads hs) _ types q₂.sound).mono ?_
    fun _ _ he => he.sound)
  intro _ s₃ h₃
  refine Ends.bind (Ends.read (Ends.bind ?_))
  refine Ends.mono (attemptsFor_quietly h₃.sound _) ?_ fun _ _ he => he.sound
  rintro constants s₄ ⟨q₄, _⟩
  refine Ends.bind ((fill_enlists (fun _ hs => constant_leads hs) _ constants q₄.sound).mono ?_
    fun _ _ he => he.sound)
  intro _ s₅ h₅
  refine Ends.bind (Ends.mono (storageBuffers_quietly h₅.sound) ?_ fun _ _ he => he.sound)
  rintro _ s₆ ⟨q₆, _⟩
  refine Ends.bind (Ends.mono (privateVariables_quietly q₆.sound) ?_ fun _ _ he => he.sound)
  rintro _ s₇ ⟨q₇, _⟩
  have hall := q₂.enlists.trans (h₃.trans (q₄.enlists.trans (h₅.trans
    (q₆.enlists.trans q₇.enlists))))
  obtain ⟨rest, hrest⟩ := hall.functionTypes
  refine Ends.pure ⟨h₁.trans hall, ty, r, rest, ?_, hall.later.table hty, hall.later.table hr⟩
  rw [← hrest, hlist]
  rfl

/-! ### Functions -/

end Gen

/-- Nothing is declared in the root scope. -/
def State.BareRoot (s : State ρ) : Prop := s.scopes.get? ScopeTree.root = some {}

theorem State.BareRoot.visible (hs : s.Sound c) (h : s.BareRoot) {d : InstrId} :
    d ∉ s.scopes.visible ScopeTree.root := by
  rw [ScopeTree.mem_visible hs.scopes h]
  simp

/-- What declaring the parameters of a function adds to a session. -/
structure Binds (c : Config) (scope : ScopeId) (s : State ρ) (tys : List EntryId)
    (ids : List InstrId) (s' : State ρ) : Prop where
  sound : s'.Sound c
  grows : s.code.Extends s'.code
  scopes : ScopeTree.SameOff scope s.scopes s'.scopes
  present : s'.HasScope scope
  occupies : Occupies ids s.code.instrs.size s'.code.instrs.size
  params : List.Forall₂
    (fun p ty => s'.code.instrs[p.index]? = some ⟨.functionParameter, some ty, []⟩) ids tys
  visible : ∀ d ∈ s'.scopes.visible scope, d ∈ s.scopes.visible scope ∨ d ∈ ids

/-- A parameter in front of others. -/
theorem Binds.cons {s₁ s₂ : State ρ} {ty : EntryId} {tys : List EntryId} {id : InstrId}
    {ids : List InstrId} (h : Binds c scope s₂ tys ids s')
    (ha : Allocates c s ⟨.functionParameter, some ty, []⟩ id s₁)
    (hd : Declares c scope s₁ [id] s₂) : Binds c scope s (ty :: tys) (id :: ids) s' := by
  have hgrows : s₁.code.Extends s'.code := by
    rw [← hd.code]
    exact h.grows
  have hscopes : ScopeTree.SameOff scope s.scopes s₁.scopes := .of_le (by rw [ha.scopes])
  refine ⟨h.sound, ha.grows.trans hgrows, hscopes.trans (hd.scopes.trans h.scopes), h.present, ?_,
    .cons (hgrows.instr ha.instr) h.params, fun d hshown => ?_⟩
  · have hfirst := ha.occupies (.nil _) (Nat.le_refl _)
    rw [← hd.code] at hfirst
    refine hfirst.append h.occupies ?_ h.grows.size_le
    rw [hd.code]
    exact ha.grows.size_le
  · rcases h.visible d hshown with hshown | hshown
    · have := hd.visible d hshown
      rw [ha.scopes] at this
      exact this.imp_right fun hd => by simp [List.mem_singleton.mp hd]
    · exact .inr (List.mem_cons_of_mem _ hshown)

/-- What a function adds to a session. -/
structure Defines (c : Config) (s : State ρ) (ty : EntryId) (f : FunctionParts) (s' : State ρ) :
    Prop where
  sound : s'.Sound c
  grows : s.code.Extends s'.code
  root : s'.BareRoot
  occupies : Occupies f.stream s.code.instrs.size s'.code.instrs.size
  function : s'.code.IsFunction ty f

section Parts

variable {s₁ s₂ s₃ s₄ s₅ s₆ : State ρ} {ty r : EntryId} {tys : List EntryId}
  {opening entry ret closing : InstrId} {params : List InstrId} {body : Block}
  (h₁ : Allocates c s ⟨.function, some r, [.keyword "None", .entry ty]⟩ opening s₁)
  (h₂ : Opens c ScopeTree.root s₁ scope s₂) (h₃ : Binds c scope s₂ tys params s₃)
  (h₄ : Allocates c s₃ { opcode := .label } entry s₄) (h₅ : Fills c scope s₄ body s₅)
  (h₆ : Allocates c s₅ { opcode := .ret } ret s₆)
  (h₇ : Allocates c s₆ { opcode := .functionEnd } closing s')
include h₁ h₂ h₃ h₄ h₅ h₆ h₇

/-- The parts of a function fill the arena one behind the other, the variables of the body
among its statements. -/
theorem FunctionParts.occupies_of_parts : Occupies (FunctionParts.stream
    ⟨opening, params, entry, body.hoisted.toList, body.stream.toList, ret, closing⟩)
    s.code.instrs.size s'.code.instrs.size := by
  have hfirst := h₁.occupies (.nil _) (Nat.le_refl _)
  have hsize := h₁.grows.size_le
  have hsize₂ := congrArg (fun m : Module => m.instrs.size) h₂.code
  have hsize₃ := h₃.grows.size_le
  have hsize₄ := h₄.grows.size_le
  have hsize₅ := h₅.grows.size_le
  have hsize₆ := h₆.grows.size_le
  rw [← h₂.code] at hfirst
  have hparams := h₄.occupies (hfirst.append h₃.occupies (by omega) hsize₃) (by omega)
  have hbody := h₆.occupies (hparams.append h₅.occupies (by omega) hsize₅) (by omega)
  refine (h₇.occupies hbody (by omega)).perm (List.perm_iff_count.mpr fun id => ?_)
  simp only [FunctionParts.stream, List.count_append, List.count_cons, List.count_nil]
  omega

theorem Defines.of_parts (hroot : s.BareRoot) (hty : s.code.table.IsType ty (.function r tys)) :
    Defines c s ty ⟨opening, params, entry, body.hoisted.toList, body.stream.toList, ret, closing⟩
      s' := by
  -- `gₖ`: what was there after step `k` is there at the end
  have g₆ := h₇.grows
  have g₅ := h₆.grows.trans g₆
  have g₄ := h₅.grows.trans g₅
  have g₃ := h₄.grows.trans g₄
  have g₁ : s₁.code.Extends s'.code := by
    rw [← h₂.code]
    exact h₃.grows.trans g₃
  have hroot₁ : s₁.BareRoot := by
    unfold State.BareRoot
    rw [h₁.scopes]
    exact hroot
  have hne : ScopeTree.root ≠ scope := by
    rintro rfl
    have := h₂.fresh
    rw [hroot₁] at this
    cases this
  -- The root shows nothing, so all the body sees at its start are the parameters.
  have hseen : ∀ d ∈ s₄.scopes.visible scope, d ∈ params := by
    intro d hd
    rw [h₄.scopes] at hd
    refine (h₃.visible d hd).resolve_left fun hd => ?_
    exact hroot₁.visible h₁.sound ((h₂.visible d).mp hd)
  refine ⟨h₇.sound, h₁.grows.trans g₁, ?_,
    FunctionParts.occupies_of_parts h₁ h₂ h₃ h₄ h₅ h₆ h₇, ?_⟩
  · unfold State.BareRoot
    rw [h₇.scopes, h₆.scopes]
    refine h₅.scopes hne ?_
    rw [h₄.scopes]
    exact h₃.scopes hne (h₂.scopes hroot₁)
  · exact {
      opens := ⟨r, tys, (h₁.grows.trans g₁).le.table hty, g₁.instr h₁.instr,
        h₃.params.imp fun _ _ h => g₃.instr h⟩
      entry := g₄.instr h₄.instr
      vars := fun v hv => (h₅.hoisted v hv).grow g₅
      body := by
        obtain ⟨defs, hscoped, _⟩ := h₅.nested
        refine ⟨defs, (hscoped.grow g₅).mono (fun _ _ _ hi => hi) fun d hd => ?_⟩
        exact hd.imp_left (hseen d)
      ret := g₆.instr h₆.instr
      closing := h₇.instr }

end Parts

namespace Gen

theorem parameterOf_steadily (hs : s.Sound c) (scope : ScopeId) {ty : EntryId}
    (hty : s.code.table.IsOf ty .arithmeticType) :
    Ends (parameterOf scope ty) c s (fun id s' => ∃ s₁ : State ρ,
      Allocates c s ⟨.functionParameter, some ty, []⟩ id s₁ ∧ Declares c scope s₁ [id] s')
      (Stops c) := by
  refine (alloc_steadily hs (.functionParameter hty)).seq ?_
  intro id s₁ h₁
  refine (declare_steadily h₁.sound scope id).seq ?_
  exact fun _ s₂ h₂ => Ends.pure ⟨s₁, h₁, h₂⟩

theorem parameters_steadily (hs : s.Sound c) (hscope : s.HasScope scope) {tys : List EntryId}
    (htys : ∀ ty ∈ tys, s.code.table.IsOf ty .arithmeticType) :
    Ends (tys.mapM (parameterOf scope)) c s (Binds c scope s tys) (Stops c) := by
  induction tys generalizing s with
  | nil =>
    exact Ends.pure ⟨hs, .refl _, .of_le (le_refl _), hscope, .nil _, .nil, fun d hd => .inl hd⟩
  | cons ty tys ih =>
    rw [List.mapM_cons]
    refine (parameterOf_steadily hs scope (htys ty (by simp))).seq ?_
    rintro id s₂ ⟨s₁, h₁, h₂⟩
    refine (ih h₂.sound ?_ ?_).seq ?_
    · exact h₂.present (hscope.mono (by rw [h₁.scopes]))
    · rw [h₂.code]
      exact fun ty hty => (htys ty (by simp [hty])).mono h₁.grows.le.table
    · intro ids s₃ h₃
      exact Ends.pure (h₃.cons h₁ h₂)

theorem parameterOf_inner (ty : EntryId) (hs : s.Inner scope) :
    Ends (parameterOf scope ty) c s (fun _ s' => s'.Inner scope) fun _ _ => True := by
  refine .bind (.build (.bind (.bind (.ask (fun _ _ => .modify (.pure fun x hx => ?_))
    fun _ => trivial))))
  rw [ScopeTree.get?_declare, if_pos rfl] at hx
  obtain ⟨y, hy, rfl⟩ := Option.map_eq_some_iff.mp hx
  exact hs y hy

theorem parameters_inner (tys : List EntryId) (hs : s.Inner scope) :
    Ends (tys.mapM (parameterOf scope)) c s (fun _ s' => s'.Inner scope) fun _ _ => True := by
  induction tys generalizing s with
  | nil => exact hs
  | cons ty tys ih =>
    rw [List.mapM_cons]
    refine .bind ((parameterOf_inner ty hs).mono (fun _ s' hs' => ?_) fun _ _ h => h)
    exact .bind ((ih hs').mono (fun _ _ h => h) fun _ _ h => h)

variable [RandomSource ρ] [BoundedRandomSource ρ]

/-- The blocks of functions have a property. -/
def KeepsBlocks (ρ : Type) [RandomSource ρ] (c : Config) (Q : Module → List InstrId → Prop) :
    Prop :=
  ∀ scope (s : State ρ), s.Sound c → s.HasScope scope → s.Inner scope →
    Ends (block scope) c s (fun b s' => Fills c scope s b s' ∧ Q s'.code b.stream.toList) (Stops c)

omit [BoundedRandomSource ρ] in
/-- The body of a function has the property that blocks have. -/
theorem function_keeps {Q : Module → List InstrId → Prop} (hQ : Module.Additive Q)
    (hblock : KeepsBlocks ρ c Q) (hs : s.Sound c) (hroot : s.BareRoot) {ty r : EntryId}
    {tys : List EntryId} (hty : s.code.table.IsType ty (.function r tys)) :
    Ends (function ty) c s (fun made s' => ∃ f : FunctionParts,
      (made.1 = f.opening ∧ made.2.toList = f.stream) ∧ Defines c s ty f s' ∧ Q s'.code f.body)
      (Stops c) := by
  obtain ⟨hr, htys⟩ := hs.table.entry hty
  refine Ends.bind (Ends.query (fun found hfound => ?_) fun _ => hs)
  obtain rfl := (Module.typeAt_eq_ok.mp hfound).unique hty
  refine (alloc_steadily hs (.function hty hr)).seq ?_
  intro opening s₁ h₁
  refine Ends.bind (((childScope_steadily h₁.sound _ _).and (childScope_inner _ _ s₁)).mono ?_
    fun _ _ he => he.1)
  rintro scope s₂ ⟨h₂, hinner₂⟩
  refine Ends.bind (((parameters_steadily h₂.sound h₂.present ?_).and
    (parameters_inner _ hinner₂)).mono ?_ fun _ _ he => he.1)
  · rw [h₂.code]
    exact fun ty hty => (htys ty hty).mono h₁.grows.le.table
  rintro params s₃ ⟨h₃, hinner₃⟩
  refine (alloc_steadily h₃.sound .label).seq ?_
  intro entry s₄ h₄
  have hscope : s₄.HasScope scope ∧ s₄.Inner scope := by
    unfold State.HasScope State.Inner
    rw [h₄.scopes]
    exact ⟨h₃.present, hinner₃⟩
  refine (hblock scope s₄ h₄.sound hscope.1 hscope.2).seq ?_
  rintro body s₅ ⟨h₅, hbody⟩
  refine (alloc_steadily h₅.sound .ret).seq ?_
  intro ret s₆ h₆
  refine (alloc_steadily h₆.sound .functionEnd).seq ?_
  intro closing s₇ h₇
  refine Ends.pure ⟨⟨opening, params, entry, body.hoisted.toList, body.stream.toList, ret, closing⟩,
    ⟨rfl, by simp [FunctionParts.stream]⟩, ?_, hQ.grow (h₆.grows.trans h₇.grows) hbody⟩
  exact .of_parts h₁ h₂ h₃ h₄ h₅ h₆ h₇ hroot hty

theorem keepsBlocks_trivial : KeepsBlocks ρ c fun _ _ => True := fun _ _ hs hscope _ =>
  (block_steadily hs hscope).mono (fun _ _ h => ⟨h, ⟨⟩⟩) fun _ _ he => he

theorem function_steadily (hs : s.Sound c) (hroot : s.BareRoot) {ty r : EntryId}
    {tys : List EntryId} (hty : s.code.table.IsType ty (.function r tys)) :
    Ends (function ty) c s (fun made s' => ∃ f : FunctionParts,
      (made.1 = f.opening ∧ made.2.toList = f.stream) ∧ Defines c s ty f s') (Stops c) :=
  (function_keeps .trivial keepsBlocks_trivial hs hroot hty).mono
    (fun _ _ ⟨f, hf, h, _⟩ => ⟨f, hf, h⟩) fun _ _ he => he

end Gen

/-! ### Programs -/

/-- What a list of functions adds to a session. -/
structure DefinesAll (c : Config) (s : State ρ) (tys : List EntryId) (fs : List FunctionParts)
    (s' : State ρ) : Prop where
  sound : s'.Sound c
  grows : s.code.Extends s'.code
  occupies : Occupies (fs.flatMap FunctionParts.stream) s.code.instrs.size s'.code.instrs.size
  functions : List.Forall₂ s'.code.IsFunction tys fs

/-- A shader is made of functions, as many as may be and the first of them its entry
point, and its instructions are those of the arena, each of them once. -/
structure Shader.Assembled (c : Config) (s : Shader) (fs : List FunctionParts) : Prop where
  table : s.code.table.WellFormed c
  typed : ∀ {k : Nat} {i : Instr}, s.code.instrs[k]? = some i → s.code.Typed i
  annotated : ∀ a ∈ s.code.annotations, a.target.index < s.code.table.size
  body : s.body.toList = fs.flatMap FunctionParts.stream
  occupies : Occupies s.body.toList 0 s.code.instrs.size
  functions : ∀ f ∈ fs, ∃ ty, s.code.IsFunction ty f
  few : fs.length ≤ c.maxFunctions
  main : ∃ f rest ty r, fs = f :: rest ∧ s.entryPoint = f.opening ∧ s.code.IsFunction ty f ∧
    s.code.table.IsType ty (.function r []) ∧ s.code.table.IsType r .void

namespace Gen

variable [RandomSource ρ] [BoundedRandomSource ρ]

omit [BoundedRandomSource ρ] in
/-- The bodies of functions have the property that blocks have. -/
theorem functionsOf_keep {Q : Module → List InstrId → Prop} (hQ : Module.Additive Q)
    (hblock : KeepsBlocks ρ c Q) (hs : s.Sound c) (hroot : s.BareRoot) {tys : List EntryId}
    (htys : ∀ ty ∈ tys, ∃ r params, s.code.table.IsType ty (.function r params)) :
    Ends (functionsOf tys) c s (fun made s' => ∃ fs : List FunctionParts,
      List.Forall₂ (fun x (f : FunctionParts) => x.1 = f.opening ∧ x.2.toList = f.stream) made fs ∧
        DefinesAll c s tys fs s' ∧ ∀ f ∈ fs, Q s'.code f.body) (Stops c) := by
  induction tys generalizing s with
  | nil => exact Ends.pure ⟨[], .nil, ⟨hs, .refl _, .nil _, .nil⟩, by simp⟩
  | cons ty tys ih =>
    obtain ⟨r, params, hty⟩ := htys ty (by simp)
    refine (function_keeps hQ hblock hs hroot hty).seq ?_
    rintro x s₁ ⟨f, hx, h₁, hbody⟩
    refine (ih h₁.sound h₁.root ?_).seq ?_
    · intro ty hmem
      obtain ⟨r, params, hty⟩ := htys ty (by simp [hmem])
      exact ⟨r, params, h₁.grows.le.table hty⟩
    · rintro xs s₂ ⟨fs, hxs, h₂, hbodies⟩
      refine Ends.pure ⟨f :: fs, .cons hx hxs, ⟨h₂.sound, h₁.grows.trans h₂.grows, ?_,
        .cons (h₁.function.grow h₂.grows) h₂.functions⟩,
        List.forall_mem_cons.mpr ⟨hQ.grow h₂.grows hbody, hbodies⟩⟩
      rw [List.flatMap_cons]
      exact h₁.occupies.append h₂.occupies h₁.grows.size_le h₂.grows.size_le

/-- The streams of functions in one. -/
theorem foldl_streams {made : List (InstrId × Array InstrId)} {fs : List FunctionParts}
    (h : List.Forall₂ (fun x (f : FunctionParts) => x.1 = f.opening ∧ x.2.toList = f.stream)
      made fs) (stream : Array InstrId) :
    (made.foldl (fun stream x => stream ++ x.2) stream).toList =
      stream.toList ++ fs.flatMap FunctionParts.stream := by
  induction h generalizing stream with
  | nil => simp
  | cons hx _ ih => simp [ih, hx.2]

/-- A program that is finished is made of functions, one of each type that the table lists, and
their bodies have the property that blocks have. -/
theorem program_keeps {Q : Module → List InstrId → Prop} (hQ : Module.Additive Q)
    (hblock : KeepsBlocks ρ c Q) (hmax : c.maxFunctions ≠ 0) (source : ρ) :
    Ends program c (.start source) (fun shader s' => s'.Sound c ∧
      ∃ fs, shader.Assembled c fs ∧ (∀ f ∈ fs, Q shader.code f.body) ∧
        ∃ table, globalTable.run c (.start source) = (.ok (), table) ∧
          fs.length = table.functionTypes.size) (fun _ s' => s'.Sound c) := by
  refine Ends.bind (((globalTable_ends (State.sound_start c source) rfl hmax).and .ran).mono ?_
    fun _ _ he => he.1)
  rintro _ s ⟨⟨hs, ty, r, rest, hlist, hty, hr⟩, hrun⟩
  have hroot : s.BareRoot := by
    unfold State.BareRoot
    rw [hs.scopes]
    rfl
  refine Ends.bind (Ends.bind (Ends.get (Ends.bind ?_)))
  have hlisted : ∀ ty ∈ s.functionTypes.toList,
      ∃ r params, s.code.table.IsType ty (.function r params) := by
    simpa using hs.sound.listed
  refine (functionsOf_keep hQ hblock hs.sound hroot hlisted).mono ?_ fun _ _ he => he.sound
  rintro made s' ⟨fs, hmade, h, hbodies⟩
  have hlength : fs.length = s.functionTypes.size := by
    simpa using h.functions.length_eq.symm
  have hfunctions : ∀ f ∈ fs, ∃ ty, s'.code.IsFunction ty f := fun f hf => by
    obtain ⟨ty, _, hfun⟩ := forall₂_exists_of_mem h.functions hf
    exact ⟨ty, hfun⟩
  have hfew := hs.sound.few
  have hstart : s.code.instrs = #[] := hs.instrs
  obtain ⟨hsound, hgrows, hoccupies, hall⟩ := h
  rw [hstart] at hoccupies
  rw [hlist] at hall
  -- The first type listed is that of the entry point, so the first function is.
  cases hall with
  | cons hmain hothers =>
    cases hmade with
    | cons hx hxs =>
      rename_i f fs x xs
      refine Ends.pure (Ends.bind (Ends.get (Ends.pure
        ⟨hsound, f :: fs, ?_, hbodies, s, hrun, hlength⟩)))
      have hbody := foldl_streams (.cons hx hxs) #[]
      rw [List.nil_append] at hbody
      exact {
        table := hsound.table
        typed := hsound.typed
        annotated := hsound.annotated
        body := hbody
        occupies := hbody ▸ hoccupies
        functions := hfunctions
        few := by omega
        main := ⟨f, fs, ty, r, rfl, hx.1, hmain, hgrows.le.table hty, hgrows.le.table hr⟩ }

/-- A program that is finished is made of functions. -/
theorem program_ends (hmax : c.maxFunctions ≠ 0) (source : ρ) :
    Ends program c (.start source) (fun shader s' => s'.Sound c ∧ ∃ fs, shader.Assembled c fs)
      (fun _ s' => s'.Sound c) :=
  (program_keeps .trivial keepsBlocks_trivial hmax source).mono
    (fun _ _ ⟨hs, fs, h, _⟩ => ⟨hs, fs, h⟩) fun _ _ he => he

end Gen

end ShaderGen
