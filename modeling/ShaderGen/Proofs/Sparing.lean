import ShaderGen.Proofs.Interning
import ShaderGen.Proofs.Plain
import ShaderGen.Proofs.Queries
import ShaderGen.Proofs.WellFormed

/-!
What leaves declarations and decorations alone. Plain steps add types, constants and
statements, but no variable and nothing that is said of an entry. Whatever comes behind the
storage buffers may add variables as well, though none that holds a block: only types are
picked for them that carry no decoration. So what is known of buffers and blocks once the
buffers are there is known of the module to the end.
-/

namespace ShaderGen

variable {ρ α β : Type} {c : Config}

/-! ### Modules -/

namespace Module

variable {m m' m'' : Module}

/-- The storage buffers with their slots, in slot order. -/
def bufferVars (m : Module) : List (EntryId × GlobalVar) :=
  m.table.vars.filter fun x => x.2.storage = .storageBuffer

theorem mem_bufferVars {id : EntryId} {v : GlobalVar} :
    (id, v) ∈ m.bufferVars ↔ m.table.get? id = some (.var v) ∧ v.storage = .storageBuffer := by
  rw [bufferVars, List.mem_filter, Table.mem_vars, decide_eq_true_iff]

/-- A pointer of the given storage class to something that is no block. -/
def PointsApart (m : Module) (storage : StorageClass) (pointer : EntryId) : Prop :=
  ∃ pointee, m.table.IsType pointer (.pointer storage pointee) ∧ m.isBlock pointee = false

/-- No variables but storage buffers hold blocks. -/
structure Apart (m : Module) : Prop where
  entries : ∀ id v, m.table.get? id = some (.var v) → v.storage ≠ .storageBuffer →
    m.PointsApart v.storage v.ty
  locals : ∀ i ∈ m.instrs, i.opcode = .var →
    ∃ pointer, i.resultType = some pointer ∧ m.PointsApart .function pointer

/-- A module comes from another without a new variable or decoration. -/
structure Spares (m m' : Module) : Prop where
  later : m.table ≤ m'.table
  annotations : m'.annotations = m.annotations
  vars : m'.table.vars = m.table.vars
  locals : ∀ i ∈ m'.instrs, i.opcode = .var → i ∈ m.instrs

/-- A module comes from another without a new storage buffer or decoration, and no new
variable holds a block. -/
structure SparesBuffers (m m' : Module) : Prop where
  later : m.table ≤ m'.table
  annotations : m'.annotations = m.annotations
  buffers : m'.bufferVars = m.bufferVars
  apart : m.Apart → m'.Apart

theorem isBlock_congr (h : m'.annotations = m.annotations) (id : EntryId) :
    m'.isBlock id = m.isBlock id := by
  rw [isBlock, h, isBlock]

theorem PointsApart.mono {storage : StorageClass} {pointer : EntryId}
    (h : m.PointsApart storage pointer) (hle : m.table ≤ m'.table)
    (hannotations : m'.annotations = m.annotations) : m'.PointsApart storage pointer := by
  obtain ⟨pointee, hpointer, hblock⟩ := h
  exact ⟨pointee, hle hpointer, (isBlock_congr hannotations pointee).trans hblock⟩

theorem Spares.refl (m : Module) : m.Spares m := ⟨le_refl _, rfl, rfl, fun _ hi _ => hi⟩

theorem Spares.trans (h : m.Spares m') (h' : m'.Spares m'') : m.Spares m'' :=
  ⟨h.later.trans h'.later, h'.annotations.trans h.annotations, h'.vars.trans h.vars,
    fun i hi hop => h.locals i (h'.locals i hi hop) hop⟩

theorem SparesBuffers.trans (h : m.SparesBuffers m') (h' : m'.SparesBuffers m'') :
    m.SparesBuffers m'' :=
  ⟨h.later.trans h'.later, h'.annotations.trans h.annotations, h'.buffers.trans h.buffers,
    fun ha => h'.apart (h.apart ha)⟩

theorem Spares.sparesBuffers (h : m.Spares m') : m.SparesBuffers m' where
  later := h.later
  annotations := h.annotations
  buffers := by rw [bufferVars, h.vars, bufferVars]
  apart ha := {
    entries := fun id v hv hstorage => by
      rw [← Table.mem_vars, h.vars, Table.mem_vars] at hv
      exact (ha.entries id v hv hstorage).mono h.later h.annotations
    locals := fun i hi hop => by
      obtain ⟨pointer, hpointer, hpoints⟩ := ha.locals i (h.locals i hi hop) hop
      exact ⟨pointer, hpointer, hpoints.mono h.later h.annotations⟩ }

theorem SparesBuffers.of_eq (h : m' = m) : m.SparesBuffers m' := h ▸ (Spares.refl m).sparesBuffers

theorem spares_intern (m : Module) {e : Entity} (he : e.var? = none) :
    m.Spares (m.intern e).2 :=
  ⟨m.table.le_intern e, rfl, Table.select_intern_of_none m.table he, fun _ hi _ => hi⟩

theorem spares_alloc (m : Module) {i : Instr} (hi : i.opcode ≠ .var) : m.Spares (m.alloc i).2 where
  later := le_refl _
  annotations := rfl
  vars := rfl
  locals i' hi' hop := by
    rcases Array.mem_push.mp hi' with hold | rfl
    · exact hold
    · exact absurd hop hi

theorem spares_setOperand (m : Module) {id : InstrId} {i : Instr} (slot : Nat) (v : Value)
    (hi : m.instrs[id.index]? = some i) (hop : i.opcode ≠ .var) :
    m.Spares (m.setOperand id slot v) where
  later := le_refl _
  annotations := rfl
  vars := rfl
  locals j hj hvar := by
    obtain ⟨k, hk⟩ := Array.mem_iff_getElem?.mp hj
    rw [setOperand, Array.getElem?_modify] at hk
    split at hk
    · rename_i heq
      rw [← heq, hi] at hk
      obtain rfl := Option.some.inj hk
      exact absurd hvar hop
    · exact Array.mem_iff_getElem?.mpr ⟨k, hk⟩

theorem spares_importSet (m : Module) (name : String) : m.Spares (m.importSet name).2 := by
  unfold importSet
  split
  · exact .refl m
  · exact ⟨le_refl _, rfl, rfl, fun _ hi _ => hi⟩

/-- A variable that holds no block may be declared. -/
theorem sparesBuffers_intern (m : Module) {v : GlobalVar} (hstorage : v.storage ≠ .storageBuffer)
    (hv : m.PointsApart v.storage v.ty) : m.SparesBuffers (m.intern (.var v)).2 where
  later := m.table.le_intern _
  annotations := rfl
  buffers := by
    change List.filter _ (m.table.intern (.var v)).2.vars = m.bufferVars
    unfold Table.intern Table.vars
    split
    · rfl
    · rw [Table.select_push, List.filter_append]
      simp [Entity.var?, hstorage, bufferVars, Table.vars]
  apart ha := {
    entries := fun id v' hv' hstorage' => by
      rcases Table.get?_intern_cases hv' with hold | ⟨heq, -⟩
      · exact (ha.entries id v' hold hstorage').mono (m.table.le_intern _) rfl
      · obtain rfl : v' = v := Entity.var.inj heq
        exact hv.mono (m.table.le_intern _) rfl
    locals := fun i hi hop => by
      obtain ⟨pointer, hpointer, hpoints⟩ := ha.locals i hi hop
      exact ⟨pointer, hpointer, hpoints.mono (m.table.le_intern _) rfl⟩ }

theorem sparesBuffers_alloc (m : Module) {pointer : EntryId} (operands : List Operand)
    (hpointer : m.PointsApart .function pointer) :
    m.SparesBuffers (m.alloc ⟨.var, some pointer, operands⟩).2 where
  later := le_refl _
  annotations := rfl
  buffers := rfl
  apart ha := {
    entries := ha.entries
    locals := fun i hi hop => by
      rcases Array.mem_push.mp hi with hold | rfl
      · exact ha.locals i hold hop
      · exact ⟨pointer, rfl, hpointer⟩ }

end Module

/-! ### Steps -/

/-- A state follows another without a new variable or decoration. -/
structure State.Spares (s s' : State ρ) : Prop where
  code : s.code.Spares s'.code
  serial : s'.nextSerial = s.nextSerial

theorem State.Spares.refl (s : State ρ) : s.Spares s := ⟨.refl _, rfl⟩

theorem State.Spares.trans {s s' s'' : State ρ} (h : s.Spares s') (h' : s'.Spares s'') :
    s.Spares s'' := ⟨h.code.trans h'.code, h'.serial.trans h.serial⟩

/-- A state follows another without a new storage buffer or decoration, and no new variable
holds a block. -/
abbrev State.SparesBuffers (s s' : State ρ) : Prop := s.code.SparesBuffers s'.code

namespace Gen

/-- A step relates the states before it and behind it, however it ends. -/
def Relates (R : State ρ → State ρ → Prop) (x : Gen ρ α) : Prop :=
  ∀ c s, Ends x c s (fun _ s' => R s s') fun _ s' => R s s'

theorem Relates.run {R : State ρ → State ρ → Prop} {x : Gen ρ α} (h : Relates R x) (c : Config)
    (s : State ρ) : R s (x.run c s).2 := by
  have hends := h c s
  unfold Ends at hends
  split at hends <;> simp_all

theorem Relates.bind {R : State ρ → State ρ → Prop} {x : Gen ρ α} {g : α → Gen ρ β}
    (htrans : ∀ {s s' s''}, R s s' → R s' s'' → R s s'') (hx : Relates R x)
    (hg : ∀ a, Relates R (g a)) : Relates R (x >>= g) := by
  intro c s
  refine .bind ((hx c s).mono (fun a s₁ h₁ => ?_) fun _ _ he => he)
  exact (hg a c s₁).mono (fun _ _ h₂ => htrans h₁ h₂) fun _ _ h₂ => htrans h₁ h₂

/-- What holds however a step ends holds behind an attempt of it. -/
theorem attempt_ends {x : Gen ρ α} {s : State ρ} {post : State ρ → Prop}
    (h : Ends x c s (fun _ s' => post s') fun _ s' => post s') :
    Ends (attempt x) c s (fun _ s' => post s') fun _ s' => post s' := by
  refine .attempt (h.mono (fun _ _ h => h) ?_)
  rintro (_ | cause) s' h
  · exact h
  · exact h

/-- A relation of sessions that every plain step respects. -/
structure Respected (R : State ρ → State ρ → Prop) : Prop where
  trans : ∀ {s s' s''}, R s s' → R s' s'' → R s s''
  same : ∀ {s s' : State ρ}, s'.code = s.code → s'.nextSerial = s.nextSerial → R s s'
  internType : ∀ (s : State ρ) {t : Ty}, t.opcode ≠ .typeArray →
    R s { s with code := (s.code.internType t).2 }
  internConst : ∀ (s : State ρ) (k : Const), R s { s with code := (s.code.internConst k).2 }
  alloc : ∀ (s : State ρ) {i : Instr}, i.opcode ≠ .var →
    R s { s with code := (s.code.alloc i).2 }

namespace Respected

variable {R : State ρ → State ρ → Prop} (hR : Respected R)
include hR

/-- Steps that leave the module alone are no exception from what plain steps do. -/
theorem indifferent : Indifferent fun _ y => Relates R y := by
  intro α x h c s
  obtain ⟨hcode, hserial⟩ := h c s
  unfold Ends
  rcases hrun : x.run c s with ⟨_ | _, s'⟩
  all_goals
    rw [hrun] at hcode hserial
    exact hR.same hcode hserial

/-- What plain steps do is done by all that is plain but for steps that do it too. -/
theorem plain {x : Gen ρ α} (h : Plain (fun _ y => Relates R y) x) : Relates R x := by
  induction h with
  | but h =>
    cases h with
    | but h => exact h
    | alloc i hi => exact fun _ s => .build (hR.alloc s hi)
    | rescope => exact hR.indifferent _ fun _ _ => ⟨rfl, rfl⟩
  | bind _ _ hx hg => exact .bind hR.trans hx hg
  | attempt _ hx => exact fun c s => attempt_ends (hx c s)
  | internType t h => exact fun _ s => .build (hR.internType s h)
  | internConst k => exact fun _ s => .build (hR.internConst s k)
  | _ => exact hR.indifferent _ fun _ _ => ⟨rfl, rfl⟩

/-- What an import does is done by the instructions that it is for. -/
theorem extended [RandomSource ρ]
    (himport : ∀ s : State ρ, R s { s with code := (s.code.importSet ExtendedOp.setName).2 })
    (scope : ScopeId) : Relates R (Gen.extended scope) := by
  refine hR.plain (extended_plain (fun ty operands => ?_) scope)
  exact .bind (Plain.but fun _ s => .build (himport s)) fun _ => emit_plain _ _ _ nofun

end Respected

theorem respected_of_spares {R : State ρ → State ρ → Prop}
    (htrans : ∀ {s s' s''}, R s s' → R s' s'' → R s s'')
    (hspares : ∀ {s s' : State ρ}, s.Spares s' → R s s') : Respected R where
  trans := htrans
  same hcode hserial := hspares ⟨hcode ▸ .refl _, hserial⟩
  internType s t _ := hspares ⟨s.code.spares_intern (e := .type t) rfl, rfl⟩
  internConst s k := hspares ⟨s.code.spares_intern (e := .const k) rfl, rfl⟩
  alloc s _ hi := hspares ⟨s.code.spares_alloc hi, rfl⟩

theorem respected_spares : Respected (State.Spares (ρ := ρ)) := respected_of_spares .trans id

theorem respected_sparesBuffers : Respected (State.SparesBuffers (ρ := ρ)) :=
  respected_of_spares (fun h h' => h.trans h') fun h => h.code.sparesBuffers

variable [RandomSource ρ] {s : State ρ}

/-! ### Variables that hold no block -/

theorem variableType_ends (c : Config) (s : State ρ) : Ends variableType c s
    (fun ty s' => s'.code = s.code ∧ s.code.isBlock ty = false) fun _ s' => s'.code = s.code := by
  refine .bind (.get (.bind (.checked (fun fitting hfitting => ?_) fun _ => rfl)))
  have hblock : ∀ x ∈ fitting, s.code.isBlock x.1 = false := by
    intro x hx
    obtain ⟨-, htest⟩ := mem_of_filterM hfitting hx
    obtain ⟨data, -, htest⟩ := bind_eq_ok.mp htest
    have hboth : (data && !s.code.isBlock x.1) = true := Except.ok.inj htest
    simpa using (Bool.and_eq_true_iff.mp hboth).2
  refine .bind (.draw (.require (fun ty hty => ⟨rfl, ?_⟩) rfl))
  have hmem : ty ∈ fitting.map Prod.fst := by
    cases hlist : fitting.map Prod.fst with
    | nil =>
      rw [hlist] at hty
      cases hty
    | cons first rest =>
      rw [hlist] at hty
      exact List.mem_of_getElem? hty
  obtain ⟨x, hx, rfl⟩ := List.mem_map.mp hmem
  exact hblock x hx

/-- A variable of a type that is no block. -/
theorem newVariable_sparesBuffers (storage : StorageClass) (hstorage : storage ≠ .storageBuffer)
    {ty : EntryId} (c : Config) (s : State ρ) (hty : s.code.isBlock ty = false) :
    Ends (newVariable storage ty) c s (fun _ s' => s.SparesBuffers s')
      fun _ s' => s.SparesBuffers s' := by
  refine .bind (.build ?_)
  have hspares : s.code.Spares (s.code.internType (.pointer storage ty)).2 :=
    s.code.spares_intern (e := .type (.pointer storage ty)) rfl
  have hpoints : (s.code.internType (.pointer storage ty)).2.PointsApart storage
      (s.code.internType (.pointer storage ty)).1 :=
    ⟨ty, s.code.table.get?_intern (.type (.pointer storage ty)), hty⟩
  generalize s.code.internType (.pointer storage ty) = made at hspares hpoints
  obtain ⟨pointer, m⟩ := made
  -- a constant to start with is all that comes between the pointer and the variable
  have hinitial := respected_spares.plain (initializer_searching ty) c { s with code := m }
  cases storage with
  | storageBuffer => exact absurd rfl hstorage
  | modulePrivate =>
    refine .bind (hinitial.mono (fun initial s₁ h₁ => ?_) fun _ _ h =>
      (hspares.trans h.code).sparesBuffers)
    have h := hspares.trans h₁.code
    refine .bind (.bind (.get (.bind (.checked (fun _ _ => ?_) fun _ => h.sparesBuffers))))
    refine .bind (.modify (.bind (.build (.pure (.pure ?_)))))
    exact h.sparesBuffers.trans
      (s₁.code.sparesBuffers_intern nofun (hpoints.mono h₁.code.later h₁.code.annotations))
  | function =>
    refine .bind (hinitial.mono (fun initial s₁ h₁ => ?_) fun _ _ h =>
      (hspares.trans h.code).sparesBuffers)
    refine .bind (.build (.pure ?_))
    exact (hspares.trans h₁.code).sparesBuffers.trans
      (s₁.code.sparesBuffers_alloc _ (hpoints.mono h₁.code.later h₁.code.annotations))

theorem localVariable_sparesBuffers : Relates (ρ := ρ) State.SparesBuffers localVariable := by
  intro c s
  refine .bind ((variableType_ends c s).mono ?_ fun _ s' h => .of_eq h)
  rintro ty s₁ ⟨hcode, hty⟩
  rw [← hcode] at hty
  refine .bind ((newVariable_sparesBuffers .function nofun c s₁ hty).mono (fun v s₂ h => ?_)
    fun _ _ h => .trans (.of_eq hcode) h)
  replace h := Module.SparesBuffers.trans (.of_eq hcode) h
  cases v with
  | instr => exact .pure h
  | entry => exact .infeasible h

theorem privateVariables_sparesBuffers :
    Relates (ρ := ρ) State.SparesBuffers privateVariables := by
  intro c s
  refine .bind (.read ?_)
  generalize c.privateVariables = count
  induction count generalizing s with
  | zero => exact .pure (.of_eq rfl)
  | succ count ih =>
    have hfound : Ends (attempt variableType) c s
        (fun found s' => s'.code = s.code ∧ ∀ ty, found = some ty → s.code.isBlock ty = false)
        fun _ s' => s'.code = s.code := by
      refine .attempt ((variableType_ends c s).mono ?_ ?_)
      · rintro ty s' ⟨hcode, hty⟩
        exact ⟨hcode, fun _ h => Option.some.inj h ▸ hty⟩
      · rintro (_ | cause) s' hcode
        · exact ⟨hcode, nofun⟩
        · exact hcode
    refine .bind (hfound.mono ?_ fun _ s' h => .of_eq h)
    rintro found s₁ ⟨hcode, hty⟩
    have h₁ : s.SparesBuffers s₁ := .of_eq hcode
    rw [← hcode] at hty
    cases found with
    | none => exact .pure h₁
    | some ty =>
      have hnew := newVariable_sparesBuffers .modulePrivate nofun c s₁ (hty ty rfl)
      refine .bind ((attempt_ends hnew).mono (fun _ s₂ h₂ => ?_) fun _ _ h => h₁.trans h)
      replace h₂ := h₁.trans h₂
      exact .bind ((ih s₂).mono (fun _ s₃ h₃ => .pure (h₂.trans h₃)) fun _ _ h₃ => h₂.trans h₃)

/-! ### Phases -/

/-- Types and constants are drawn without declaring or decorating anything. -/
theorem entryPointType_spares : Relates (ρ := ρ) State.Spares entryPointType :=
  respected_spares.plain (entryPointType_plain respected_spares.indifferent)

omit [RandomSource ρ] in
theorem internType_spares (t : Ty) : Relates (ρ := ρ) State.Spares (internType t) :=
  fun _ s => .build ⟨s.code.spares_intern (e := .type t) rfl, rfl⟩

theorem fillTypes_spares (isEnough : State ρ → Bool) (attempts : Nat) :
    Relates State.Spares (fill isEnough (type .type) attempts) :=
  respected_spares.plain (fill_plain isEnough (typeWithin_plain respected_spares.indifferent
    (fun _ _ => .but (internType_spares _)) _ _) attempts)

theorem fillConstants_spares (isEnough : State ρ → Bool) (attempts : Nat) :
    Relates State.Spares (fill isEnough constant attempts) :=
  respected_spares.plain (fill_plain isEnough (constant_plain respected_spares.indifferent
    fun _ _ => .but (internType_spares _)) attempts)

/-- Functions declare variables of their own, which hold no block. -/
theorem functions_sparesBuffers : Relates (ρ := ρ) State.SparesBuffers functions := by
  have hextended (scope : ScopeId) : Relates (ρ := ρ) State.SparesBuffers (extended scope) :=
    respected_sparesBuffers.extended (fun s => (s.code.spares_importSet _).sparesBuffers) scope
  exact respected_sparesBuffers.plain (functions_plain respected_sparesBuffers.indifferent
    (.but localVariable_sparesBuffers) fun scope => .but (hextended scope))

end Gen

end ShaderGen
