import ShaderGen.Proofs.Bounding
import ShaderGen.Random.Script

/-!
The widths of numbers. A session makes integers and floats of the widths its
configuration enables, with one exception: a bitcast gives an integer the width of a
float. So all widths are enabled, and no shader needs a capability that is not
listed, exactly where every width enabled for floats is enabled for integers.
-/

namespace ShaderGen

/-! ### Reachable states -/

section Reachable

variable {ρ : Type} [RandomSource ρ]

/-- The states a session gets to once its table is filled, by producing statements
in any scopes and in any order, and by opening scopes and declaring instructions in
them. A step that produces nothing counts too. -/
inductive Reachable (c : Config) : State ρ → Prop
  | globalTable (source : ρ) : Reachable c (Gen.run Gen.globalTable c (.start source)).2
  | statement {s : State ρ} (h : Reachable c s) (scope : ScopeId) :
      Reachable c (Gen.run (Gen.statement scope) c s).2
  | variant {s : State ρ} (h : Reachable c s) (scope : ScopeId) (op : Opcode) :
      Reachable c (Gen.run (Gen.variant scope op) c s).2
  | childScope {s : State ρ} (h : Reachable c s) (parent : ScopeId) (function : Option InstrId) :
      Reachable c (Gen.run (Gen.childScope parent function) c s).2
  | declare {s : State ρ} (h : Reachable c s) (scope : ScopeId) (id : InstrId) :
      Reachable c (Gen.run (Gen.declare scope id) c s).2

variable [BoundedRandomSource ρ] {c : Config}

omit [RandomSource ρ] [BoundedRandomSource ρ] in
theorem Gen.Ends.sound {α : Type} {x : Gen ρ α} {s : State ρ} {ok : α → State ρ → Prop}
    {bad : Ending → State ρ → Prop} (h : Ends x c s ok bad) (hok : ∀ a s', ok a s' → s'.Sound c)
    (hbad : ∀ e s', bad e s' → s'.Sound c) : (x.run c s).2.Sound c := by
  rcases hrun : x.run c s with ⟨e | a, s'⟩
  · exact hbad e s' (h.of_run_error hrun)
  · exact hok a s' (h.of_run_ok hrun)

/-- Every step keeps the invariant, whatever it ends in. -/
theorem Reachable.sound (hvalid : c.validate = .ok ()) {s : State ρ} (h : Reachable c s) :
    s.Sound c := by
  induction h with
  | globalTable source =>
    refine (Gen.globalTable_ends (State.sound_start c source) rfl
      (c.maxFunctions_ne_zero hvalid)).sound ?_ fun _ _ he => he
    exact fun _ _ h => h.1.sound
  | statement _ scope ih =>
    exact (Gen.statement_leads ih scope).sound (fun _ _ h => h.sound) fun _ _ he => he.sound
  | variant _ scope op ih =>
    exact (Gen.variant_leads ih scope op).sound (fun _ _ h => h.sound) fun _ _ he => he.sound
  | childScope _ parent function ih =>
    exact (Gen.childScope_steadily ih parent function).sound (fun _ _ h => h.sound)
      fun _ _ he => he.sound
  | declare _ scope id ih =>
    exact (Gen.declare_steadily ih scope id).sound (fun _ _ h => h.sound) fun _ _ he => he.sound

end Reachable

/-! ### Enabled widths -/

namespace Config

/-- The capabilities a configuration enables are the basic one and those listed. -/
def EnablesOnly (c : Config) (caps : List Capability) : Prop :=
  ∀ x, c.enables x = true ↔ x = .shader ∨ x ∈ caps

theorem mem_intWidths {c : Config} {width : Nat} : width ∈ c.intWidths ↔ width = 32 ∨
    width = 8 ∧ c.enables .int8 = true ∨ width = 16 ∧ c.enables .int16 = true ∨
      width = 64 ∧ c.enables .int64 = true := by
  simp only [intWidths, List.mem_filter, List.mem_cons, List.not_mem_nil, or_false]
  constructor
  · rintro ⟨rfl | rfl | rfl | rfl, h⟩ <;> simp_all [allows, Capability.ofIntWidth?]
  · rintro (rfl | ⟨rfl, h⟩ | ⟨rfl, h⟩ | ⟨rfl, h⟩) <;> simp_all [allows, Capability.ofIntWidth?]

theorem mem_floatWidths {c : Config} {width : Nat} : width ∈ c.floatWidths ↔ width = 32 ∨
    width = 16 ∧ c.enables .float16 = true ∨ width = 64 ∧ c.enables .float64 = true := by
  simp only [floatWidths, List.mem_filter, List.mem_cons, List.not_mem_nil, or_false]
  constructor
  · rintro ⟨rfl | rfl | rfl, h⟩ <;> simp_all [allows, Capability.ofFloatWidth?]
  · rintro (rfl | ⟨rfl, h⟩ | ⟨rfl, h⟩) <;> simp_all [allows, Capability.ofFloatWidth?]

end Config

/-- All numbers of a table have enabled widths. -/
structure Table.WidthsEnabled (c : Config) (t : Table) : Prop where
  int : ∀ {id width signed}, t.IsType id (.int width signed) → width ∈ c.intWidths
  float : ∀ {id width}, t.IsType id (.float width) → width ∈ c.floatWidths

/-- Where integers may have the widths of floats a bitcast makes no width that is not
enabled. -/
theorem Table.WellFormed.widthsEnabled {c : Config} {t : Table} (h : t.WellFormed c)
    (hsub : ∀ width ∈ c.floatWidths, width ∈ c.intWidths) : t.WidthsEnabled c where
  int hty := by
    rcases h.entry hty with hwidth | hwidth
    · exact hwidth
    · exact hsub _ hwidth
  float hty := h.entry hty

/-- What a type needs is enabled if its width is. -/
theorem Table.WidthsEnabled.capability {c : Config} {t : Table} (h : t.WidthsEnabled c)
    {id : EntryId} {ty : Ty} (hty : t.IsType id ty) {x : Capability}
    (hx : ty.capability? = some x) : c.enables x = true := by
  cases ty with
  | int width signed =>
    rcases Config.mem_intWidths.mp (h.int hty) with rfl | ⟨rfl, h⟩ | ⟨rfl, h⟩ | ⟨rfl, h⟩ <;>
      cases hx
    all_goals exact h
  | float width =>
    rcases Config.mem_floatWidths.mp (h.float hty) with rfl | ⟨rfl, h⟩ | ⟨rfl, h⟩ <;> cases hx
    all_goals exact h
  | _ => cases hx

/-- A shader needs no capability but the basic one and those of its types. -/
theorem Shader.mem_capabilities {s : Shader} {x : Capability} (h : x ∈ s.capabilities) :
    x = .shader ∨ ∃ id ty, s.code.table.IsType id ty ∧ ty.capability? = some x := by
  simp only [capabilities, List.mem_filter, Bool.or_eq_true, beq_iff_eq, List.contains_iff_mem,
    List.mem_filterMap] at h
  rcases h.2 with h | ⟨⟨id, ty⟩, hty, hx⟩
  · exact .inl h
  · exact .inr ⟨id, ty, Table.mem_types.mp hty, hx⟩

/-! ### Casts to widths that are not enabled -/

/-- A configuration under which little but a float is drawn, with some of the
capabilities listed. -/
def Config.casting (int8 int16 int64 float16 float64 : Bool) : Config where
  maxTypes := 2
  maxConstants := 1
  maxFunctions := 1
  mutationProbability := 0.0
  weighting := .uniform
  storageBuffers := 0
  privateVariables := 0
  capabilities := (if int8 then [.int8] else []) ++ (if int16 then [.int16] else []) ++
    (if int64 then [.int64] else []) ++ (if float16 then [.float16] else []) ++
    (if float64 then [.float64] else [])

/-- The state after one bitcast. -/
def Config.castState (c : Config) (source : Script) : State Script :=
  (Gen.run (Gen.variant ScopeTree.root .bitcast) c
    (Gen.run Gen.globalTable c (.start source)).2).2

/-- Whether a run ends in a shader that needs a capability. -/
def Config.shaderNeeds (c : Config) (source : Script) (x : Capability) : Bool :=
  match c.shaderFrom source with
  | .ok s => s.capabilities.contains x
  | .error _ => false

section

variable (int8 int16 int64 float16 float64 : Bool)

theorem Config.casting_validate :
    (casting int8 int16 int64 float16 float64).validate = .ok () := by
  have hok : (casting int8 int16 int64 float16 float64).validate.isOk = true := by
    revert int8 int16 int64 float16 float64
    decide +kernel
  rcases hvalid : (casting int8 int16 int64 float16 float64).validate with e | _
  · rw [hvalid] at hok
    cases hok
  · rfl

/-- The float of the first width is cast. -/
theorem Config.castState_int16 :
    (castState (casting int8 false int64 true float64) ⟨[2, 1, 0, 0, 0, 1]⟩).code.table.get? ⟨4⟩ =
      some (.type (.int 16 true)) := by
  revert int8 int64 float64
  decide +kernel

/-- The float of the last width is cast. -/
theorem Config.castState_int64 :
    (castState (casting int8 int16 false float16 true) ⟨[2, 1, 5, 0, 1]⟩).code.table.get? ⟨4⟩ =
      some (.type (.int 64 true)) := by
  revert int8 int16 float16
  decide +kernel

theorem Config.shaderNeeds_int16 :
    (casting int8 false int64 true float64).shaderNeeds ⟨[2, 1, 0, 0, 1, 0, 69, 0, 1]⟩ .int16 =
      true := by
  revert int8 int64 float64
  decide +kernel

theorem Config.shaderNeeds_int64 :
    (casting int8 int16 false float16 true).shaderNeeds ⟨[2, 1, 5, 1, 0, 69, 0, 1]⟩ .int64 =
      true := by
  revert int8 int16 float16
  decide +kernel

end

/-! ### Where no other width is used -/

/-- Where each width enabled for floats is enabled for integers all widths are. -/
theorem Config.floatWidths_subset {c : Config} {caps : List Capability} (hcaps : c.EnablesOnly caps)
    (h16 : .float16 ∈ caps → .int16 ∈ caps) (h64 : .float64 ∈ caps → .int64 ∈ caps) :
    ∀ width ∈ c.floatWidths, width ∈ c.intWidths := by
  intro width h
  rw [mem_intWidths]
  rcases mem_floatWidths.mp h with rfl | ⟨rfl, hfloat⟩ | ⟨rfl, hfloat⟩
  · exact .inl rfl
  · refine .inr (.inr (.inl ⟨rfl, (hcaps _).mpr (.inr (h16 ?_))⟩))
    exact ((hcaps _).mp hfloat).resolve_left nofun
  · refine .inr (.inr (.inr ⟨rfl, (hcaps _).mpr (.inr (h64 ?_))⟩))
    exact ((hcaps _).mp hfloat).resolve_left nofun

/-- The configuration that lists what a list has. -/
def Config.castingWith (caps : List Capability) : Config :=
  casting (caps.contains .int8) (caps.contains .int16) (caps.contains .int64)
    (caps.contains .float16) (caps.contains .float64)

theorem Config.castingWith_enablesOnly (caps : List Capability) :
    (castingWith caps).EnablesOnly caps := by
  intro x
  cases x <;> simp [castingWith, casting, enables]

variable (caps : List Capability)

theorem Config.reachable_castState (c : Config) (source : Script) :
    Reachable c (c.castState source) :=
  (Reachable.globalTable source).variant ScopeTree.root .bitcast

theorem Config.exists_of_shaderNeeds {c : Config} {source : Script} {x : Capability}
    (h : c.shaderNeeds source x = true) :
    ∃ s, c.shaderFrom source = .ok s ∧ x ∈ s.capabilities := by
  unfold shaderNeeds at h
  split at h
  · exact ⟨_, ‹_›, List.contains_iff_mem.mp h⟩
  · cases h

/-- The widths that floats and integers share but for the one of 32 bits, with what each
of them needs. -/
def Capability.castPairs : List (Nat × Capability × Capability) :=
  [(16, .float16, .int16), (64, .float64, .int64)]

/-- If the floats of a width are listed and its integers are not, an integer of that
width can be made, in a session and in a shader. -/
theorem Config.castingWith_casts {width : Nat} {float int : Capability}
    (hwidth : (width, float, int) ∈ Capability.castPairs) (hfloat : float ∈ caps)
    (hint : int ∉ caps) :
    (∃ s : State Script, Reachable (castingWith caps) s ∧
      ∃ id, s.code.table.IsType id (.int width true)) ∧
    ∃ (source : Script) (s : Shader), (castingWith caps).shaderFrom source = .ok s ∧
      int ∈ s.capabilities := by
  simp only [Capability.castPairs, List.mem_cons, Prod.mk.injEq, List.not_mem_nil,
    or_false] at hwidth
  rcases hwidth with ⟨rfl, rfl, rfl⟩ | ⟨rfl, rfl, rfl⟩
  · have hcaps : castingWith caps = casting (caps.contains .int8) false (caps.contains .int64)
        true (caps.contains .float64) := by simp [castingWith, hfloat, hint]
    rw [hcaps]
    exact ⟨⟨_, reachable_castState _ _, _, castState_int16 _ _ _⟩,
      _, exists_of_shaderNeeds (shaderNeeds_int16 _ _ _)⟩
  · have hcaps : castingWith caps = casting (caps.contains .int8) (caps.contains .int16) false
        (caps.contains .float16) true := by simp [castingWith, hfloat, hint]
    rw [hcaps]
    exact ⟨⟨_, reachable_castState _ _, _, castState_int64 _ _ _⟩,
      _, exists_of_shaderNeeds (shaderNeeds_int64 _ _ _)⟩

theorem Config.EnablesOnly.mem {c : Config} {caps : List Capability} (h : c.EnablesOnly caps)
    {width : Nat} {float int : Capability}
    (hwidth : (width, float, int) ∈ Capability.castPairs) (hint : width ∈ c.intWidths) :
    int ∈ caps := by
  simp only [Capability.castPairs, List.mem_cons, Prod.mk.injEq, List.not_mem_nil,
    or_false] at hwidth
  rcases hwidth with ⟨rfl, rfl, rfl⟩ | ⟨rfl, rfl, rfl⟩
  · exact ((h .int16).mp (by simpa [mem_intWidths] using hint)).resolve_left nofun
  · exact ((h .int64).mp (by simpa [mem_intWidths] using hint)).resolve_left nofun

/-- All numbers a session makes have widths that its configuration enables, whatever is
drawn and whatever else the configuration says, exactly if the capabilities it lists
have the integers of the widths of their floats; and exactly then no generated shader
needs a capability that is neither the basic one nor listed. -/
theorem Config.widthsEnabled_iff :
    ((∀ c : Config, c.validate = .ok () → c.EnablesOnly caps →
        ∀ (ρ : Type) [RandomSource ρ] [BoundedRandomSource ρ] (s : State ρ), Reachable c s →
          s.code.table.WidthsEnabled c) ↔
      (.float16 ∈ caps → .int16 ∈ caps) ∧ (.float64 ∈ caps → .int64 ∈ caps)) ∧
    ((∀ c : Config, c.validate = .ok () → c.EnablesOnly caps →
        ∀ (ρ : Type) [RandomSource ρ] [BoundedRandomSource ρ] (source : ρ) (s : Shader),
          c.shaderFrom source = .ok s → ∀ x ∈ s.capabilities, x = .shader ∨ x ∈ c.capabilities) ↔
      (.float16 ∈ caps → .int16 ∈ caps) ∧ (.float64 ∈ caps → .int64 ∈ caps)) := by
  have hvalid : (castingWith caps).validate = .ok () := casting_validate _ _ _ _ _
  have hcaps := castingWith_enablesOnly caps
  have h16 : (16, .float16, .int16) ∈ Capability.castPairs := by simp [Capability.castPairs]
  have h64 : (64, .float64, .int64) ∈ Capability.castPairs := by simp [Capability.castPairs]
  -- One way a bitcast refutes each half, the other way a sound table proves it.
  refine ⟨⟨fun h => ?_, ?_⟩, ⟨fun h => ?_, ?_⟩⟩
  · have hint {width : Nat} {float int : Capability}
        (hwidth : (width, float, int) ∈ Capability.castPairs) (hfloat : float ∈ caps) :
        int ∈ caps := by
      by_contra hno
      obtain ⟨⟨s, hs, id, hty⟩, _⟩ := castingWith_casts caps hwidth hfloat hno
      exact hno (hcaps.mem hwidth ((h _ hvalid hcaps _ s hs).int hty))
    exact ⟨hint h16, hint h64⟩
  · rintro ⟨h16, h64⟩ c hvalid hcaps ρ _ _ s hs
    exact (hs.sound hvalid).table.widthsEnabled (floatWidths_subset hcaps h16 h64)
  · have hint {width : Nat} {float int : Capability}
        (hwidth : (width, float, int) ∈ Capability.castPairs) (hfloat : float ∈ caps) :
        int ∈ caps := by
      by_contra hno
      obtain ⟨_, source, s, hs, hx⟩ := castingWith_casts caps hwidth hfloat hno
      -- a capability that is needed and not the basic one would have to be listed
      have henabled : (castingWith caps).enables int = true := by
        rcases h _ hvalid hcaps _ source s hs int hx with rfl | hmem
        · rfl
        · simp [enables, hmem]
      refine hno (((hcaps int).mp henabled).resolve_left ?_)
      rintro rfl
      simp [Capability.castPairs] at hwidth
    exact ⟨hint h16, hint h64⟩
  · rintro ⟨h16, h64⟩ c _ hcaps ρ _ _ source s h x hx
    obtain ⟨fs, n, hs, _, _⟩ := c.assembled_of_shaderFrom h
    have hwidths := hs.table.widthsEnabled (floatWidths_subset hcaps h16 h64)
    rcases s.mem_capabilities hx with rfl | ⟨id, ty, hty, hx⟩
    · exact .inl rfl
    · simpa [enables] using hwidths.capability hty hx

end ShaderGen
