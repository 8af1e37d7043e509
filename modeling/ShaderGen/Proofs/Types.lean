import ShaderGen.Generator.Types
import ShaderGen.Proofs.Dispatch

/-!
Producing types. A type that is produced is one of its category, and the entries it
is made of keep their rules. Only the category of all types produces function
types, which a session lists up to the configured number; any other production of
a type is quiet.
-/

namespace ShaderGen

namespace Table

variable {t : Table} {c : Config} {id scalar : EntryId} {n : Nat}

theorem IsOf.isScalar (h : t.IsOf id .scalarType) : ∃ ty, t.IsType id ty ∧ ty.isScalar = true := by
  obtain ⟨ty, hty, hmem⟩ := h
  exact ⟨ty, hty, Ty.isScalar_of_mem hmem⟩

theorem Lanes.isOf (h : t.Lanes id scalar n) : t.IsOf scalar .scalarType := by
  obtain ⟨ty, hty, hs⟩ := h.isScalar
  refine ⟨ty, hty, ?_⟩
  cases ty <;> first | (simp [Ty.opcode, Category.members]; done) | (simp [Ty.isScalar] at hs)

theorem Lanes.bounds (hwf : t.WellFormed c) (h : t.Lanes id scalar n) : 1 ≤ n ∧ n ≤ 4 := by
  cases h with
  | scalar => omega
  | vector h _ _ =>
    obtain ⟨⟨h2, h4⟩, _⟩ := hwf.entry h
    omega

theorem Lanes.isVector (h : t.Lanes id scalar n) (hn : 2 ≤ n) : t.IsType id (.vector scalar n) := by
  cases h with
  | scalar => omega
  | vector h _ _ => exact h

end Table

variable {ρ : Type} {c : Config} {s : State ρ}

/-- A state follows another by steps that may list function types as well. -/
structure Enlists (c : Config) (s s' : State ρ) : Prop where
  sound : s'.Sound c
  later : s.code ≤ s'.code
  instrs : s'.code.instrs = s.code.instrs
  scopes : s'.scopes = s.scopes
  functionTypes : s.functionTypes.toList <+: s'.functionTypes.toList

theorem Quiet.enlists {s' : State ρ} (h : Quiet c s s') : Enlists c s s' :=
  ⟨h.sound, h.later, h.instrs, h.scopes, h.functionTypes ▸ List.prefix_rfl⟩

theorem Enlists.trans {s' s'' : State ρ} (h : Enlists c s s') (h' : Enlists c s' s'') :
    Enlists c s s'' :=
  ⟨h'.sound, h.later.trans h'.later, h'.instrs.trans h.instrs, h'.scopes.trans h.scopes,
    h.functionTypes.trans h'.functionTypes⟩

/-- A function type that is listed while there is room keeps the session sound. -/
theorem Enlists.push (hs : s.Sound c) {id r : EntryId} {params : List EntryId}
    (hid : s.code.table.IsType id (.function r params))
    (hroom : s.functionTypes.size < c.maxFunctions) :
    Enlists c s { s with functionTypes := s.functionTypes.push id } where
  sound := {
    table := hs.table
    typed := hs.typed
    scopes := hs.scopes
    annotated := hs.annotated
    listed := fun ty hty => by
      rcases Array.mem_push.mp hty with hty | rfl
      · exact hs.listed ty hty
      · exact ⟨r, params, hid⟩
    few := by simpa [Nat.succ_le_iff] using hroom }
  later := le_refl _
  instrs := rfl
  scopes := rfl
  functionTypes := by simp

namespace Gen

variable [RandomSource ρ]

/-! ### Scalars, vectors and matrices -/

theorem intWidth_quietly (hs : s.Sound c) : Quietly c s intWidth fun w _ => w ∈ c.intWidths := by
  refine (Quietly.read hs).seq ?_
  rintro _ _ - ⟨rfl, rfl⟩
  exact (pick_quietly hs _).mono fun _ _ _ h => h.1

theorem floatWidth_quietly (hs : s.Sound c) :
    Quietly c s floatWidth fun w _ => w ∈ c.floatWidths := by
  refine (Quietly.read hs).seq ?_
  rintro _ _ - ⟨rfl, rfl⟩
  exact (pick_quietly hs _).mono fun _ _ _ h => h.1

omit [RandomSource ρ] in
/-- As many lanes of a scalar as are asked for. -/
theorem withComponents_quietly (hs : s.Sound c) {scalar : EntryId} {n : Nat}
    (h : s.code.table.IsOf scalar .scalarType) (hn : 1 ≤ n ∧ n ≤ 4) :
    Quietly c s (withComponents scalar n) fun id s' => s'.code.table.Lanes id scalar n := by
  obtain ⟨ty, hty, hscalar⟩ := h.isScalar
  unfold withComponents
  split_ifs with hle
  · obtain rfl : n = 1 := by omega
    exact .pure hs (.scalar hty hscalar)
  · have hwf : (Ty.vector scalar n).WellFormed c s.code.table := ⟨by omega, h⟩
    exact (Quietly.internType hs _ hwf).mono fun id s' q hid => .vector hid (q.table_le hty) hscalar

omit [RandomSource ρ] in
theorem scalarConstant_quietly (hs : s.Sound c) {ty : Ty} {value : Literal}
    (hty : ty.WellFormed c s.code.table)
    (hvalue : (∃ width signed, ty = .int width signed ∧ value.Fits width signed) ∨
      ∃ width, ty = .float width ∧ value.IsShown width) :
    Quietly c s (scalarConstant ty value) fun id s' =>
      ∃ u, s'.code.table.IsConst id (.scalar u value) ∧ s'.code.table.IsType u ty := by
  refine (Quietly.internType hs _ hty).seq fun u s₁ q₁ hu => ?_
  have hk : (Const.scalar u value).WellFormed s₁.code.table := by
    rcases hvalue with ⟨width, signed, rfl, hfits⟩ | ⟨width, rfl, hshown⟩
    · exact .inl ⟨width, signed, hu, hfits⟩
    · exact .inr ⟨width, hu, hshown⟩
  exact (Quietly.internConst q₁.sound _ hk).mono fun id s' q hid => ⟨u, hid, q.table_le hu⟩

omit [RandomSource ρ] in
theorem indexConstant_quietly (hs : s.Sound c) {n : Nat} (hn : n < 2 ^ 32) :
    Quietly c s (indexConstant n) fun id s' => s'.code.table.IsIndex id n :=
  scalarConstant_quietly hs (.inl c.mem_intWidths_32) (.inl ⟨32, false, rfl, rfl, hn⟩)

section Bounded

variable [BoundedRandomSource ρ]

theorem matrixType_quietly (hs : s.Sound c) : Quietly c s matrixType fun ty s' =>
    ty.WellFormed c s'.code.table ∧ ty.opcode = .typeMatrix := by
  refine (floatWidth_quietly hs).seq fun width s₁ q₁ hwidth => ?_
  refine (Quietly.internType q₁.sound (.float width) hwidth).seq fun scalar s₂ q₂ hscalar => ?_
  refine (range_quietly q₂.sound (by decide)).seq fun rows s₃ q₃ hrows => ?_
  have hscalar₃ := q₃.table_le hscalar
  have hcolumn : (Ty.vector scalar rows).WellFormed c s₃.code.table :=
    ⟨hrows, _, hscalar₃, by simp [Ty.opcode, Category.members]⟩
  refine (Quietly.internType q₃.sound _ hcolumn).seq fun column s₄ q₄ hcol => ?_
  refine (range_quietly q₄.sound (by decide)).seq fun columns s₅ q₅ hcolumns => ?_
  -- A column is asked for by its scalar and its rows, so both are carried to the end.
  refine .pure q₅.sound ⟨⟨hcolumns, scalar, rows, q₅.table_le hcol, width, ?_⟩, rfl⟩
  exact q₅.table_le (q₄.table_le hscalar₃)

/-! ### Types without functions -/

/-- A routine for the parts of types produces types of the category it is asked
for. -/
def Nests (c : Config) (nested : Category → Gen ρ EntryId) : Prop :=
  ∀ cat, cat ≠ .type → ∀ s : State ρ, s.Sound c →
    Quietly c s (nested cat) fun id s' => s'.code.table.IsOf id cat

variable {nested : Category → Gen ρ EntryId}

omit [RandomSource ρ] [BoundedRandomSource ρ] in
/-- Parts of one category. -/
theorem Nests.parts (hn : Nests c nested) (hs : s.Sound c) {cat : Category} (hcat : cat ≠ .type)
    (count : Nat) : Quietly c s ((List.replicate count cat).mapM nested) fun ids s' =>
      ids.length = count ∧ ∀ id ∈ ids, s'.code.table.IsOf id cat := by
  refine (Quietly.mapM (fun cat id s' => s'.code.table.IsOf id cat)
    (fun _ _ _ _ q h => h.mono q.table_le) hs ?_).mono ?_
  · intro cat' hmem s' q
    obtain rfl := List.eq_of_mem_replicate hmem
    exact hn _ hcat s' q.sound
  · intro ids s' _ h
    refine ⟨by simpa using h.length_eq.symm, fun id hid => ?_⟩
    obtain ⟨cat', hmem, hof⟩ := forall₂_exists_of_mem h hid
    exact List.eq_of_mem_replicate hmem ▸ hof

/-- A variant of a type that is not a function type has its opcode. -/
theorem typeVariant_quietly (hn : Nests c nested) (hs : s.Sound c) {op : Opcode}
    (hop : op ≠ .typeFunction) : Quietly c s (typeVariant nested op) fun id s' =>
      ∃ ty, s'.code.table.IsType id ty ∧ ty.opcode = op := by
  unfold typeVariant
  split
  · exact (Quietly.internType hs .bool trivial).mono fun id s' _ h => ⟨_, h, rfl⟩
  · refine (intWidth_quietly hs).seq fun width s₁ q₁ hwidth => ?_
    refine (chance_quietly q₁.sound _).seq fun signed s₂ q₂ _ => ?_
    exact (Quietly.internType q₂.sound (.int width signed) (.inl hwidth)).mono
      fun id s' _ h => ⟨_, h, rfl⟩
  · refine (floatWidth_quietly hs).seq fun width s₁ q₁ hwidth => ?_
    exact (Quietly.internType q₁.sound (.float width) hwidth).mono
      fun id s' _ h => ⟨_, h, rfl⟩
  · refine (hn .scalarType (by decide) s hs).seq fun element s₁ q₁ helement => ?_
    refine (range_quietly q₁.sound (by decide)).seq fun n s₂ q₂ hrange => ?_
    exact (Quietly.internType q₂.sound (.vector element n)
      ⟨hrange, helement.mono q₂.table_le⟩).mono fun id s' _ h => ⟨_, h, rfl⟩
  · refine (matrixType_quietly hs).seq fun ty s₁ q₁ hty => ?_
    exact (Quietly.internType q₁.sound ty hty.1).mono fun id s' _ h => ⟨_, h, hty.2⟩
  · refine (hn .arrayElementType (by decide) s hs).seq fun element s₁ q₁ helement => ?_
    refine (range_quietly q₁.sound (by decide)).seq fun n s₂ q₂ hrange => ?_
    have hlt : n < 2 ^ 32 := by omega
    refine (indexConstant_quietly q₂.sound hlt).seq fun length s₃ q₃ hlength => ?_
    exact (Quietly.internType q₃.sound (.array element length)
      ⟨helement.mono (q₂.trans q₃).table_le, n, hlength, hrange⟩).mono
      fun id s' _ h => ⟨_, h, rfl⟩
  · refine (range_quietly hs (by decide)).seq fun count s₁ q₁ hcount => ?_
    refine (hn.parts q₁.sound (by decide) count).seq fun members s₂ q₂ hmembers => ?_
    exact (Quietly.internType q₂.sound (.struct members)
      ⟨by omega, hmembers.2⟩).mono fun id s' _ h => ⟨_, h, rfl⟩
  · exact absurd rfl hop
  · exact .infeasible hs

/-- Only the category of all types has function types. -/
theorem not_typeFunction_of_mem {cat : Category} {op : Opcode} (hcat : cat ≠ .type)
    (h : op ∈ cat.members) : op ≠ .typeFunction := by
  rintro rfl
  cases cat <;> revert h <;> first | exact absurd rfl hcat | decide

omit [RandomSource ρ] [BoundedRandomSource ρ] in
theorem rebases_quiet {α : Type} {post : α → State ρ → Prop} :
    Rebases c fun s a s' => Quiet c s s' ∧ post a s' := fun _ _ _ _ q h => ⟨q.trans h.1, h.2⟩

theorem dispatch_quietly (hn : Nests c nested) {cat : Category} (hcat : cat ≠ .type)
    (hs : s.Sound c) : Quietly c s (dispatch cat (typeVariant nested)) fun id s' =>
      s'.code.table.IsOf id cat := by
  refine leads_dispatch (R := fun s id s' => Quiet c s s' ∧ s'.code.table.IsOf id cat)
    rebases_quiet ?_ ?_ hs
  · rintro s id s' ⟨q, h⟩
    exact ⟨q.sound, q.trans (.counted q.sound _), h⟩
  · intro op hop s hs
    refine Quietly.mono (typeVariant_quietly hn hs (not_typeFunction_of_mem hcat hop)) ?_
    rintro id s' _ ⟨ty, hty, rfl⟩
    exact ⟨ty, hty, hop⟩

theorem nests_typeWithin (nesting : Nat) : Nests c (typeWithin (ρ := ρ) nesting) := by
  induction nesting with
  | zero =>
    intro cat hcat s hs
    exact dispatch_quietly (fun _ _ _ hs => .fault hs) hcat hs
  | succ nesting ih =>
    intro cat hcat s hs
    exact dispatch_quietly ih hcat hs

/-- A type of a category without functions. -/
theorem type_quietly (hs : s.Sound c) {cat : Category} (hcat : cat ≠ .type) :
    Quietly c s (type cat) fun id s' => s'.code.table.IsOf id cat :=
  nests_typeWithin cat.nesting cat hcat s hs

/-! ### Function types -/

omit [RandomSource ρ] [BoundedRandomSource ρ] in
theorem functionsFull_quietly (hs : s.Sound c) : Quietly c s functionsFull fun full s' =>
    s' = s ∧ full = decide (c.maxFunctions ≤ s.functionTypes.size) := by
  refine (Quietly.read hs).seq ?_
  rintro _ _ - ⟨rfl, rfl⟩
  refine (Quietly.get hs).seq ?_
  rintro _ _ - ⟨rfl, rfl⟩
  exact .pure hs ⟨rfl, rfl⟩

omit [BoundedRandomSource ρ] in
/-- Listing a function type that there is room for. -/
theorem addFunctionType_steadily (hs : s.Sound c) {id r : EntryId} {params : List EntryId}
    (hid : s.code.table.IsType id (.function r params))
    (hroom : s.functionTypes.size < c.maxFunctions) :
    Ends (addFunctionType id) c s
      (fun _ s' => Enlists c s s' ∧ s'.functionTypes = s.functionTypes.push id) (Stops c) := by
  have hpush := Enlists.push hs hid hroom
  refine Ends.bind (Ends.modify ?_)
  refine Ends.bind (Ends.bind (Ends.read (Ends.bind (Ends.get (Ends.pure ?_)))))
  split
  · refine (pinZero_type_steadily hpush.sound _).mono (fun _ s' q => ?_) fun _ _ he => he
    exact ⟨hpush.trans q.enlists, q.functionTypes⟩
  · exact ⟨hpush, rfl⟩

omit [RandomSource ρ] [BoundedRandomSource ρ] in
theorem rebases_enlists {α : Type} {post : α → State ρ → Prop} :
    Rebases c fun s a s' => Enlists c s s' ∧ post a s' :=
  fun _ _ _ _ q h => ⟨q.enlists.trans h.1, h.2⟩

theorem functionType_leads (hn : Nests c nested) (hs : s.Sound c) :
    Leads c s (functionType nested) fun s id s' =>
      Enlists c s s' ∧ ∃ ty, s'.code.table.IsType id ty ∧ ty.opcode = .typeFunction := by
  refine (functionsFull_quietly hs).lead rebases_enlists ?_
  rintro _ _ - ⟨rfl, rfl⟩
  split
  · exact Quiet.refl hs
  · rename_i hfull
    refine (Quietly.internType hs .void trivial).lead rebases_enlists fun r s₁ q₁ hr => ?_
    refine (range_quietly q₁.sound (by decide)).lead rebases_enlists fun count s₂ q₂ _ => ?_
    refine (hn.parts q₂.sound (by decide) count).lead rebases_enlists fun params s₃ q₃ hparams => ?_
    have hty : (Ty.function r params).WellFormed c s₃.code.table :=
      ⟨(q₂.trans q₃).table_le hr, hparams.2⟩
    refine (Quietly.internType q₃.sound _ hty).lead rebases_enlists fun id s₄ q₄ hid => ?_
    -- There was room at the start, and quiet steps list no function type.
    have hroom : s₄.functionTypes.size < c.maxFunctions := by
      rw [(q₁.trans (q₂.trans (q₃.trans q₄))).functionTypes]
      simpa using hfull
    refine Ends.bind ((addFunctionType_steadily q₄.sound hid hroom).mono (fun _ s₅ h₅ => ?_)
      fun _ _ he => he.halts)
    exact ⟨h₅.1, _, h₅.1.later.table hid, rfl⟩

/-- A type of the category of all types. -/
theorem type_leads (hs : s.Sound c) :
    Leads c s (type .type) fun s id s' => Enlists c s s' ∧ ∃ ty, s'.code.table.IsType id ty := by
  refine leads_dispatch rebases_enlists ?_ (fun op _ s hs => ?_) hs
  · rintro s id s' ⟨he, h⟩
    exact ⟨he.sound, he.trans (Quiet.counted he.sound _).enlists, h⟩
  · by_cases hop : op = .typeFunction
    · subst hop
      refine Ends.mono (functionType_leads (nests_typeWithin 2) hs) ?_ fun _ _ he => he
      rintro id s' ⟨he, ty, hty, _⟩
      exact ⟨he, ty, hty⟩
    · refine Ends.mono (typeVariant_quietly (nests_typeWithin 2) hs hop) ?_ fun _ _ he => he
      rintro id s' ⟨q, ty, hty, _⟩
      exact ⟨q.enlists, ty, hty⟩

end Bounded

end Gen

end ShaderGen
