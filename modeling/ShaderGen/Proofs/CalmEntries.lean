import ShaderGen.Proofs.Calm

/-!
Entries are made calmly. A constant of a type, zero included, is made part by part,
and parts are in earlier slots than what they are parts of, so the recursion ends
before its bound does. The offsets of a buffer fit their words, for a buffer has few
and small members; all that can run out is the number of a variable.
-/

namespace ShaderGen

theorem Config.width_cases {c : Config} {width : Nat}
    (h : width ∈ c.intWidths ∨ width ∈ c.floatWidths) :
    width = 8 ∨ width = 16 ∨ width = 32 ∨ width = 64 := by
  have hmem : width ∈ [8, 16, 32, 64] ∨ width ∈ [16, 32, 64] :=
    h.imp List.mem_of_mem_filter List.mem_of_mem_filter
  simp only [List.mem_cons, List.not_mem_nil, or_false] at hmem
  tauto

theorem intBounds_answers {width : Nat} (signed : Bool) (hw : 1 ≤ width ∧ width ≤ 64) :
    ∃ bounds, intBounds width signed = .ok bounds := by
  cases signed with
  | false =>
    simp only [intBounds, Bool.false_eq_true, if_false]
    rw [if_pos (by omega)]
    exact ⟨_, rfl⟩
  | true =>
    simp only [intBounds, if_true]
    rw [if_pos (by omega)]
    exact ⟨_, rfl⟩

namespace Table

variable {t : Table} {c : Config} {id part : EntryId}

/-- A part of a type is in an earlier slot. -/
theorem Part.earlier (hwf : t.WellFormed c) {i : Nat} (h : t.Part id i part) :
    part.index < id.index := by
  cases h with
  | vector h _ | matrix h _ => exact hwf.earlier h part (by simp [Entity.refs, Ty.refs])
  | array h _ _ => exact hwf.earlier h part (by simp [Entity.refs, Ty.refs])
  | struct h hi => exact hwf.earlier h part (List.mem_of_getElem? hi)

theorem HoldsType.lt_size (h : t.HoldsType id) : id.index < t.size := by
  obtain ⟨_, hty⟩ := h
  exact lt_size_of_get? hty

end Table

namespace Gen

variable {ρ : Type} [RandomSource ρ] {c : Config} {s : State ρ}

/-! ### Draws -/

theorem pick_calmly {α : Type} (items : List α) : Calmly c s (pick items : Gen ρ α) :=
  Calmly.draw.andThen fun _ _ _ => Calmly.require

theorem range_calmly (lo hi : Nat) : Calmly c s (range lo hi : Gen ρ Nat) :=
  Calmly.draw.andThen fun _ _ _ => Settles.pure

theorem chance_calmly {p : Float} (hp : Config.isProbability p = true) :
    Calmly c s (chance p : Gen ρ Bool) := by
  unfold Config.isProbability at hp
  unfold chance
  rw [if_pos hp]
  exact Calmly.draw

theorem isProbability_half : Config.isProbability 0.5 = true := by decide +kernel

/-! ### Types -/

theorem intWidth_calmly : Calmly c s (intWidth : Gen ρ Nat) :=
  Calmly.read.andThen fun _ _ _ => pick_calmly _

theorem floatWidth_calmly : Calmly c s (floatWidth : Gen ρ Nat) :=
  Calmly.read.andThen fun _ _ _ => pick_calmly _

omit [RandomSource ρ] in
theorem withComponents_calmly (scalar : EntryId) (count : Nat) :
    Calmly c s (withComponents scalar count : Gen ρ EntryId) := by
  unfold withComponents
  split_ifs
  · exact Settles.pure
  · exact Calmly.internType _

omit [RandomSource ρ] in
theorem indexConstant_calmly (n : Nat) : Calmly c s (indexConstant n : Gen ρ EntryId) :=
  (Calmly.internType _).andThen fun _ _ _ => Calmly.internConst _

theorem matrixType_calmly : Calmly c s (matrixType : Gen ρ Ty) := by
  refine floatWidth_calmly.andThen fun width s₁ _ => ?_
  refine (Calmly.internType _).andThen fun scalar s₂ _ => ?_
  refine (range_calmly _ _).andThen fun rows s₃ _ => ?_
  refine (Calmly.internType _).andThen fun column s₄ _ => ?_
  exact (range_calmly _ _).andThen fun columns s₅ _ => Settles.pure

/-! ### Constants -/

theorem intValue_calmly {width : Nat} {signed : Bool} (hw : 1 ≤ width ∧ width ≤ 64) :
    Calmly c s (intValue width signed : Gen ρ Literal) := by
  refine (Calmly.checked (intBounds_answers signed hw)).andThen fun bounds s₁ _ => ?_
  refine (chance_calmly isProbability_half).andThen fun b s₂ _ => ?_
  split_ifs
  · exact Calmly.draw.andThen fun _ _ _ => Settles.pure
  · exact Calmly.draw.andThen fun _ _ _ => Settles.pure

theorem floatValue_calmly (width : Nat) : Calmly c s (floatValue width : Gen ρ Literal) := by
  unfold floatValue
  split_ifs
  all_goals exact Calmly.draw.andThen fun _ _ _ => Settles.pure

theorem existingType_calmly (test : Ty → Bool) :
    Calmly c s (existingType test : Gen ρ EntryId) :=
  Calmly.get.andThen fun _ _ _ => pick_calmly _

omit [RandomSource ρ] in
theorem constantsOf_calmly (ty : EntryId) : Calmly c s (constantsOf ty : Gen ρ (List EntryId)) :=
  Calmly.get.andThen fun _ _ _ => Settles.pure

/-- A part is found, or made where the part can be made. -/
theorem partConstant_calmly (hs : s.Sound c) {make : EntryId → Gen ρ EntryId} {ty : EntryId}
    (hty : s.code.table.HoldsType ty) (index : Nat)
    (hmake : ∀ part (s' : State ρ), Quiet c s s' → s'.code.table.Part ty index part →
      Calmly c s' (make part)) : Calmly c s (partConstant make ty index) := by
  refine (Calmly.query (Module.memberType?_answers hs.table hty index)).seq (Quietly.query hs) ?_
  rintro part? s - ⟨rfl, hpart?⟩
  refine Calmly.require.seq (Quietly.require (fun part s' => s' = s ∧ part? = some part)
    hs fun _ h => ⟨rfl, h⟩) ?_
  rintro part s - ⟨rfl, rfl⟩
  have hpart := Module.part_of_memberType? hs.table hpart?
  refine (constantsOf_calmly part).seq (constantsOf_quietly hs part) ?_
  rintro existing s - ⟨rfl, _⟩
  split
  · exact hmake part _ (.refl hs) hpart
  · refine (chance_calmly isProbability_half).seq (chance_quietly hs _) fun b s₁ q₁ _ => ?_
    split
    · exact pick_calmly _
    · exact hmake part s₁ q₁ (hpart.mono q₁.table_le)

theorem compositeConstant_calmly (hs : s.Sound c) {make : EntryId → Gen ρ EntryId} {ty : EntryId}
    (hty : s.code.table.HoldsType ty)
    (hquiet : ∀ part (s' : State ρ), s'.Sound c →
      Quietly c s' (make part) fun id s'' => s''.code.table.HasConst id part)
    (hmake : ∀ index part (s' : State ρ), Quiet c s s' → s'.code.table.Part ty index part →
      Calmly c s' (make part)) : Calmly c s (compositeConstant make ty) := by
  refine (Calmly.query (Module.componentCount_answers hs.table hty)).seq (Quietly.query hs) ?_
  rintro count s - ⟨rfl, _⟩
  refine (Calmly.mapM hs (fun index _ s' q => partConstant_quietly hquiet q.sound ty index)
    fun index _ s' q _ => ?_).andThen fun parts s₁ _ => Calmly.internConst _
  exact partConstant_calmly q.sound (hty.mono q.table_le) index
    fun part s'' q' hpart => hmake index part s'' (q.trans q') hpart

section Bounded

variable [BoundedRandomSource ρ]

/-- A constant of a type whose slot is below the bound for nesting. -/
theorem constantWithin_calmly (nesting : Nat) (hs : s.Sound c) {ty : EntryId}
    (hty : s.code.table.HoldsType ty) (hlt : ty.index < nesting) :
    Calmly c s (constantWithin nesting ty) := by
  induction nesting generalizing s ty with
  | zero => omega
  | succ nesting ih =>
    obtain ⟨t, ht⟩ := id hty
    refine (Calmly.query ⟨t, Module.typeAt_eq_ok.mpr ht⟩).seq (Quietly.typeAt hs ty) ?_
    rintro t' s - ⟨rfl, ht'⟩
    obtain rfl := ht.unique ht'
    cases t with
    | bool => exact (chance_calmly isProbability_half).andThen fun _ _ _ => Calmly.internConst _
    | int width signed =>
      exact (intValue_calmly (Config.width_mem (hs.table.entry ht))).andThen
        fun _ _ _ => Calmly.internConst _
    | float width => exact (floatValue_calmly width).andThen fun _ _ _ => Calmly.internConst _
    | vector | matrix | array | struct =>
      refine compositeConstant_calmly hs hty (fun part s hs => constantWithin_quietly nesting hs part)
        fun index part s' q hpart => ih q.sound (hpart.holdsType q.sound.table) ?_
      have hearlier := hpart.earlier q.sound.table
      omega
    | void | pointer | function => exact Settles.infeasible

theorem constantOf_calmly (hs : s.Sound c) {ty : EntryId} (hty : s.code.table.HoldsType ty) :
    Calmly c s (constantOf ty) := by
  refine Calmly.get.seq (Quietly.get hs) ?_
  rintro _ s - ⟨rfl, rfl⟩
  exact constantWithin_calmly _ hs hty (Nat.lt_succ_of_lt hty.lt_size)

end Bounded

omit [RandomSource ρ] in
/-- The zero of a type whose slot is below the bound for nesting. -/
theorem zeroWithin_calmly (nesting : Nat) (hs : s.Sound c) {ty : EntryId}
    (hty : s.code.table.HoldsType ty) (hlt : ty.index < nesting) :
    Calmly c s (zeroWithin nesting ty) := by
  induction nesting generalizing s ty with
  | zero => omega
  | succ nesting ih =>
    obtain ⟨t, ht⟩ := id hty
    refine (Calmly.query ⟨t, Module.typeAt_eq_ok.mpr ht⟩).seq (Quietly.typeAt hs ty) ?_
    rintro t' s - ⟨rfl, ht'⟩
    obtain rfl := ht.unique ht'
    have hpart {part : EntryId} {i : Nat} (h : s.code.table.Part ty i part) :
        Calmly c s (zeroWithin nesting part) :=
      ih hs (h.holdsType hs.table) (by have := h.earlier hs.table; omega)
    cases t with
    | bool => exact Calmly.internConst _
    | int width signed => cases signed <;> exact Calmly.internConst _
    | float => exact Calmly.internConst _
    | vector part n =>
      obtain ⟨⟨hn, _⟩, _⟩ := hs.table.entry ht
      exact (hpart (.vector ht (i := 0) (by omega))).andThen fun _ _ _ => Calmly.internConst _
    | matrix part n =>
      obtain ⟨⟨hn, _⟩, _⟩ := hs.table.entry ht
      exact (hpart (.matrix ht (i := 0) (by omega))).andThen fun _ _ _ => Calmly.internConst _
    | array part length =>
      obtain ⟨_, n, ⟨_, hk, _⟩, hn, _⟩ := hs.table.entry ht
      refine (hpart (.array ht hk (i := 0) (by omega))).seq (zeroWithin_quietly _ hs part)
        fun zero s₁ q₁ _ => ?_
      exact (Calmly.query (Module.componentCount_answers q₁.sound.table
        (hty.mono q₁.table_le))).andThen fun _ _ _ => Calmly.internConst _
    | struct members =>
      refine (Calmly.mapM hs (fun m _ s' q => zeroWithin_quietly nesting q.sound m)
        fun m hm s' q _ => ?_).andThen fun _ _ _ => Calmly.internConst _
      obtain ⟨i, hi⟩ := List.mem_iff_getElem?.mp hm
      have h : s.code.table.Part ty i m := .struct ht hi
      have := h.earlier hs.table
      exact ih q.sound ((h.holdsType hs.table).mono q.table_le) (by omega)
    | void | pointer | function => exact Settles.infeasible

omit [RandomSource ρ] in
theorem zero_calmly (hs : s.Sound c) {ty : EntryId} (hty : s.code.table.HoldsType ty) :
    Calmly c s (zero ty) := by
  refine Calmly.get.seq (Quietly.get hs) ?_
  rintro _ s - ⟨rfl, rfl⟩
  exact zeroWithin_calmly _ hs hty (Nat.lt_succ_of_lt hty.lt_size)

/-! ### Variables -/

theorem initializer_calmly (hs : s.Sound c) {ty : EntryId} (hty : s.code.table.HoldsType ty) :
    Calmly c s (initializer ty) := by
  refine (constantsOf_calmly ty).seq (constantsOf_quietly hs ty) ?_
  rintro existing s - ⟨rfl, _⟩
  split
  · exact zero_calmly hs hty
  · exact pick_calmly existing

omit [RandomSource ρ] in
/-- A variable of the module takes a number, if there is one left. -/
theorem moduleVariable_settles (storage : StorageClass) (pointer : EntryId)
    (initial : Option EntryId) : Settles 1 c s (moduleVariable storage pointer initial) := by
  refine Settles.get_bind ?_
  dsimp only
  by_cases hfull : s.nextSerial + 1 < 2 ^ 32
  · have hnext : Fault.checkWord 32 (s.nextSerial + 1) = .ok (s.nextSerial + 1) := if_pos hfull
    rw [hnext]
    exact ⟨rfl, rfl, rfl, rfl, Nat.le_refl _, Nat.le_refl _⟩
  · have hnext : Fault.checkWord 32 (s.nextSerial + 1) = .error .overflow := if_neg hfull
    rw [hnext]
    exact .inr ⟨rfl, Nat.one_pos, Nat.not_lt.mp hfull⟩

theorem newVariable_private_settles (hs : s.Sound c) {ty : EntryId}
    (hty : s.code.table.IsData ty) : Settles 1 c s (newVariable .modulePrivate ty) := by
  refine (Calmly.internType _).seq (Quietly.internType hs (.pointer .modulePrivate ty) hty)
    fun pointer s₁ q₁ _ => ?_
  refine (initializer_calmly q₁.sound (hty.holdsType.mono q₁.table_le)).andThen
    fun initial s₂ _ => ?_
  exact Settles.bind (moduleVariable_settles _ _ _) Ends.trivial fun _ _ _ _ =>
    Settles.pure (k := 0)

theorem newVariable_buffer_settles (ty : EntryId) :
    Settles 1 c s (newVariable .storageBuffer ty) := by
  refine (Calmly.internType _).andThen fun pointer s₁ _ => ?_
  exact Settles.bind (moduleVariable_settles _ _ _) Ends.trivial fun _ _ _ _ =>
    Settles.pure (k := 0)

theorem newVariable_function_calmly (hs : s.Sound c) {ty : EntryId}
    (hty : s.code.table.IsData ty) : Calmly c s (newVariable .function ty) := by
  refine (Calmly.internType _).seq (Quietly.internType hs (.pointer .function ty) hty)
    fun pointer s₁ q₁ _ => ?_
  refine (initializer_calmly q₁.sound (hty.holdsType.mono q₁.table_le)).andThen
    fun initial s₂ _ => ?_
  exact (Calmly.alloc _).andThen fun _ _ _ => Settles.pure

theorem variableType_calmly : Calmly c s (variableType : Gen ρ EntryId) := by
  refine Settles.get_bind ?_
  refine (Calmly.checked (filterM_answers fun x hx => ?_)).andThen fun _ _ _ => pick_calmly _
  have hx : s.code.table.IsType x.1 x.2 := Table.mem_types.mp hx
  obtain ⟨b, hb⟩ := Predicate.total_ofTy Ty.isData hx.holdsType
  exact ⟨b && !s.code.isBlock x.1, by simp [Predicate.data, hb, bind, Except.bind, pure,
    Except.pure]⟩

end Gen

/-! ### Layout -/

namespace Layout

variable {m : Module} {c : Config}

/-- A member of a buffer is small, and it is aligned to few bytes. -/
theorem extent?_answers (hwf : m.table.WellFormed c) {id : EntryId} (h : m.table.HoldsType id) :
    ∃ o, extent? m id = .ok o ∧ ∀ e ∈ o, 1 ≤ e.align ∧ e.align ≤ 32 ∧ e.size ≤ 32 := by
  obtain ⟨ty, hty⟩ := h
  have hnumber (width : Nat) (hw : width ∈ c.intWidths ∨ width ∈ c.floatWidths) :
      1 ≤ width / 8 ∧ width / 8 ≤ 8 := by
    have := Config.width_cases hw
    omega
  cases ty with
  | int width =>
    have := hnumber width (hwf.entry hty)
    refine ⟨_, by simp only [extent?, Module.typeAt_eq_ok.mpr hty]; rfl, ?_⟩
    rintro e ⟨⟩
    dsimp only
    omega
  | float width =>
    have := hnumber width (.inr (hwf.entry hty))
    refine ⟨_, by simp only [extent?, Module.typeAt_eq_ok.mpr hty]; rfl, ?_⟩
    rintro e ⟨⟩
    dsimp only
    omega
  | vector element count =>
    obtain ⟨⟨h2, h4⟩, ety, hety, _⟩ := hwf.entry hty
    cases hwidth : ety.scalarWidth? with
    | none =>
      refine ⟨none, ?_, by simp⟩
      simp only [extent?, Module.typeAt_eq_ok.mpr hty, Module.typeAt_eq_ok.mpr hety, hwidth, bind,
        Except.bind, pure, Except.pure]
    | some width =>
      have hw : 1 ≤ width / 8 ∧ width / 8 ≤ 8 := by
        have hwf' := hwf.entry hety
        cases ety <;> cases hwidth
        · exact hnumber width hwf'
        · exact hnumber width (.inr hwf')
      have hsize : count * (width / 8) ≤ 4 * 8 := Nat.mul_le_mul h4 hw.2
      have hword : Fault.checkWord 32 (count * (width / 8)) = .ok (count * (width / 8)) :=
        if_pos (Nat.lt_of_le_of_lt hsize (by decide))
      refine ⟨some ⟨count * (width / 8), if count = 2 then 2 * (width / 8) else 4 * (width / 8)⟩,
        ?_, ?_⟩
      · simp only [extent?, Module.typeAt_eq_ok.mpr hty, Module.typeAt_eq_ok.mpr hety, hwidth,
          hword, bind, Except.bind, pure, Except.pure]
      · rintro e ⟨⟩
        dsimp only
        split_ifs <;> omega
  | void | bool | matrix | array | struct | pointer | function =>
    refine ⟨none, ?_, by simp⟩
    simp only [extent?, Module.typeAt_eq_ok.mpr hty, bind, Except.bind, pure, Except.pure]

/-- A member and the bytes in front of it take less than 64 bytes. -/
theorem offsetsFrom_answers (hwf : m.table.WellFormed c) (members : List EntryId) (start : Nat)
    (h : ∀ id ∈ members, m.table.HoldsType id) (hfit : start + 64 * members.length < 2 ^ 32) :
    ∃ o, offsetsFrom m start members = .ok o := by
  induction members generalizing start with
  | nil => exact ⟨_, rfl⟩
  | cons id members ih =>
    obtain ⟨o, ho, hsmall⟩ := extent?_answers hwf (h id (by simp))
    rw [List.length_cons] at hfit
    cases o with
    | none => exact ⟨none, by simp [offsetsFrom, ho, bind, Except.bind, pure, Except.pure]⟩
    | some e =>
      obtain ⟨hpos, halign, hsize⟩ := hsmall e rfl
      have hup : (start + e.align - 1) / e.align * e.align ≤ start + 31 :=
        (Nat.div_mul_le_self _ _).trans (by omega)
      obtain ⟨offset, hoffset, hle⟩ : ∃ offset, alignUp start e.align = .ok offset ∧
          offset ≤ start + 31 := by
        refine ⟨_, ?_, hup⟩
        rw [alignUp, if_neg (by omega)]
        exact if_pos (by change _ < 2 ^ 32; omega)
      have hstop : Fault.checkWord 32 (offset + e.size) = .ok (offset + e.size) :=
        if_pos (by change _ < 2 ^ 32; omega)
      obtain ⟨rest, hrest⟩ := ih (offset + e.size) (fun id hid => h id (by simp [hid])) (by omega)
      refine ⟨rest.map (offset :: ·), ?_⟩
      simp [offsetsFrom, ho, hoffset, hstop, hrest, bind, Except.bind, pure, Except.pure]

end Layout

/-! ### Buffers -/

namespace Gen

variable {ρ : Type} [RandomSource ρ] {c : Config} {s : State ρ}

theorem bufferMember_calmly : Calmly c s (bufferMember : Gen ρ EntryId) := by
  have hrest (s : State ρ) (scalar : EntryId) : Calmly c s (do
      if ← chance 0.5 then return scalar
      internType (.vector scalar (← range 2 4)) : Gen ρ EntryId) := by
    refine (chance_calmly isProbability_half).andThen fun b s₁ _ => ?_
    split
    · exact Settles.pure
    · exact (range_calmly _ _).andThen fun _ _ _ => Calmly.internType _
  refine (range_calmly _ _).andThen fun k s₁ _ => ?_
  split
  all_goals exact (Calmly.internType _).andThen fun scalar s₂ _ => hrest s₂ scalar

omit [RandomSource ρ] in
theorem decorateBlock_calmly (block : EntryId) (offsets : List Nat) :
    Calmly c s (decorateBlock block offsets : Gen ρ Unit) := by
  refine Calmly.get.andThen fun _ s₁ _ => ?_
  split
  · exact Settles.pure
  · exact (Calmly.annotate _).andThen fun _ _ _ =>
      Calmly.forM fun _ _ _ => Calmly.annotate _

variable [BoundedRandomSource ρ]

theorem storageBuffer_settles (hs : s.Sound c) (binding : Nat) :
    Settles 1 c s (storageBuffer binding) := by
  refine (range_calmly 1 4).seq (range_quietly hs (by decide)) fun count s₁ q₁ hcount => ?_
  refine (Calmly.mapM q₁.sound (fun _ _ s' q => bufferMember_quietly q.sound)
    fun _ _ _ _ _ => bufferMember_calmly).seq (Quietly.mapM
      (fun _ id s' => s'.code.table.IsOf id .structMemberType)
      (fun _ _ _ _ q h => h.mono q.table_le) q₁.sound
      fun _ _ s' q => bufferMember_quietly q.sound) fun members s₂ q₂ hmembers => ?_
  obtain ⟨hlength, hmembers⟩ := forall₂_range hmembers
  have hoffsets := Layout.offsetsFrom_answers q₂.sound.table members 0 (fun id hid => by
    obtain ⟨i, hi⟩ := List.mem_iff_getElem?.mp hid
    exact (hmembers i id hi).holdsType) (by omega)
  refine (Calmly.query hoffsets).andThen fun offsets? s₃ _ => ?_
  refine Calmly.require.andThen fun offsets s₄ _ => ?_
  refine (Calmly.internType _).andThen fun block s₅ _ => ?_
  refine (decorateBlock_calmly block offsets).andThen fun _ s₆ _ => ?_
  refine Settles.bind (k := 0) (newVariable_buffer_settles block) Ends.trivial fun v s₇ _ _ => ?_
  cases v with
  | instr => exact Settles.infeasible
  | entry buffer =>
    exact (Calmly.annotate _).andThen fun _ _ _ => (Calmly.annotate _).andThen
      fun _ _ _ => Settles.pure

theorem storageBuffersFrom_settles (count : Nat) (hs : s.Sound c) (binding : Nat) :
    Settles count c s (storageBuffersFrom count binding) := by
  induction count generalizing s binding with
  | zero => exact Settles.pure
  | succ count ih =>
    refine Settles.mono (Settles.bind (k := count) (storageBuffer_settles hs _).attempt
      (Quietly.attempt (storageBuffer_quietly hs _)) fun _ s₁ h₁ _ => ?_) (by omega)
    exact Settles.bind (k := 0) (ih h₁.1.sound _) Ends.trivial fun _ _ _ _ => Settles.pure

omit [BoundedRandomSource ρ] in
theorem privateVariablesWithin_settles (count : Nat) (hs : s.Sound c) :
    Settles count c s (privateVariablesWithin count) := by
  induction count generalizing s with
  | zero => exact Settles.pure
  | succ count ih =>
    refine Calmly.seq variableType_calmly.attempt (Quietly.attempt (variableType_quietly hs))
      fun o s₁ q₁ ho => ?_
    cases o with
    | none => exact Settles.pure
    | some ty =>
      have hty := ho ty rfl
      refine Settles.mono (Settles.bind (k := count)
        (newVariable_private_settles q₁.sound hty).attempt
        (Quietly.attempt (newVariable_private_quietly q₁.sound hty)) fun _ s₂ h₂ _ => ?_)
        (by omega)
      exact Settles.bind (k := 0) (ih h₂.1.sound) Ends.trivial fun _ _ _ _ => Settles.pure

end Gen

end ShaderGen
