import ShaderGen.Generator.Variables
import ShaderGen.Proofs.Constants

/-!
Variables of the module. A private variable starts with a constant of its type; a
buffer is a struct of numbers and vectors, and what is said about it names entries
that are there. The variables of functions are instructions, so they come with
the statements.
-/

namespace ShaderGen.Gen

variable {ρ : Type} [RandomSource ρ] {c : Config} {s : State ρ}

theorem initializer_quietly (hs : s.Sound c) (ty : EntryId) :
    Quietly c s (initializer ty) fun id s' => s'.code.table.HasConst id ty := by
  refine (constantsOf_quietly hs ty).seq ?_
  rintro existing s - ⟨rfl, hexisting⟩
  split
  · exact zero_quietly hs ty
  · exact (pick_quietly hs existing).mono fun id s' q hid => (hexisting id hid.1).mono q.table_le

omit [RandomSource ρ] in
theorem moduleVariable_quietly (hs : s.Sound c) {storage : StorageClass} {pointer : EntryId}
    {initial : Option EntryId}
    (hv : ∀ serial, (GlobalVar.mk pointer storage initial serial).WellFormed s.code.table) :
    Quietly c s (moduleVariable storage pointer initial) fun id s' =>
      id.index < s'.code.table.size := by
  refine (Quietly.get hs).seq ?_
  rintro _ s - ⟨rfl, rfl⟩
  refine (Quietly.checked (fun _ s' => s' = s) hs fun _ _ => rfl).seq ?_
  rintro next s - rfl
  refine (Quietly.modify hs rfl rfl rfl).seq fun _ s₁ q₁ _ => ?_
  refine (Quietly.internEntity q₁.sound (.var ⟨pointer, storage, initial, s.nextSerial⟩)
    ((hv _).mono q₁.table_le)).seq fun answer s₂ q₂ hanswer => ?_
  exact .pure q₂.sound (Table.lt_size_of_get? hanswer)

theorem newVariable_buffer_quietly (hs : s.Sound c) {ty : EntryId}
    (hty : ∃ members, s.code.table.IsType ty (.struct members)) :
    Quietly c s (newVariable .storageBuffer ty) fun v s' =>
      ∃ id, v = .entry id ∧ id.index < s'.code.table.size := by
  obtain ⟨members, hty⟩ := hty
  refine (Quietly.internType hs (.pointer .storageBuffer ty) ⟨_, hty, rfl⟩).seq
    fun pointer s₁ q₁ hpointer => ?_
  have hv (serial : Nat) :
      (GlobalVar.mk pointer .storageBuffer none serial).WellFormed s₁.code.table :=
    ⟨ty, hpointer, ⟨members, q₁.table_le hty⟩, rfl⟩
  exact (moduleVariable_quietly q₁.sound hv).seq fun id s₂ q₂ hid => .pure q₂.sound ⟨id, rfl, hid⟩

theorem newVariable_private_quietly (hs : s.Sound c) {ty : EntryId}
    (hty : s.code.table.IsData ty) :
    Quietly c s (newVariable .modulePrivate ty) fun v s' =>
      ∃ id, v = .entry id ∧ id.index < s'.code.table.size := by
  refine (Quietly.internType hs (.pointer .modulePrivate ty) hty).seq
    fun pointer s₁ q₁ hpointer => ?_
  refine (initializer_quietly q₁.sound ty).seq fun initial s₂ q₂ hinitial => ?_
  have hv (serial : Nat) :
      (GlobalVar.mk pointer .modulePrivate (some initial) serial).WellFormed s₂.code.table :=
    ⟨ty, q₂.table_le hpointer, initial, rfl, hinitial⟩
  exact (moduleVariable_quietly q₂.sound hv).seq fun id s₃ q₃ hid => .pure q₃.sound ⟨id, rfl, hid⟩

theorem variableType_quietly (hs : s.Sound c) :
    Quietly c s variableType fun id s' => s'.code.table.IsData id := by
  refine (Quietly.get hs).seq ?_
  rintro _ s - ⟨rfl, rfl⟩
  refine (Quietly.checked (fun fitting s' => s' = s ∧ ∀ x ∈ fitting, s.code.table.IsData x.1) hs
    fun fitting h => ⟨rfl, fun x hx => ?_⟩).seq ?_
  · obtain ⟨_, hp⟩ := mem_of_filterM h hx
    obtain ⟨_ | _, hdata, hp⟩ := bind_eq_ok.mp hp
    · cases hp
    · exact Predicate.isData_of_data hdata
  · rintro fitting s - ⟨rfl, hfitting⟩
    refine (pick_quietly hs _).mono fun id s' q hid => ?_
    obtain ⟨x, hx, rfl⟩ := List.mem_map.mp hid.1
    exact (hfitting x hx).mono q.table_le

/-! ### Buffers -/

section Bounded

variable [BoundedRandomSource ρ]

theorem bufferMember_quietly (hs : s.Sound c) :
    Quietly c s bufferMember fun id s' => s'.code.table.IsOf id .structMemberType := by
  have hrest (s : State ρ) (hs : s.Sound c) (scalar : EntryId)
      (hscalar : s.code.table.IsOf scalar .scalarType ∧
        s.code.table.IsOf scalar .structMemberType) :
      Quietly c s (do
        if ← chance 0.5 then return scalar
        internType (.vector scalar (← range 2 4))) fun id s' =>
          s'.code.table.IsOf id .structMemberType := by
    refine (chance_quietly hs _).seq fun _ s₁ q₁ _ => ?_
    split_ifs
    · exact .pure q₁.sound (hscalar.2.mono q₁.table_le)
    · refine (range_quietly q₁.sound (by decide)).seq fun n s₂ q₂ hn => ?_
      refine (Quietly.internType q₂.sound (.vector scalar n)
        ⟨hn, hscalar.1.mono (q₁.trans q₂).table_le⟩).mono fun id s' _ h => ?_
      exact ⟨_, h, by simp [Ty.opcode, Category.members]⟩
  refine (range_quietly hs (by decide)).seq fun k s₁ q₁ _ => ?_
  have hint (signed : Bool) : (Ty.int 32 signed).WellFormed c s₁.code.table :=
    .inl c.mem_intWidths_32
  split
  · refine (Quietly.internType q₁.sound _ (hint true)).seq fun scalar s₂ q₂ h => ?_
    exact hrest s₂ q₂.sound scalar ⟨⟨_, h, by decide⟩, ⟨_, h, by decide⟩⟩
  · refine (Quietly.internType q₁.sound _ (hint false)).seq fun scalar s₂ q₂ h => ?_
    exact hrest s₂ q₂.sound scalar ⟨⟨_, h, by decide⟩, ⟨_, h, by decide⟩⟩
  · refine (Quietly.internType q₁.sound (.float 32) c.mem_floatWidths_32).seq
      fun scalar s₂ q₂ h => ?_
    exact hrest s₂ q₂.sound scalar ⟨⟨_, h, by decide⟩, ⟨_, h, by decide⟩⟩

omit [RandomSource ρ] [BoundedRandomSource ρ] in
theorem decorateBlock_quietly (hs : s.Sound c) {block : EntryId}
    (hblock : block.index < s.code.table.size) (offsets : List Nat) :
    Quietly c s (decorateBlock block offsets) fun _ _ => True := by
  refine (Quietly.get hs).seq ?_
  rintro _ s - ⟨rfl, rfl⟩
  split
  · exact .pure hs trivial
  · refine (Quietly.annotate hs (.entry block .block) hblock).seq fun _ s₁ q₁ _ => ?_
    exact Quietly.forM q₁.sound fun x _ s' q =>
      Quietly.annotate q.sound (.member block x.2 (.offset x.1))
        (Nat.lt_of_lt_of_le hblock (Table.size_le (q₁.trans q).table_le))

theorem storageBuffer_quietly (hs : s.Sound c) (binding : Nat) :
    Quietly c s (storageBuffer binding) fun _ _ => True := by
  refine (range_quietly hs (by decide)).seq fun count s₁ q₁ hcount => ?_
  refine (Quietly.mapM (fun _ id s' => s'.code.table.IsOf id .structMemberType)
    (fun _ _ _ _ q h => h.mono q.table_le) q₁.sound
    fun _ _ s' q => bufferMember_quietly q.sound).seq fun members s₂ q₂ hmembers => ?_
  obtain ⟨hlength, hmembers⟩ := forall₂_range hmembers
  have hstruct : (Ty.struct members).WellFormed c s₂.code.table := by
    refine ⟨by omega, fun m hm => ?_⟩
    obtain ⟨i, hi⟩ := List.mem_iff_getElem?.mp hm
    exact hmembers i m hi
  refine (Quietly.query q₂.sound).seq ?_
  rintro offsets? s₂ - ⟨rfl, _⟩
  refine (Quietly.require (fun _ s' => s' = s₂) q₂.sound fun _ _ => rfl).seq ?_
  rintro offsets s₂ - rfl
  refine (Quietly.internType q₂.sound _ hstruct).seq fun block s₃ q₃ hblock => ?_
  refine (decorateBlock_quietly q₃.sound (Table.lt_size_of_get? hblock) offsets).seq
    fun _ s₄ q₄ _ => ?_
  refine (newVariable_buffer_quietly q₄.sound ⟨members, q₄.table_le hblock⟩).seq
    fun v s₅ q₅ hv => ?_
  obtain ⟨buffer, rfl, hbuffer⟩ := hv
  refine (Quietly.annotate q₅.sound (.entry buffer (.descriptorSet 0)) hbuffer).seq
    fun _ s₆ q₆ _ => ?_
  have hbuffer₆ := Nat.lt_of_lt_of_le hbuffer (Table.size_le q₆.table_le)
  exact (Quietly.annotate q₆.sound (.entry buffer (.binding binding)) hbuffer₆).seq
    fun _ s₇ q₇ _ => .pure q₇.sound trivial

theorem storageBuffersFrom_quietly (count : Nat) (hs : s.Sound c) (binding : Nat) :
    Quietly c s (storageBuffersFrom count binding) fun _ _ => True := by
  induction count generalizing s binding with
  | zero => exact .pure hs trivial
  | succ count ih =>
    refine (Quietly.attempt (storageBuffer_quietly hs _)).seq fun _ s₁ q₁ _ => ?_
    exact (ih q₁.sound _).seq fun _ s₂ q₂ _ => .pure q₂.sound trivial

theorem storageBuffers_quietly (hs : s.Sound c) :
    Quietly c s storageBuffers fun _ _ => True := by
  refine (Quietly.read hs).seq ?_
  rintro _ s - ⟨rfl, rfl⟩
  dsimp only
  split_ifs
  · exact .fault hs
  · exact storageBuffersFrom_quietly _ hs 0

end Bounded

/-! ### Private variables -/

theorem privateVariablesWithin_quietly (count : Nat) (hs : s.Sound c) :
    Quietly c s (privateVariablesWithin count) fun _ _ => True := by
  induction count generalizing s with
  | zero => exact .pure hs trivial
  | succ count ih =>
    refine (Quietly.attempt (variableType_quietly hs)).seq fun o s₁ q₁ ho => ?_
    cases o with
    | none => exact .pure q₁.sound trivial
    | some ty =>
      refine (Quietly.attempt (newVariable_private_quietly q₁.sound (ho ty rfl))).seq
        fun _ s₂ q₂ _ => ?_
      exact (ih q₂.sound).seq fun _ s₃ q₃ _ => .pure q₃.sound trivial

theorem privateVariables_quietly (hs : s.Sound c) :
    Quietly c s privateVariables fun _ _ => True := by
  refine (Quietly.read hs).seq ?_
  rintro _ s - ⟨rfl, rfl⟩
  exact privateVariablesWithin_quietly _ hs

end ShaderGen.Gen
