import ShaderGen.Proofs.ProgressDraws

/-!
Filling the table comes to an end. What a type is made of comes from categories in
which less is nested, so the bound for nesting is never met; constants of types that
exist are made calmly. A table is filled by attempts, which are never infeasible, and
buffers and private variables take as many numbers as there are of them at most.
-/

namespace ShaderGen

/-! ### Nesting -/

/-- The category from which a kind of type takes its parts. -/
def Opcode.partCategory? : Opcode → Option Category
  | typeVector => some .scalarType
  | typeArray => some .arrayElementType
  | typeStruct => some .structMemberType
  | typeFunction => some .arithmeticType
  | _ => none

/-- Parts nest less than what they are parts of. -/
theorem Category.nesting_partCategory {cat part : Category} {op : Opcode} (hop : op ∈ cat.members)
    (h : op.partCategory? = some part) :
    part.nesting < cat.nesting ∧ part ≠ .type ∧ part ≠ .containerType := by
  have hall : ∀ op ∈ cat.members, ∀ part ∈ op.partCategory?,
      part.nesting < cat.nesting ∧ part ≠ .type ∧ part ≠ .containerType := by
    cases cat <;> decide
  exact hall op hop part h

variable {ρ α β : Type} [RandomSource ρ] {c : Config} {s s' : State ρ}

theorem Still.ready {k : Nat} (hr : s.Ready c) (h : Still k s s') : s'.Ready c := by
  refine ⟨by rw [h.weights, h.pruned]; exact hr.drawn, ?_⟩
  rw [h.scopes]
  exact fun scope x hx d hd => Nat.lt_of_lt_of_le (hr.known scope x hx d hd) h.size

namespace Gen

/-! ### Types -/

theorem Completes.build (hr : s.Ready c) {f : Module → α × Module}
    (h : s.code.instrs.size ≤ (f s.code).2.instrs.size) :
    Completes c s (Gen.build f) fun _ _ => True :=
  Ends.build ⟨.of_still hr ⟨rfl, rfl, rfl, rfl, h, Nat.le_refl _⟩, trivial⟩

theorem Completes.internType (hr : s.Ready c) (ty : Ty) :
    Completes c s (Gen.internType ty) fun _ _ => True := .build hr (Nat.le_refl _)

theorem functionsFull_completes (hr : s.Ready c) :
    Completes c s functionsFull fun _ s' => s' = s :=
  Ends.bind (Ends.read (Ends.bind (Ends.get (Ends.pure ⟨.refl hr, rfl⟩))))

/-- Listing a function type is never infeasible, and ends the drawing of more in time. -/
theorem addFunctionType_completes (hr : s.Ready c) (id : EntryId) :
    Completes c s (addFunctionType id) fun _ _ => True := by
  refine (Completes.modify (.of_still hr ⟨rfl, rfl, rfl, rfl, Nat.le_refl _, Nat.le_refl _⟩)
    trivial : Completes c s _ fun _ _ => True).andThen fun _ s₁ h₁ _ => ?_
  refine (functionsFull_completes h₁.ready).andThen ?_
  rintro full s₁ - rfl
  split
  · exact (pinZero_completes h₁.ready (.inr ⟨rfl, .inr rfl⟩)).mono fun _ _ _ _ => trivial
  · exact .pure h₁.ready trivial

variable {nested : Category → Gen ρ EntryId}

/-- A routine for the parts of types proceeds for parts of a category. -/
def ProceedsFor (c : Config) (nested : Category → Gen ρ EntryId) (cat : Category) : Prop :=
  ∀ s : State ρ, s.Sound c → s.Ready c → Proceeds c s (nested cat) fun _ _ => True

/-- Parts of one category. -/
theorem ProceedsFor.parts (hn : Nests c nested) {cat : Category} (hcat : cat ≠ .type)
    (h : ProceedsFor c nested cat) (hs : s.Sound c) (hr : s.Ready c) (count : Nat) :
    Proceeds c s ((List.replicate count cat).mapM nested) fun _ _ => True := by
  induction count generalizing s with
  | zero => exact .pure hr trivial
  | succ count ih =>
    rw [List.replicate_succ, List.mapM_cons]
    refine (h s hs hr).bind (hn cat hcat s hs) fun _ s₁ h₁ _ q₁ => ?_
    exact (ih q₁.1.sound h₁.ready).andThen fun _ s₂ h₂ _ => .pure h₂.ready trivial

section Bounded

variable [BoundedRandomSource ρ]

theorem functionType_proceeds (hn : Nests c nested) (h : ProceedsFor c nested .arithmeticType)
    (hs : s.Sound c) (hr : s.Ready c) :
    Proceeds c s (functionType nested) fun _ _ => True := by
  refine (functionsFull_completes hr).proceeds.andThen ?_
  rintro full s - rfl
  split
  · exact .infeasible hr
  · refine (Completes.internType hr .void).proceeds.bind (Quietly.internType hs .void trivial)
      fun _ s₁ h₁ _ q₁ => ?_
    refine (Proceeds.of_calmly h₁.ready (range_calmly 0 3)).bind
      (range_quietly q₁.1.sound (by decide)) fun count s₂ h₂ _ q₂ => ?_
    refine (h.parts hn (by decide) q₂.1.sound h₂.ready count).andThen fun params s₃ h₃ _ => ?_
    refine (Completes.internType h₃.ready _).proceeds.andThen fun id s₄ h₄ _ => ?_
    refine (addFunctionType_completes h₄.ready id).proceeds.andThen fun _ s₅ h₅ _ => ?_
    exact .pure h₅.ready trivial

/-- A kind of type is produced if its parts are. -/
theorem typeVariant_proceeds (hn : Nests c nested) (hs : s.Sound c) (hr : s.Ready c) {op : Opcode}
    (hparts : ∀ part, op.partCategory? = some part → ProceedsFor c nested part) :
    Proceeds c s (typeVariant nested op) fun _ _ => True := by
  unfold typeVariant
  split
  · exact .of_calmly hr (Calmly.internType _)
  · refine .of_calmly hr (intWidth_calmly.andThen fun _ _ _ => ?_)
    exact (chance_calmly isProbability_half).andThen fun _ _ _ => Calmly.internType _
  · exact .of_calmly hr (floatWidth_calmly.andThen fun _ _ _ => Calmly.internType _)
  · refine (hparts _ rfl s hs hr).andThen fun element s₁ h₁ _ => ?_
    exact .of_calmly h₁.ready ((range_calmly 2 4).andThen fun _ _ _ => Calmly.internType _)
  · exact .of_calmly hr (matrixType_calmly.andThen fun _ _ _ => Calmly.internType _)
  · refine (hparts _ rfl s hs hr).andThen fun element s₁ h₁ _ => ?_
    refine .of_calmly h₁.ready ((range_calmly 1 8).andThen fun _ _ _ => ?_)
    exact (indexConstant_calmly _).andThen fun _ _ _ => Calmly.internType _
  · refine (Proceeds.of_calmly hr (range_calmly 1 4)).bind (range_quietly hs (by decide))
      fun count s₁ h₁ _ q₁ => ?_
    refine ((hparts _ rfl).parts hn (by decide) q₁.1.sound h₁.ready count).andThen
      fun members s₂ h₂ _ => ?_
    exact .of_calmly h₂.ready (Calmly.internType _)
  · exact functionType_proceeds hn (hparts _ rfl) hs hr
  · exact .infeasible hr

theorem typeVariant_leads (hn : Nests c nested) (hs : s.Sound c) (op : Opcode) :
    Leads c s (typeVariant nested op) fun s _ s' => Enlists c s s' := by
  by_cases hop : op = .typeFunction
  · subst hop
    exact Ends.mono (functionType_leads hn hs) (fun _ _ h => h.1) fun _ _ he => he
  · exact Ends.mono (typeVariant_quietly hn hs hop) (fun _ _ h => h.1.enlists) fun _ _ he => he

end Bounded

section Lawful

variable [LawfulRandomSource ρ]

/-- The bound for nesting suffices for every category that nests no more. -/
theorem typeWithin_proceeds (hc : c.validate = .ok ()) (nesting : Nat) {cat : Category}
    (hcat : cat ≠ .containerType) (hnesting : cat.nesting ≤ nesting) :
    ProceedsFor c (typeWithin (ρ := ρ) nesting) cat := by
  induction nesting generalizing cat with
  | zero =>
    intro s hs hr
    have hn : Nests c fun _ : Category => (fault .outOfSteps : Gen ρ EntryId) :=
      fun _ _ _ hs => .fault hs
    refine (dispatch_proceeds hc hcat (fun _ hs => hs) (fun _ _ _ q => q.sound)
      (fun op _ s hs => typeVariant_leads hn hs op) (fun op hop s hs hr => ?_) hs hr).mono
      fun _ _ _ _ => trivial
    refine typeVariant_proceeds hn hs hr fun part hpart => ?_
    have := (Category.nesting_partCategory hop hpart).1
    omega
  | succ nesting ih =>
    intro s hs hr
    have hn := nests_typeWithin (c := c) (ρ := ρ) nesting
    refine (dispatch_proceeds hc hcat (fun _ hs => hs) (fun _ _ _ q => q.sound)
      (fun op _ s hs => typeVariant_leads hn hs op) (fun op hop s hs hr => ?_) hs hr).mono
      fun _ _ _ _ => trivial
    refine typeVariant_proceeds hn hs hr fun part hpart => ?_
    obtain ⟨hlt, -, hcontainer⟩ := Category.nesting_partCategory hop hpart
    exact ih hcontainer (by omega)

theorem type_proceeds (hc : c.validate = .ok ()) {cat : Category} (hcat : cat ≠ .containerType) :
    ProceedsFor c (type (ρ := ρ)) cat :=
  typeWithin_proceeds hc cat.nesting hcat (Nat.le_refl _)

/-! ### Constants -/

theorem constantVariant_proceeds (hc : c.validate = .ok ()) (hs : s.Sound c) (hr : s.Ready c)
    (op : Opcode) : Proceeds c s (constantVariant op) fun _ _ => True := by
  have hof {s : State ρ} (hs : s.Sound c) (hr : s.Ready c) {ty : EntryId}
      (hty : s.code.table.HoldsType ty) : Proceeds c s (constantOf ty) fun _ _ => True :=
    .of_calmly hr (constantOf_calmly hs hty)
  have hexisting (test : Ty → Bool) : Calmly c s (existingType test : Gen ρ EntryId) :=
    existingType_calmly test
  unfold constantVariant
  split
  · exact .of_calmly hr ((hexisting _).andThen fun _ _ _ => Calmly.internConst _)
  · exact .of_calmly hr ((hexisting _).andThen fun _ _ _ => Calmly.internConst _)
  · refine (Proceeds.of_calmly hr (Settles.attempt (hexisting _))).bind
      (Quietly.attempt (existingType_quietly hs _)) ?_
    rintro (_ | ty) s₁ h₁ - ⟨q₁, hty⟩
    · refine (type_proceeds hc (by decide) s₁ q₁.sound h₁.ready).bind
        (type_quietly q₁.sound (by decide)) ?_
      rintro ty s₂ h₂ - ⟨q₂, hty⟩
      exact hof q₂.sound h₂.ready hty.holdsType
    · obtain ⟨t, ht, -⟩ := hty ty rfl
      exact hof q₁.sound h₁.ready ⟨t, ht⟩
  · refine (Proceeds.of_calmly hr (hexisting _)).bind (existingType_quietly hs _) ?_
    rintro ty s₁ h₁ - ⟨q₁, t, ht, -⟩
    exact hof q₁.sound h₁.ready ⟨t, ht⟩
  · exact .infeasible hr

theorem constant_proceeds (hc : c.validate = .ok ()) (hs : s.Sound c) (hr : s.Ready c) :
    Proceeds c s constant fun _ _ => True :=
  (dispatch_proceeds hc (by decide) (fun _ hs => hs) (fun _ _ _ q => q.sound)
    (fun op _ s hs => constantVariant_quietly hs op)
    (fun op _ s hs hr => constantVariant_proceeds hc hs hr op) hs hr).mono fun _ _ _ _ => trivial

end Lawful

/-! ### The table -/

/-- Attempts at entries are never infeasible. -/
theorem fill_completes {produce : Gen ρ EntryId} {post : EntryId → State ρ → Prop}
    (hlead : ∀ s : State ρ, s.Sound c → Leads c s produce fun s id s' => Enlists c s s' ∧ post id s')
    (hproduce : ∀ s : State ρ, s.Sound c → s.Ready c → Proceeds c s produce fun _ _ => True)
    (isEnough : State ρ → Bool) (attempts : Nat) (hs : s.Sound c) (hr : s.Ready c) :
    Completes c s (fill isEnough produce attempts) fun _ _ => True := by
  induction attempts generalizing s with
  | zero => exact .pure hr trivial
  | succ attempts ih =>
    refine Completes.get_bind ?_
    split_ifs
    · exact .pure hr trivial
    · refine (Completes.attempt (hproduce s hs hr)).bind (hlead s hs).attempt ?_
      rintro o s₁ h₁ - ⟨hsome, hnone⟩
      refine ih ?_ h₁.ready
      cases o with
      | none => exact (hnone rfl).sound
      | some id => exact (hsome id rfl).1.sound

theorem attemptsFor_completes (hr : s.Ready c) {entries : Nat}
    (h : entries = c.maxTypes ∨ entries = c.maxConstants) :
    Completes c s (attemptsFor entries) fun _ s' => s' = s := by
  unfold attemptsFor
  by_cases hfit : entries * 4 < 2 ^ 64
  · have hword : Fault.checkWord 64 (entries * 4) = .ok (entries * 4) := if_pos hfit
    rw [hword]
    exact ⟨.refl hr, rfl⟩
  · have hword : Fault.checkWord 64 (entries * 4) = .error .overflow := if_neg hfit
    rw [hword]
    refine Completes.stop (.inr (.attempts ?_))
    rcases h with rfl | rfl
    · exact .inl (Nat.not_lt.mp hfit)
    · exact .inr (Nat.not_lt.mp hfit)

theorem entryPointType_completes (hr : s.Ready c) :
    Completes c s entryPointType fun _ _ => True := by
  refine (Completes.internType hr .void).andThen fun result s₁ h₁ _ => ?_
  refine (Completes.internType h₁.ready _).andThen fun ty s₂ h₂ _ => ?_
  exact addFunctionType_completes h₂.ready ty

/-! ### Variables of the module -/

/-- A step that is not infeasible. -/
abbrev Feasible (c : Config) (s : State ρ) (x : Gen ρ α) : Prop :=
  Ends x c s (fun _ _ => True) fun e _ => e ≠ .infeasible

omit [RandomSource ρ] in
theorem attempt_feasible (x : Gen ρ α) : Feasible c s (Gen.attempt x) := by
  refine Ends.attempt (Ends.mono Ends.trivial (fun _ _ _ => trivial) ?_)
  rintro (_ | cause) s' -
  · trivial
  · exact nofun

omit [RandomSource ρ] in
theorem Feasible.bind {x : Gen ρ α} {f : α → Gen ρ β} (hx : Feasible c s x)
    (hf : ∀ a s', Feasible c s' (f a)) : Feasible c s (x >>= f) :=
  Ends.bind (Ends.mono hx (fun a s' _ => hf a s') fun _ _ he => he)

theorem storageBuffersFrom_feasible (count binding : Nat) :
    Feasible c s (storageBuffersFrom count binding) := by
  induction count generalizing s binding with
  | zero => exact Ends.pure trivial
  | succ count ih =>
    refine (attempt_feasible _).bind fun _ _ => ?_
    exact Feasible.bind (ih _) fun _ _ => Ends.pure trivial

theorem privateVariablesWithin_feasible (count : Nat) :
    Feasible c s (privateVariablesWithin count) := by
  induction count generalizing s with
  | zero => exact Ends.pure trivial
  | succ count ih =>
    refine (attempt_feasible _).bind fun o _ => ?_
    cases o with
    | none => exact Ends.pure trivial
    | some ty =>
      exact (attempt_feasible _).bind fun _ _ => Feasible.bind ih fun _ _ => Ends.pure trivial

omit [RandomSource ρ] in
/-- A step that settles and is not infeasible stops only where numbers run out. -/
theorem Settles.ends {x : Gen ρ α} {k : Nat} (h : Settles k c s x) (hx : Feasible c s x) :
    Ends x c s (fun _ s' => Still k s s') fun e _ =>
      e = .stopped (.fault .overflow) ∧ 2 ^ 32 ≤ s.nextSerial + k := by
  refine Ends.mono (Ends.and h hx) (fun _ _ h => h.1) ?_
  rintro e s' ⟨⟨rfl, -⟩ | ⟨rfl, -, hfull⟩, hne⟩
  · exact absurd rfl hne
  · exact ⟨rfl, hfull⟩

theorem storageBuffers_ends [BoundedRandomSource ρ] (hs : s.Sound c) :
    Ends storageBuffers c s (fun _ s' => Still c.storageBuffers s s') fun e _ =>
      e = .stopped (.fault .tooLarge) ∧ UInt64.size / 2 ≤ 4 * c.storageBuffers ∨
        e = .stopped (.fault .overflow) ∧ 2 ^ 32 ≤ s.nextSerial + c.storageBuffers := by
  refine Ends.bind (Ends.read ?_)
  dsimp only
  split_ifs with hlarge
  · exact .inl ⟨rfl, hlarge⟩
  · exact ((storageBuffersFrom_settles _ hs 0).ends (storageBuffersFrom_feasible _ _)).mono
      (fun _ _ h => h) fun _ _ h => .inr h

theorem privateVariables_ends (hs : s.Sound c) :
    Ends privateVariables c s (fun _ s' => Still c.privateVariables s s') fun e _ =>
      e = .stopped (.fault .overflow) ∧ 2 ^ 32 ≤ s.nextSerial + c.privateVariables :=
  Ends.bind (Ends.read ((privateVariablesWithin_settles _ hs).ends
    (privateVariablesWithin_feasible _)))

omit [RandomSource ρ] in
theorem attemptsFor_fits (entries : Nat) :
    Ends (attemptsFor entries) c s (fun _ _ => entries * 4 < 2 ^ 64) fun _ _ => True := by
  unfold attemptsFor Fault.checkWord
  split_ifs with hfit
  · exact hfit
  · trivial

/-- A table is filled only if the numbers of the configuration fit their words. -/
theorem globalTable_fits : Ends globalTable c s (fun _ _ => c.Fits) fun _ _ => True := by
  refine Ends.after fun _ _ => Ends.bind (Ends.read (Ends.bind (Ends.mono (attemptsFor_fits _)
    (fun _ _ htypes => ?_) fun _ _ he => he)))
  refine Ends.after fun _ _ => Ends.bind (Ends.read (Ends.bind (Ends.mono (attemptsFor_fits _)
    (fun _ _ hconstants => ?_) fun _ _ he => he)))
  refine Ends.after fun _ _ => Ends.bind (Ends.bind (Ends.read ?_))
  dsimp only
  split_ifs with hlarge
  · trivial
  · refine Ends.mono Ends.trivial (fun _ _ _ => ?_) fun _ _ he => he
    exact Ends.after fun _ _ => Ends.pure ⟨htypes, hconstants, Nat.not_le.mp hlarge⟩

/-- The table of a valid configuration is filled, unless there is a reason to stop. -/
theorem globalTable_advances [LawfulRandomSource ρ] (hc : c.validate = .ok ()) (source : ρ) :
    Ends globalTable c (.start source) (fun _ s' => s'.Ready c) fun e s' =>
      ∃ cause, e = .stopped cause ∧ s'.MayStop c cause := by
  have hstart := State.sound_start c source
  have hmax := c.maxFunctions_ne_zero hc
  refine Ends.bind (Ends.mono ((entryPointType_completes (State.ready_start c source)).and
    (entryPointType_steadily hstart rfl hmax)) ?_ fun _ _ he => he.1)
  rintro _ s₁ ⟨⟨h₁, -⟩, hs₁, -⟩
  refine Ends.bind (Ends.read (Ends.bind (Ends.mono
    (attemptsFor_completes h₁.ready (.inl rfl)) ?_ fun _ _ he => he)))
  rintro types s₁ ⟨-, rfl⟩
  refine Ends.bind (Ends.mono ((fill_completes (fun _ hs => type_leads hs)
    (type_proceeds hc (by decide)) _ types hs₁.sound h₁.ready).and
    (fill_enlists (fun _ hs => type_leads hs) _ types hs₁.sound)) ?_ fun _ _ he => he.1)
  rintro _ s₂ ⟨⟨h₂, -⟩, hs₂⟩
  refine Ends.bind (Ends.read (Ends.bind (Ends.mono
    (attemptsFor_completes h₂.ready (.inr rfl)) ?_ fun _ _ he => he)))
  rintro constants s₂ ⟨-, rfl⟩
  refine Ends.bind (Ends.mono ((fill_completes (fun _ hs => constant_leads hs)
    (fun _ hs hr => constant_proceeds hc hs hr) _ constants hs₂.sound h₂.ready).and
    (fill_enlists (fun _ hs => constant_leads hs) _ constants hs₂.sound)) ?_ fun _ _ he => he.1)
  rintro _ s₃ ⟨⟨h₃, -⟩, hs₃⟩
  -- no variable has been declared so far
  have hserial : s₃.nextSerial = 0 :=
    Nat.le_zero.mp (h₁.trans (h₂.trans h₃)).serial
  refine Ends.bind (Ends.mono ((storageBuffers_ends hs₃.sound).and
    (storageBuffers_quietly hs₃.sound)) ?_ ?_)
  · rintro _ s₄ ⟨h₄, q₄, -⟩
    refine Ends.bind (Ends.mono (privateVariables_ends q₄.sound) ?_ ?_)
    · exact fun _ s₅ h₅ => Ends.pure (h₅.ready (h₄.ready h₃.ready))
    · rintro _ _ ⟨rfl, hfull⟩
      have := h₄.serial
      exact ⟨_, rfl, .inl (.inr (.serials (by omega)))⟩
  · rintro _ _ ⟨⟨rfl, hlarge⟩ | ⟨rfl, hfull⟩, -⟩
    · exact ⟨_, rfl, .inl (.inr (.reservation hlarge))⟩
    · exact ⟨_, rfl, .inl (.inr (.serials (by omega)))⟩

end Gen

end ShaderGen
