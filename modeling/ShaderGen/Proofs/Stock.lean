import ShaderGen.Proofs.Routines
import ShaderGen.Proofs.Simulation
import ShaderGen.Proofs.Supplies

/-!
Types and constants never run out. Only constants are ever found infeasible, and a constant
of a number is none of those, so each category keeps a variant that is not pinned: numbers,
of which not all are excluded, or constants of numbers. Function types are pinned as soon as
there are enough, so one is drawn only while there is room. A draw of a type produces at
once, and a draw of a constant in the end.
-/

namespace ShaderGen

variable {ρ α β : Type} [RandomSource ρ] {c : Config} {s s' s'' : State ρ}

/-- The categories of types that have numbers among them. Containers are made of others, and
all kinds of them may be excluded. -/
def Category.stocked : List Category :=
  [type, scalarType, numericType, arithmeticType, arrayElementType, structMemberType]

namespace Category

variable {cat : Category}

theorem isType_of_stocked (h : cat ∈ stocked) : cat.isType = true := by
  revert h
  cases cat <;> decide

theorem ne_containerType_of_stocked (h : cat ∈ stocked) : cat ≠ containerType := by
  rintro rfl
  revert h
  decide

theorem numbers_mem_of_stocked (h : cat ∈ stocked) :
    Opcode.typeInt ∈ cat.members ∧ Opcode.typeFloat ∈ cat.members := by
  revert h
  cases cat <;> decide

end Category

/-- What can always be asked for. -/
def Target.Stocked {α : Type} : Target α → Prop
  | .type cat => cat ∈ Category.stocked
  | .constant => True
  | .statement _ _ => False

/-- A session in which types and constants can be drawn. -/
structure State.Stocked (c : Config) (s : State ρ) : Prop where
  sound : s.Sound c
  ready : s.Ready c
  uncounted : s.statements = 0
  pruned : ∀ cat ∈ s.pruned, cat = .constant
  functions : c.maxFunctions ≤ s.functionTypes.size →
    Opcode.typeFunction ∈ (s.weights.row .type).pins
  constant : Opcode.constant ∉ (s.weights.row .constant).pins

/-- A stocked session follows another one; function types may be listed only where it is
said so. -/
structure Restocks (c : Config) (lists : Prop) (s s' : State ρ) : Prop where
  stocked : s'.Stocked c
  enlists : Enlists c s s'
  weights : s.weights.Grows s'.weights
  serial : s'.nextSerial ≤ s.nextSerial
  functionTypes : ¬lists → s'.functionTypes = s.functionTypes

namespace Restocks

variable {lists lists' : Prop}

theorem refl (hs : s.Stocked c) : Restocks c lists s s :=
  ⟨hs, (Quiet.refl hs.sound).enlists, .refl _, Nat.le_refl _, fun _ => rfl⟩

theorem trans (h : Restocks c lists s s') (h' : Restocks c lists s' s'') :
    Restocks c lists s s'' where
  stocked := h'.stocked
  enlists := h.enlists.trans h'.enlists
  weights := h.weights.trans h'.weights
  serial := h'.serial.trans h.serial
  functionTypes hlists := (h'.functionTypes hlists).trans (h.functionTypes hlists)

theorem mono (h : Restocks c lists s s') (hlists : lists → lists') : Restocks c lists' s s' :=
  ⟨h.stocked, h.enlists, h.weights, h.serial, fun h' => h.functionTypes (mt hlists h')⟩

theorem table_le (h : Restocks c lists s s') : s.code.table ≤ s'.code.table :=
  h.enlists.later.table

end Restocks

namespace State.Stocked

theorem start (hc : c.validate = .ok ()) (source : ρ) : (State.start source).Stocked c where
  sound := State.sound_start c source
  ready := State.ready_start c source
  uncounted := rfl
  pruned := nofun
  functions h := absurd (Nat.le_zero.mp h) (c.maxFunctions_ne_zero hc)
  constant h := by
    rw [State.start, WeightTable.row_empty] at h
    cases h

theorem still {k : Nat} (hs : s.Stocked c) (h : Still k s s') (q : Quiet c s s') :
    s'.Stocked c where
  sound := q.sound
  ready := h.ready hs.ready
  uncounted := h.statements.trans hs.uncounted
  pruned := h.pruned ▸ hs.pruned
  functions := by rw [q.functionTypes, h.weights]; exact hs.functions
  constant := by rw [h.weights]; exact hs.constant

theorem restocks {lists : Prop} (hs : s.Stocked c) (h : Still 0 s s') (q : Quiet c s s') :
    Restocks c lists s s' :=
  ⟨hs.still h q, q.enlists, h.weights ▸ .refl _, h.serial, fun _ => q.functionTypes⟩

/-- New pins do not matter, but for that of constants of numbers. -/
theorem repins {lists : Prop} (hs : s.Stocked c) {new : Category → Opcode → Prop}
    (h : s.Repins c new s') (hnew : ¬new .constant .constant) : Restocks c lists s s' := by
  obtain ⟨hrest, hdrawn, hgrows, hpins⟩ := h
  rw [hrest]
  have q : Quiet c s { s with weights := s'.weights } := .of_eq hs.sound rfl rfl rfl
  exact {
    stocked := {
      sound := q.sound
      ready := ⟨hdrawn, hs.ready.known⟩
      uncounted := hs.uncounted
      pruned := hs.pruned
      functions := fun h => hgrows.pins _ _ (hs.functions h)
      constant := fun h => (hpins _ _ h).elim hs.constant hnew }
    enlists := q.enlists
    weights := hgrows
    serial := Nat.le_refl _
    functionTypes := fun _ => rfl }

/-- A variant of every stocked category is left. -/
theorem exists_left (hc : c.validate = .ok ()) (hs : s.Stocked c) {t : Target α}
    (ht : t.Stocked) :
    ∃ op ∈ t.category.members, op ∉ (s.weights.row t.category).pins := by
  cases t with
  | statement => exact ht.elim
  | constant => exact ⟨.constant, by decide, hs.constant⟩
  | type cat =>
    have hpins := hs.ready.drawn.pins cat fun hmem => by
      have htype := Category.isType_of_stocked ht
      rw [hs.pruned cat hmem] at htype
      cases htype
    have hmem := Category.numbers_mem_of_stocked ht
    rcases c.numeric_of_validate hc with hint | hfloat
    · exact ⟨_, hmem.1, fun hpin => (hpins _ hpin).2.elim hint nofun⟩
    · exact ⟨_, hmem.2, fun hpin => (hpins _ hpin).2.elim hfloat nofun⟩

end State.Stocked

/-! ### Function types -/

namespace Gen

/-- A function type that there is room for is listed, and no more are drawn once there are
enough. -/
theorem addFunctionType_surely (hs : s.Stocked c) {id r : EntryId} {params : List EntryId}
    (hid : s.code.table.IsType id (.function r params))
    (hroom : s.functionTypes.size < c.maxFunctions) :
    Surely c s (addFunctionType id) fun _ s' =>
      Restocks c True s s' ∧ s'.functionTypes = s.functionTypes.push id := by
  have hpush := Enlists.push hs.sound hid hroom
  refine Ends.bind (.modify (Ends.bind (Ends.bind (.read (Ends.bind (.get (.pure ?_)))))))
  have hready : State.Ready c { s with functionTypes := s.functionTypes.push id } :=
    ⟨hs.ready.drawn, hs.ready.known⟩
  split
  case isTrue hfull =>
    have htype : Category.type ≠ .statement := nofun
    refine (pinZero_surely (.of_ne htype) hready.drawn (.inr ⟨rfl, .inr rfl⟩)).mono ?_
      fun _ _ h => h
    rintro _ s₁ ⟨⟨hrest, hdrawn, hgrows, hpins⟩, -, hpin⟩
    rw [hrest]
    have q : Quiet c { s with functionTypes := s.functionTypes.push id }
        { s with functionTypes := s.functionTypes.push id, weights := s₁.weights } :=
      .of_eq hpush.sound rfl rfl rfl
    exact ⟨{
      stocked := {
        sound := q.sound
        ready := ⟨hdrawn, hready.known⟩
        uncounted := hs.uncounted
        pruned := hs.pruned
        functions := fun _ => hpin
        constant := fun h => (hpins _ _ h).elim hs.constant nofun }
      enlists := hpush.trans q.enlists
      weights := hgrows
      serial := Nat.le_refl _
      functionTypes := fun h => absurd trivial h }, rfl⟩
  case isFalse hmore =>
    exact .pure ⟨{
      stocked := {
        sound := hpush.sound
        ready := hready
        uncounted := hs.uncounted
        pruned := hs.pruned
        functions := fun h => absurd (decide_eq_true h) hmore
        constant := hs.constant }
      enlists := hpush
      weights := .refl _
      serial := Nat.le_refl _
      functionTypes := fun h => absurd trivial h }, rfl⟩

end Gen

/-! ### The contract -/

/-- A request is served: it ends with an entry of what was asked for, and with no type of a
kind that is excluded. -/
def Target.Serves (c : Config) {α : Type} : Target α → Except Ending α → State ρ → Prop
  | .type cat, .ok id, s => ∃ ty, s.code.table.IsType id ty ∧ ty.opcode ∈ cat.members ∧
      ty.opcode ∉ c.excluded
  | .constant, .ok id, s => ∃ ty, s.code.table.HasConst id ty
  | _, _, _ => False

/-- A request may list function types: they are of the category, and not excluded. -/
def Target.Lists (c : Config) {α : Type} (t : Target α) : Prop :=
  t.category = .type ∧ .typeFunction ∉ c.excluded

/-- The excluded types of a category are pinned. -/
def State.Bars (c : Config) (cat : Category) (s : State ρ) : Prop :=
  cat.isType = true → ∀ op ∈ c.excluded, op ∈ cat.members → op ∈ (s.weights.row cat).pins

/-- Types are asked for by categories that are never exhausted, and none is entered that is
excluded. -/
def Event.Admitted (c : Config) : Event → Prop
  | .dispatch cat => cat.isType = true → cat ∈ Category.stocked
  | .enter cat op => cat.isType = true → op ∉ c.excluded
  | _ => True

omit [RandomSource ρ] in
theorem Target.Serves.exists_ok {t : Target α} {out : Except Ending α} (h : t.Serves c out s) :
    ∃ a, out = .ok a ∧ t.Serves c (.ok a) s := by
  cases out with
  | error e => cases t <;> exact h.elim
  | ok a => exact ⟨a, rfl, h⟩

theorem Target.Stocked.ne_statement {t : Target α} (h : t.Stocked) : t.category ≠ .statement := by
  cases t with
  | type cat =>
    rintro rfl
    cases Category.isType_of_stocked h
  | constant => exact nofun
  | statement => exact h.elim

theorem Target.Stocked.admitted {t : Target α} (h : t.Stocked) :
    (Event.dispatch t.category).Admitted c := by
  cases t with
  | type cat => exact fun _ => h
  | constant => exact nofun
  | statement => exact h.elim

/-- Types and constants are asked for in stocked sessions, and produced. Only a variant of a
constant may be infeasible, and not that of constants of numbers. -/
def Contract.stock (ρ : Type) [RandomSource ρ] (c : Config) : Contract (State ρ) where
  needs
    | .dispatch t, s => t.Stocked ∧ s.Stocked c
    | .resample t _, s => t.Stocked ∧ s.Stocked c ∧ s.Bars c t.category ∧
        s.weights.isParametrized t.category = true
    | .variant t op, s => t.Stocked ∧ s.Stocked c ∧ op ∈ t.category.members ∧
        op ∉ (s.weights.row t.category).pins ∧ (t.category.isType = true → op ∉ c.excluded)
    | .fill _ _ _, _ => False
  during _ _ e s := s.Stocked c ∧ e.Admitted c
  leaves
    | .dispatch t, s, out, s' => Restocks c (t.Lists c) s s' ∧ t.Serves c out s'
    | .resample t _, s, out, s' => Restocks c (t.Lists c) s s' ∧ t.Serves c out s'
    | .variant t op, s, out, s' => Restocks c (t.Lists c) s s' ∧
        (t.Serves c out s' ∨ out = .error .infeasible ∧ t.category = .constant ∧ op ≠ .constant)
    | .fill _ _ _, _, _, _ => False

namespace Plan

variable {lists : Prop} {p : Plan ρ α} {post : α → State ρ → Prop}

/-- A plan is carried out in stocked sessions and ends with a value. -/
def Provides (c : Config) (lists : Prop) (s : State ρ) (p : Plan ρ α)
    (post : α → State ρ → Prop) : Prop :=
  p.Meets c (.stock ρ c) (fun e s => s.Stocked c ∧ e.Admitted c)
    (fun out s' => Restocks c lists s s' ∧ ∃ a, out = .ok a ∧ post a s') s

namespace Provides

theorem mono {post' : α → State ρ → Prop} (h : Provides c lists s p post)
    (hpost : ∀ a s', Restocks c lists s s' → post a s' → post' a s') :
    Provides c lists s p post' := by
  refine Meets.mono h (fun _ _ h => h) ?_
  rintro _ s' ⟨hs', a, rfl, ha⟩
  exact ⟨hs', a, rfl, hpost a s' hs' ha⟩

/-- Plans list function types at their end if at all. -/
theorem bind {q : α → Plan ρ β} {post' : β → State ρ → Prop} (hp : Provides c False s p post)
    (hq : ∀ a s', Restocks c False s s' → post a s' → Provides c lists s' (q a) post') :
    Provides c lists s (p >>= q) post' := by
  change Meets c _ _ (.seq p q) _ s
  rw [Meets]
  refine Meets.mono hp (fun _ _ h => h) ?_
  rintro _ s₁ ⟨h₁, a, rfl, ha⟩
  refine Meets.mono (hq a s₁ h₁ ha) (fun _ _ h => h) ?_
  exact fun _ _ h₂ => ⟨(h₁.mono False.elim).trans h₂.1, h₂.2⟩

theorem pure (hs : s.Stocked c) {a : α} (h : post a s) :
    Provides c lists s (Pure.pure a) post := ⟨.refl hs, a, rfl, h⟩

theorem step {e : Event} {x : Gen ρ α} (hs : s.Stocked c) (he : e.Admitted c)
    (h : Gen.Surely c s x fun a s' => Restocks c lists s s' ∧ post a s') :
    Provides c lists s (.step e x) post := by
  refine ⟨⟨hs, he⟩, ?_⟩
  rintro s rfl
  rcases hrun : x.run c s with ⟨e | a, s'⟩
  · exact (h.of_run_error hrun).elim
  · obtain ⟨hs', ha⟩ := h.of_run_ok hrun
    exact ⟨hs', a, rfl, ha⟩

theorem work (hs : s.Stocked c) {x : Gen ρ α} (h : Gen.Supplies c s x post) :
    Provides c lists s (Plan.work x) post :=
  step hs trivial (Gen.Ends.mono h (fun _ _ h => ⟨hs.restocks h.1 h.2.1, h.2.2⟩) fun _ _ h => h)

theorem ask {t : Target α} (hs : s.Stocked c) (ht : t.Stocked)
    (hlists : t.Lists c → lists) :
    Provides c lists s (ask t) fun a s' => t.Serves c (.ok a) s' := by
  refine ⟨⟨ht, hs⟩, fun _ _ h => h, ?_⟩
  rintro _ s' ⟨hs', hserves⟩
  exact ⟨hs'.mono hlists, hserves.exists_ok⟩

end Provides

/-- A part of a type. -/
theorem part_provided (hs : s.Stocked c) {cat : Category}
    (hcat : cat ∈ Category.stocked ∧ cat ≠ .type) :
    Provides c lists s (ask (.type cat)) fun id s' => s'.code.table.IsOf id cat :=
  (Provides.ask (t := .type cat) hs hcat.1 fun h => absurd h.1 hcat.2).mono
    fun _ _ _ ⟨ty, hty, hmem, _⟩ => ⟨ty, hty, hmem⟩

/-- Parts of one category. -/
theorem parts_provided (hs : s.Stocked c) {cat : Category}
    (hcat : cat ∈ Category.stocked ∧ cat ≠ .type) (count : Nat) :
    Provides c False s (askAll (List.replicate count cat)) fun ids s' =>
      ids.length = count ∧ ∀ id ∈ ids, s'.code.table.IsOf id cat := by
  induction count generalizing s with
  | zero => exact .pure hs ⟨rfl, nofun⟩
  | succ count ih =>
    refine (part_provided hs hcat).bind fun id s₁ h₁ hid => ?_
    refine (ih h₁.stocked).bind fun ids s₂ h₂ hids => ?_
    refine .pure h₂.stocked ⟨congrArg Nat.succ hids.1, fun id' hid' => ?_⟩
    rcases List.mem_cons.mp hid' with rfl | hid'
    · exact hid.mono h₂.table_le
    · exact hids.2 id' hid'

section Bounded

variable [BoundedRandomSource ρ]

/-- A function type is made as long as there is room for one. -/
theorem functionType_provides (hs : s.Stocked c)
    (hroom : s.functionTypes.size < c.maxFunctions) (hlists : lists) :
    Provides c lists s (typeVariant .typeFunction) fun id s' =>
      ∃ ty, s'.code.table.IsType id ty ∧ ty.opcode = .typeFunction := by
  refine (Provides.work hs (Gen.functionsFull_supplies hs.sound)).bind ?_
  rintro _ s - ⟨rfl, rfl⟩
  rw [decide_eq_false (Nat.not_le.mpr hroom)]
  refine (Provides.work hs (Gen.internType_supplies (t := .void) hs.sound trivial)).bind
    fun r s₁ h₁ hr => ?_
  refine (Provides.work h₁.stocked (Gen.range_supplies h₁.stocked.sound (by decide))).bind
    fun count s₂ h₂ _ => ?_
  refine (parts_provided h₂.stocked (by decide) count).bind fun params s₃ h₃ hparams => ?_
  refine (Provides.work h₃.stocked (Gen.internType_supplies (t := .function r params)
    h₃.stocked.sound ⟨(h₂.trans h₃).table_le hr, hparams.2⟩)).bind fun id s₄ h₄ hid => ?_
  -- Nothing was listed so far, so the room is still there.
  have hroom₄ : s₄.functionTypes.size < c.maxFunctions := by
    rw [(h₁.trans (h₂.trans (h₃.trans h₄))).functionTypes not_false]
    exact hroom
  have hadd := Gen.addFunctionType_surely h₄.stocked hid hroom₄
  refine Meets.step ⟨h₄.stocked, trivial⟩ ?_ ?_
  · rintro s a s₅ rfl hrun
    obtain ⟨h₅, -⟩ := hadd.of_run_ok hrun
    exact ⟨h₅.mono fun _ => hlists, id, rfl, _, h₅.table_le hid, rfl⟩
  · rintro s e s₅ rfl hrun
    exact (hadd.of_run_error hrun).elim

theorem typeVariant_provides {op : Opcode} (hs : s.Stocked c) {cat : Category}
    (hcat : cat.isType = true) (hmem : op ∈ cat.members) (hop : op ∉ (s.weights.row cat).pins)
    (hlists : cat = .type → op = .typeFunction → lists) :
    Provides c lists s (typeVariant op) fun id s' =>
      ∃ ty, s'.code.table.IsType id ty ∧ ty.opcode = op := by
  by_cases hfunction : op = .typeFunction
  · subst hfunction
    obtain rfl : cat = .type := by
      by_contra hne
      exact Gen.not_typeFunction_of_mem hne hmem rfl
    refine functionType_provides hs ?_ (hlists rfl rfl)
    by_contra hfull
    exact hop (hs.functions (Nat.not_lt.mp hfull))
  unfold typeVariant
  split
  · refine (part_provided hs (by decide)).bind fun element s₁ h₁ helement => ?_
    refine .work h₁.stocked ((Gen.range_supplies h₁.stocked.sound (by decide)).bind
      fun n s₂ q₂ hn => ?_)
    exact (Gen.internType_supplies (t := .vector element n) q₂.sound
      ⟨hn, helement.mono q₂.table_le⟩).mono fun id s' _ h => ⟨_, h, rfl⟩
  · refine (part_provided hs (by decide)).bind fun element s₁ h₁ helement => ?_
    refine .work h₁.stocked ((Gen.range_supplies h₁.stocked.sound (by decide)).bind
      fun n s₂ q₂ hn => ?_)
    have hlt : n < 2 ^ 32 := by omega
    refine (Gen.indexConstant_supplies q₂.sound hlt).bind fun length s₃ q₃ hlength => ?_
    exact (Gen.internType_supplies (t := .array element length) q₃.sound
      ⟨helement.mono (q₂.trans q₃).table_le, n, hlength, hn⟩).mono fun id s' _ h => ⟨_, h, rfl⟩
  · refine (Provides.work hs (Gen.range_supplies hs.sound (by decide))).bind
      fun count s₁ h₁ hcount => ?_
    refine (parts_provided h₁.stocked (by decide) count).bind fun members s₂ h₂ hmembers => ?_
    exact .work h₂.stocked ((Gen.internType_supplies (t := .struct members) h₂.stocked.sound
      ⟨by omega, hmembers.2⟩).mono fun id s' _ h => ⟨_, h, rfl⟩)
  · exact absurd rfl hfunction
  · refine .work hs (Gen.typeVariant_supplies (fun _ _ _ hs => .infeasible hs) hs.sound ?_)
    have hkinds : ∀ op ∈ cat.members, op ∈ [Opcode.typeBool, .typeInt, .typeFloat, .typeMatrix,
        .typeVector, .typeArray, .typeStruct, .typeFunction] := by
      revert hcat
      cases cat <;> decide
    have := hkinds op hmem
    simp_all

/-- A constant of a number can always be made: if there is no such type yet, then one can. -/
theorem numberConstant_provides (hs : s.Stocked c) :
    Provides c False s (constantVariant .constant) fun id s' =>
      ∃ ty, s'.code.table.HasConst id ty := by
  have hexisting : Gen.Supplies c s (Gen.attempt (Gen.existingType Ty.isNumericScalar))
      fun o s' => ∀ id, o = some id → ∃ t, s'.code.table.IsType id t ∧
        t.isNumericScalar = true :=
    .of (Gen.Quietly.attempt (Gen.existingType_quietly hs.sound _))
      (Gen.Settles.attempt (Gen.existingType_calmly _)) (Gen.attempt_feasible _)
  refine (Provides.work hs hexisting).bind ?_
  rintro (_ | ty) s₁ h₁ hty
  · refine (part_provided h₁.stocked (by decide)).bind fun ty s₂ h₂ hty => ?_
    obtain ⟨t, ht, hmem⟩ := hty
    exact .work h₂.stocked ((Gen.constantOf_supplies h₂.stocked.sound ht
      (Ty.isNumericScalar_of_mem hmem)).mono fun _ _ _ h => ⟨ty, h⟩)
  · obtain ⟨t, ht, hnumeric⟩ := hty ty rfl
    exact .work h₁.stocked ((Gen.constantOf_supplies h₁.stocked.sound ht hnumeric).mono
      fun _ _ _ h => ⟨ty, h⟩)

/-- Other constants are made of what is there, or else infeasible. -/
theorem constantVariant_calmly {op : Opcode} (hs : s.Sound c) (hop : op ≠ .constant) :
    Gen.Calmly c s (Gen.constantVariant op) := by
  have hexisting (test : Ty → Bool) :
      Gen.Calmly c s (Gen.existingType test : Gen ρ EntryId) := Gen.existingType_calmly test
  unfold Gen.constantVariant
  split
  · exact (hexisting _).andThen fun _ _ _ => Gen.Calmly.internConst _
  · exact (hexisting _).andThen fun _ _ _ => Gen.Calmly.internConst _
  · exact absurd rfl hop
  · refine Gen.Calmly.seq (hexisting _) (Gen.existingType_quietly hs _) ?_
    rintro ty s₁ q₁ ⟨t, ht, -⟩
    exact Gen.constantOf_calmly q₁.sound ⟨t, ht⟩
  · exact Gen.Settles.infeasible

theorem constantVariant_meets {op : Opcode} (hs : s.Stocked c) :
    (constantVariant (ρ := ρ) op).Meets c (.stock ρ c) (fun e s => s.Stocked c ∧ e.Admitted c)
      ((Contract.stock ρ c).leaves (.variant .constant op) s) s := by
  by_cases hop : op = .constant
  · subst hop
    refine Meets.mono (numberConstant_provides hs) (fun _ _ h => h) ?_
    rintro _ s' ⟨hs', id, rfl, hid⟩
    exact ⟨hs'.mono False.elim, .inl hid⟩
  have hplan : constantVariant (ρ := ρ) op = work (Gen.constantVariant op) := by
    cases op <;> first | rfl | exact absurd rfl hop
  rw [hplan]
  refine ⟨⟨hs, trivial⟩, ?_⟩
  rintro s rfl
  have hends := (Gen.constantVariant_quietly hs.sound op).and
    (constantVariant_calmly hs.sound hop)
  rcases hrun : (Gen.constantVariant op).run c s with ⟨e | id, s'⟩
  · obtain ⟨hhalts, hcalm⟩ := hends.of_run_error hrun
    obtain rfl := Gen.Calmly.eq_infeasible hcalm
    have hstill : Still 0 s s' :=
      hcalm.elim (fun h => h.2) fun h => absurd h.2.1 (Nat.lt_irrefl 0)
    exact ⟨hs.restocks hstill hhalts, .inr ⟨rfl, rfl, hop⟩⟩
  · obtain ⟨⟨q, hid⟩, hstill⟩ := hends.of_run_ok hrun
    exact ⟨hs.restocks hstill q, .inl hid⟩

end Bounded

/-! ### Draws -/

/-- The weights of a category are put in place, and its excluded types are pinned. -/
theorem prepare_surely (hs : s.Stocked c) {t : Target α} (ht : t.Stocked) :
    Gen.Surely c s (prepare t.category) fun _ s' => Restocks c False s s' ∧
      s'.Bars c t.category ∧ s'.weights.isParametrized t.category = true := by
  unfold prepare
  rw [if_neg ht.ne_statement]
  refine (Gen.ensureParametrized_surely (.of_ne ht.ne_statement) hs.ready.drawn).bind ?_
  rintro _ s₁ ⟨h₁, hparametrized⟩
  have hs₁ : Restocks c False s s₁ := hs.repins h₁ id
  refine Gen.Ends.mono (Gen.applyExclusions_surely (.of_ne ht.ne_statement)
    hs₁.stocked.ready.drawn) ?_ fun _ _ h => h
  rintro _ s₂ ⟨h₂, hbars⟩
  refine ⟨hs₁.trans (hs₁.stocked.repins h₂ ?_), hbars, h₂.grows.parametrized _ hparametrized⟩
  rintro ⟨hcat, htype, -⟩
  rw [← hcat] at htype
  cases htype

/-- A constant that was infeasible is not drawn again. -/
theorem prune_surely (hs : s.Stocked c) {op : Opcode} (hop : op ≠ .constant) :
    Gen.Surely c s (Gen.prune .constant op) fun _ s' => Restocks c False s s' := by
  refine Gen.Ends.mono (Gen.prune_surely (.of_ne nofun) hs.ready.drawn) ?_ fun _ _ h => h
  rintro _ s₂ ⟨pruned, hmem, hdrawn, h₂, -⟩
  have q : Quiet c s { s with pruned } := .of_eq hs.sound rfl rfl rfl
  have h₁ : Restocks c False s { s with pruned } := {
    stocked := {
      sound := q.sound
      ready := ⟨hdrawn, hs.ready.known⟩
      uncounted := hs.uncounted
      pruned := fun cat hcat => ((hmem cat).mp hcat).elim id (hs.pruned cat)
      functions := hs.functions
      constant := hs.constant }
    enlists := q.enlists
    weights := .refl _
    serial := Nat.le_refl _
    functionTypes := fun _ => rfl }
  exact h₁.trans (h₁.stocked.repins h₂ fun h => hop h.2.symm)

theorem dispatch_stock {t : Target α} (hs : s.Stocked c) (ht : t.Stocked) :
    (Routine.body (ρ := ρ) (.dispatch t)).Meets c (.stock ρ c)
      (fun e s => s.Stocked c ∧ e.Admitted c)
      ((Contract.stock ρ c).leaves (.dispatch t) s) s := by
  have hcheck : Gen.Surely c s Gen.checkBudget fun _ s' => Restocks c False s s' ∧ s' = s := by
    refine Gen.Ends.mono (checkBudget_ends s) ?_ ?_
    · rintro _ _ ⟨rfl, -⟩
      exact ⟨.refl hs, rfl⟩
    · rintro e _ ⟨rfl, -, hover⟩
      rw [hs.uncounted] at hover
      exact absurd hover (Nat.not_lt_zero _)
  have hbody : Provides c (t.Lists c) s (Routine.body (.dispatch t))
      fun a s' => t.Serves c (.ok a) s' := by
    refine (Provides.step hs ht.admitted hcheck).bind ?_
    rintro _ s - rfl
    have hprepare := prepare_surely hs ht
    refine (Provides.step (e := .work) hs trivial hprepare).bind fun _ s₁ h₁ hready => ?_
    refine ⟨⟨ht, h₁.stocked, hready⟩, fun _ _ h => h, ?_⟩
    rintro _ s' ⟨hs', hserves⟩
    exact ⟨hs', hserves.exists_ok⟩
  refine Meets.mono hbody (fun _ _ h => h) ?_
  rintro _ s' ⟨hs', a, rfl, ha⟩
  exact ⟨hs', ha⟩

variable [LawfulRandomSource ρ]

theorem resample_stock (hc : c.validate = .ok ()) {t : Target α} (misses : Nat)
    (hs : s.Stocked c) (ht : t.Stocked) (hbars : s.Bars c t.category)
    (hparametrized : s.weights.isParametrized t.category = true) :
    (Routine.body (ρ := ρ) (.resample t misses)).Meets c (.stock ρ c)
      (fun e s => s.Stocked c ∧ e.Admitted c)
      ((Contract.stock ρ c).leaves (.resample t misses) s) s := by
  obtain ⟨left, hleft, hfree⟩ := hs.exists_left hc ht
  have hsample := Gen.sample?_surely ht.ne_statement hs.ready.drawn hparametrized hleft hfree
  refine Meets.step ⟨hs, trivial⟩ ?_ ?_
  · rintro s o s₁ rfl hrun
    obtain ⟨⟨source, rfl⟩, op, rfl, hmem, hop⟩ := hsample.of_run_ok hrun
    have h₁ : Restocks c (t.Lists c) s { s with source } :=
      hs.restocks ⟨rfl, rfl, rfl, rfl, Nat.le_refl _, Nat.le_refl _⟩ (.of_eq hs.sound rfl rfl rfl)
    have hadmitted : t.category.isType = true → op ∉ c.excluded := fun htype hexcluded =>
      hop (hbars htype op hexcluded hmem)
    refine Meets.handle ⟨ht, h₁.stocked, hmem, hop, hadmitted⟩ (fun _ _ h => h) ?_ ?_ ?_
    · rintro a s₂ ⟨h₂, hserves | ⟨⟨⟩, -⟩⟩
      dsimp only
      rw [if_neg ht.ne_statement]
      exact ⟨h₁.trans h₂, hserves⟩
    · rintro s₂ ⟨h₂, hserves | ⟨-, hcat, hne⟩⟩
      · obtain ⟨_, ⟨⟩, _⟩ := hserves.exists_ok
      have hprune : Gen.Surely c s₂ (Gen.prune t.category op) fun _ s' =>
          Restocks c False s₂ s' := hcat ▸ prune_surely h₂.stocked hne
      refine Meets.step ⟨h₂.stocked, trivial⟩ ?_ ?_
      · rintro s₂ _ s₃ rfl hrun
        have h₃ : Restocks c (t.Lists c) { s with source } s₃ :=
          h₂.trans ((hprune.of_run_ok hrun).mono False.elim)
        have hbars₃ : s₃.Bars c t.category := fun htype op hop hmem =>
          h₃.weights.pins _ _ (hbars htype op hop hmem)
        refine ⟨⟨ht, h₃.stocked, hbars₃, h₃.weights.parametrized _ hparametrized⟩,
          fun _ _ h => h, ?_⟩
        exact fun _ _ h₄ => ⟨(h₁.trans h₃).trans h₄.1, h₄.2⟩
      · rintro s₂ e s₃ rfl hrun
        exact (hprune.of_run_error hrun).elim
    · rintro cause s₂ ⟨-, hserves | ⟨⟨⟩, -⟩⟩
      obtain ⟨_, ⟨⟩, _⟩ := hserves.exists_ok
  · rintro s e s₁ rfl hrun
    exact (hsample.of_run_error hrun).elim

/-- Every routine keeps the contract. -/
theorem stock_kept (hc : c.validate = .ok ()) : (Contract.stock ρ c).Kept ρ c := by
  intro α r s hneeds
  cases r with
  | dispatch t => exact dispatch_stock hneeds.2 hneeds.1
  | resample t misses =>
    obtain ⟨ht, hs, hbars, hparametrized⟩ := hneeds
    exact resample_stock hc misses hs ht hbars hparametrized
  | variant t op =>
    obtain ⟨ht, hs, hmem, hop, hadmitted⟩ := hneeds
    refine enter_meets ⟨hs, hadmitted⟩ ?_
    cases t with
    | type cat =>
      have htype := Category.isType_of_stocked ht
      have hplan : Provides c ((Target.type cat).Lists c) s (typeVariant op) fun id s' =>
          ∃ ty, s'.code.table.IsType id ty ∧ ty.opcode = op :=
        typeVariant_provides hs htype hmem hop fun hcat hfunction =>
          ⟨hcat, hfunction ▸ hadmitted htype⟩
      refine Meets.mono hplan (fun _ _ h => h) ?_
      rintro _ s' ⟨hs', id, rfl, ty, hty, rfl⟩
      exact ⟨hs', .inl ⟨ty, hty, hmem, hadmitted htype⟩⟩
    | constant => exact constantVariant_meets hs
    | statement => exact ht.elim
  | fill => exact hneeds.elim

end Plan

end ShaderGen
