import ShaderGen.Proofs.Bounding
import ShaderGen.Proofs.Decorations

/-!
How storage buffers come about. While they are declared, there are no other variables and
the next number is that of the next buffer, so each buffer is new and its binding is its
place among them. No attempt at a buffer is infeasible: its members are words, for which
there is a layout. Before the buffers nothing is declared or decorated, and behind them
nothing that concerns them, so a finished shader declares as many buffers as its
configuration asks for, and no other variable of it holds a block.
-/

namespace ShaderGen

variable {ρ : Type} {c : Config} {s s' : State ρ} {bs : List BufferDecl}

/-- The given buffers are declared, and no other variables. -/
structure State.Buffering (s : State ρ) (bs : List BufferDecl) : Prop where
  declares : s.code.Declares bs
  serial : s.nextSerial = bs.length
  vars : ∀ id v, s.code.table.get? id = some (.var v) →
    v.storage = .storageBuffer ∧ v.serial < s.nextSerial
  locals : ∀ i ∈ s.code.instrs, i.opcode ≠ .var

theorem State.buffering_start (source : ρ) : (State.start source).Buffering [] where
  declares := .nil rfl rfl
  serial := rfl
  vars id v h := by cases h
  locals i hi := absurd hi (Array.not_mem_empty i)

theorem State.Buffering.spares (h : s.Buffering bs) (hspares : s.Spares s') : s'.Buffering bs where
  declares := h.declares.mono hspares.code.later
    (by rw [Module.bufferVars, hspares.code.vars, Module.bufferVars]) hspares.code.annotations
  serial := hspares.serial.trans h.serial
  vars := fun id v hv => by
    rw [← Table.mem_vars, hspares.code.vars, Table.mem_vars] at hv
    rw [hspares.serial]
    exact h.vars id v hv
  locals := fun i hi hop => h.locals i (hspares.code.locals i hi hop) hop

/-- The state with more annotations. -/
def State.note (s : State ρ) (as : List Annotation) : State ρ :=
  { s with code := { s.code with annotations := s.code.annotations ++ as.toArray } }

theorem State.note_annotations (s : State ρ) (as : List Annotation) :
    (s.note as).code.annotations.toList = s.code.annotations.toList ++ as := by
  simp [note]

theorem State.note_note (s : State ρ) (as as' : List Annotation) :
    (s.note as).note as' = s.note (as ++ as') := by
  simp [note]

/-- A state follows another by a new variable for a buffer. -/
structure State.AddsBuffer (s s' : State ρ) (buffer block : EntryId) : Prop where
  fits : s.nextSerial + 1 < 2 ^ 32
  serial : s'.nextSerial = s.nextSerial + 1
  fresh : s.code.table.get? buffer = none
  later : s.code.table ≤ s'.code.table
  annotations : s'.code.annotations = s.code.annotations
  locals : ∀ i ∈ s'.code.instrs, i.opcode = .var → i ∈ s.code.instrs
  var : ∃ v, v.storage = .storageBuffer ∧ v.serial = s.nextSerial ∧
    s'.code.table.IsType v.ty (.pointer .storageBuffer block) ∧
    s'.code.table.vars = s.code.table.vars ++ [(buffer, v)]

/-- One more buffer, decorated as it has to be. -/
theorem State.Buffering.add (h : s.Buffering bs) {d : BufferDecl} (hd : d.Sound s.code)
    (hadds : (s.note (if s.code.isBlock d.block then []
      else BufferDecl.blockNotes d.block d.offsets)).AddsBuffer s' d.buffer d.block) :
    (s'.note (BufferDecl.bufferNotes d.buffer bs.length)).Buffering (bs ++ [d]) := by
  obtain ⟨v, hstorage, hserial, hty, hvars⟩ := hadds.var
  replace hvars : s'.code.table.vars = s.code.table.vars ++ [(d.buffer, v)] := hvars
  have hlength : s'.nextSerial = bs.length + 1 := hadds.serial.trans (congrArg (· + 1) h.serial)
  refine ⟨?_, ?_, fun id w hw => ?_, fun i hi hop => h.locals i (hadds.locals i hi hop) hop⟩
  · refine h.declares.add (n := (s.note _).code) (le_refl _) (hd.mono (le_refl _))
      (s.note_annotations _) hadds.later ?_ hty hadds.fresh ?_
    · change s'.code.bufferVars = _
      rw [Module.bufferVars, hvars, List.filter_append, Module.bufferVars]
      simp [hstorage]
    · rw [State.note_annotations, hadds.annotations]
  · rw [List.length_append]
    exact hlength
  · change s'.code.table.get? id = some (.var w) at hw
    change w.storage = .storageBuffer ∧ w.serial < s'.nextSerial
    rw [← Table.mem_vars, hvars, List.mem_append, Table.mem_vars, List.mem_singleton] at hw
    rcases hw with hw | hw
    · obtain ⟨hstorage, hlt⟩ := h.vars id w hw
      rw [h.serial] at hlt
      exact ⟨hstorage, by omega⟩
    · obtain ⟨rfl, rfl⟩ := Prod.mk.inj hw
      replace hserial : w.serial = s.nextSerial := hserial
      rw [h.serial] at hserial
      exact ⟨hstorage, by omega⟩

namespace Gen

theorem internType_ends (t : Ty) : Ends (internType t) c s
    (fun id s' => s.Spares s' ∧ s'.code.table.IsType id t) fun e _ => e ≠ .infeasible :=
  .build ⟨⟨s.code.spares_intern (e := .type t) rfl, rfl⟩, s.code.table.get?_intern (.type t)⟩

/-! ### Members -/

section Members

variable [RandomSource ρ]

theorem chance_ends (p : Float) : Ends (chance p) c s (fun _ s' => s.Spares s') fun e _ =>
    e ≠ .infeasible := by
  unfold chance
  split_ifs
  · exact .draw ⟨.refl _, rfl⟩
  · exact .draw ⟨.refl _, rfl⟩
  · exact .draw ⟨.refl _, rfl⟩
  · exact .fault nofun

variable [BoundedRandomSource ρ]

theorem range_ends {lo hi : Nat} (h : lo ≤ hi) : Ends (range lo hi) c s
    (fun k s' => s.Spares s' ∧ lo ≤ k ∧ k ≤ hi) fun e _ => e ≠ .infeasible := by
  refine .bind (.draw (.pure ⟨⟨.refl _, rfl⟩, Nat.le_add_right _ _, ?_⟩))
  have := BoundedRandomSource.below_lt 1 (hi - lo + 1) s.source (Nat.succ_pos _)
  omega

/-- A member is made of words. -/
theorem bufferMember_ends : Ends bufferMember c s
    (fun id s' => s.Spares s' ∧ ∃ kind n, s'.code.table.IsWords id kind n) fun e _ =>
      e ≠ .infeasible := by
  have hrest (s : State ρ) (kind : NumberKind) : Ends (do
      let scalar ← internType (kind.ty 32)
      if ← chance 0.5 then return scalar
      internType (.vector scalar (← range 2 4))) c s
      (fun id s' => s.Spares s' ∧ ∃ kind n, s'.code.table.IsWords id kind n) fun e _ =>
        e ≠ .infeasible := by
    refine .bind ((internType_ends _).mono ?_ fun _ _ he => he)
    rintro scalar s₁ ⟨h₁, hscalar⟩
    refine .bind ((chance_ends 0.5).mono (fun single s₂ h₂ => ?_) fun _ _ he => he)
    split
    · exact .pure ⟨h₁.trans h₂, kind, 1, .scalar (h₂.code.later hscalar)⟩
    · refine .bind ((range_ends (by decide)).mono ?_ fun _ _ he => he)
      rintro n s₃ ⟨h₃, hn⟩
      refine (internType_ends _).mono ?_ fun _ _ he => he
      rintro id s₄ ⟨h₄, hid⟩
      have h := h₂.trans (h₃.trans h₄)
      exact ⟨h₁.trans h, kind, n, .vector hid (h.code.later hscalar) hn⟩
  refine .bind ((range_ends (by decide)).mono ?_ fun _ _ he => he)
  rintro k s₁ ⟨h₁, -⟩
  split
  · exact (hrest s₁ .int).mono (fun _ _ h => ⟨h₁.trans h.1, h.2⟩) fun _ _ he => he
  · exact (hrest s₁ .uint).mono (fun _ _ h => ⟨h₁.trans h.1, h.2⟩) fun _ _ he => he
  · exact (hrest s₁ .float).mono (fun _ _ h => ⟨h₁.trans h.1, h.2⟩) fun _ _ he => he

theorem bufferMembers_ends (xs : List Nat) : Ends (xs.mapM fun _ => bufferMember) c s
    (fun types s' => s.Spares s' ∧ types.length = xs.length ∧
      ∀ ty ∈ types, ∃ kind n, s'.code.table.IsWords ty kind n) fun e _ => e ≠ .infeasible := by
  induction xs generalizing s with
  | nil => exact .pure ⟨.refl s, rfl, by simp⟩
  | cons x xs ih =>
    rw [List.mapM_cons]
    refine .bind (bufferMember_ends.mono ?_ fun _ _ he => he)
    rintro ty s₁ ⟨h₁, kind, n, hty⟩
    refine .bind (ih.mono ?_ fun _ _ he => he)
    rintro types s₂ ⟨h₂, hlength, htypes⟩
    refine .pure ⟨h₁.trans h₂, congrArg Nat.succ hlength, fun id hid => ?_⟩
    rcases List.mem_cons.mp hid with rfl | hid
    · exact ⟨kind, n, hty.mono h₂.code.later⟩
    · exact htypes id hid

end Members

/-! ### Decorations -/

theorem annotate_ends (a : Annotation) : Ends (annotate a) c s (fun _ s' => s' = s.note [a])
    fun e _ => e ≠ .infeasible := by
  refine .build ?_
  simp [State.note, Module.annotate]

theorem annotateAll_ends {α : Type} (f : α → Annotation) (xs : List α) :
    Ends (xs.forM fun x => annotate (f x)) c s (fun _ s' => s' = s.note (xs.map f))
      fun e _ => e ≠ .infeasible := by
  induction xs generalizing s with
  | nil => exact .pure (by simp [State.note])
  | cons x xs ih =>
    refine .bind ((annotate_ends _).mono ?_ fun _ _ he => he)
    rintro _ _ rfl
    refine ih.mono ?_ fun _ _ he => he
    rintro _ _ rfl
    exact State.note_note _ _ _

/-- A block that is none yet is decorated with the offsets of its members. -/
theorem decorateBlock_ends (block : EntryId) (offsets : List Nat) :
    Ends (decorateBlock block offsets) c s (fun _ s' => s' = s.note
      (if s.code.isBlock block then [] else BufferDecl.blockNotes block offsets))
      fun e _ => e ≠ .infeasible := by
  refine .bind (.get ?_)
  split
  · refine .pure ?_
    simp [State.note]
  · refine .bind ((annotate_ends _).mono ?_ fun _ _ he => he)
    rintro _ _ rfl
    refine (annotateAll_ends _ _).mono ?_ fun _ _ he => he
    rintro _ _ rfl
    rw [State.note_note]
    rfl

/-! ### Buffers -/

/-- A variable with a number that no other has is new. -/
theorem newVariable_ends [RandomSource ρ] {block : EntryId}
    (hvars : ∀ id v, s.code.table.get? id = some (.var v) → v.serial < s.nextSerial) :
    Ends (newVariable .storageBuffer block) c s
      (fun answer s' => ∃ buffer, answer = .entry buffer ∧ s.AddsBuffer s' buffer block) fun e _ =>
      e ≠ .infeasible := by
  refine .bind ((internType_ends _).mono ?_ fun _ _ he => he)
  rintro pointer s₁ ⟨h₁, hpointer⟩
  refine .bind (.bind (.get (.bind (.checked (fun next hnext => ?_) fun _ => nofun))))
  obtain ⟨hfit, rfl⟩ := Fault.checkWord_eq_ok.mp hnext
  refine .bind (.modify (.bind (.build (.pure (.pure ?_)))))
  let v : GlobalVar := ⟨pointer, .storageBuffer, none, s₁.nextSerial⟩
  have hfind : s₁.code.table.find? (.var v) = none := by
    cases hfind : s₁.code.table.find? (.var v) with
    | none => rfl
    | some id =>
      have hold := Table.find?_eq_some hfind
      rw [← Table.mem_vars, h₁.code.vars, Table.mem_vars] at hold
      have hlt := hvars id v hold
      rw [← h₁.serial] at hlt
      exact absurd hlt (Nat.lt_irrefl _)
  have hintern := Table.intern_of_find?_eq_none hfind
  have hle := s₁.code.table.le_intern (.var v)
  refine ⟨_, rfl, ?_⟩
  exact {
    fits := h₁.serial ▸ hfit
    serial := congrArg (· + 1) h₁.serial
    fresh := by
      change s.code.table.get? (s₁.code.table.intern (.var v)).1.id = none
      rw [hintern]
      exact Array.getElem?_eq_none (Table.size_le h₁.code.later)
    later := h₁.code.later.trans hle
    annotations := h₁.code.annotations
    locals := h₁.code.locals
    var := by
      refine ⟨v, rfl, h₁.serial, hle hpointer, ?_⟩
      change (s₁.code.table.intern (.var v)).2.vars =
        s.code.table.vars ++ [((s₁.code.table.intern (.var v)).1.id, v)]
      rw [hintern, Table.vars, Table.select_push _ hfind, ← h₁.code.vars]
      rfl }

variable [RandomSource ρ] [BoundedRandomSource ρ]

/-- A buffer gets its place among the buffers as its binding. -/
theorem storageBuffer_buffering (h : s.Buffering bs) :
    Ends (storageBuffer (min bs.length (UInt32.size - 1))) c s
      (fun _ s' => ∃ d, s'.Buffering (bs ++ [d])) fun e _ => e ≠ .infeasible := by
  refine .bind ((range_ends (by decide)).mono ?_ fun _ _ he => he)
  rintro count s₁ ⟨h₁, hcount⟩
  refine .bind ((bufferMembers_ends _).mono ?_ fun _ _ he => he)
  rintro types s₂ ⟨h₂, hlength, hwords⟩
  rw [List.length_range] at hlength
  refine .bind (.query (fun found hfound => ?_) fun _ => nofun)
  obtain ⟨members, rfl, hmembers⟩ := Layout.offsetsFrom_of_words hwords hfound
  refine .bind (show Ends (pure _) c s₂ _ _ from .pure ?_)
  refine .bind ((internType_ends _).mono ?_ fun _ _ he => he)
  rintro block s₃ ⟨h₃, hblock⟩
  have hs₃ := h.spares (h₁.trans (h₂.trans h₃))
  refine .bind ((decorateBlock_ends _ _).mono ?_ fun _ _ he => he)
  rintro _ s₄ hs₄
  have hvars : ∀ id v, s₄.code.table.get? id = some (.var v) → v.serial < s₄.nextSerial := by
    rw [hs₄]
    exact fun id v hv => (hs₃.vars id v hv).2
  refine .bind ((newVariable_ends hvars).mono ?_ fun _ _ he => he)
  rintro _ s₅ ⟨buffer, rfl, hadds⟩
  rw [hs₄] at hadds
  have hbinding : min bs.length (UInt32.size - 1) = bs.length := by
    have hfit : s₃.nextSerial + 1 < 2 ^ 32 := hadds.fits
    rw [hs₃.serial] at hfit
    have : UInt32.size = 4294967296 := rfl
    omega
  rw [hbinding]
  refine .bind ((annotate_ends _).mono ?_ fun _ _ he => he)
  rintro _ _ rfl
  refine .bind ((annotate_ends _).mono ?_ fun _ _ he => he)
  rintro _ _ rfl
  have hsound : BufferDecl.Sound s₃.code ⟨buffer, block, types, members⟩ := {
    struct := hblock
    few := hlength ▸ hcount
    members := hmembers.imp fun _ _ hb => hb.mono h₃.code.later
    offsets := (Layout.offsetsFrom_mono h₃.code.later hmembers 0).trans hfound }
  refine .pure ⟨⟨buffer, block, types, members⟩, ?_⟩
  rw [State.note_note]
  exact hs₃.add hsound hadds

/-- Every attempt gives one more buffer. -/
theorem storageBuffersFrom_buffering (count : Nat) (h : s.Buffering bs) :
    Ends (storageBuffersFrom count bs.length) c s
      (fun _ s' => ∃ bs', bs'.length = bs.length + count ∧ s'.Buffering bs') fun _ _ => True := by
  induction count generalizing s bs with
  | zero => exact .pure ⟨bs, rfl, h⟩
  | succ count ih =>
    refine .bind (.attempt ((storageBuffer_buffering h).mono ?_ ?_))
    · rintro _ s₁ ⟨d, h₁⟩
      have hlength : (bs ++ [d]).length = bs.length + 1 := by simp
      refine .bind ((hlength ▸ ih h₁).mono ?_ fun _ _ he => he)
      rintro _ s₂ ⟨bs', hbs', h₂⟩
      exact .pure ⟨bs', by omega, h₂⟩
    · rintro (_ | cause) s₁ hfeasible
      · exact absurd rfl hfeasible
      · trivial

theorem storageBuffers_buffering (h : s.Buffering []) : Ends storageBuffers c s
    (fun _ s' => ∃ bs, bs.length = c.storageBuffers ∧ s'.Buffering bs) fun _ _ => True := by
  refine .bind (.read ?_)
  dsimp only
  split_ifs
  · trivial
  · refine (storageBuffersFrom_buffering c.storageBuffers h).mono ?_ fun _ _ he => he
    rintro _ s' ⟨bs, hbs, h'⟩
    exact ⟨bs, by simpa using hbs, h'⟩

/-! ### Programs -/

/-- The table ends with the private variables, behind the buffers that were asked for. -/
theorem globalTable_buffering (hmax : c.maxFunctions ≠ 0) (source : ρ) :
    Ends globalTable c (.start source)
      (fun _ s' => ∃ bs s made, bs.length = c.storageBuffers ∧ s.Buffering bs ∧ s.Sound c ∧
        privateVariables.run c s = (.ok made, s')) fun _ _ => True := by
  refine .bind (((entryPointType_spares c _).and (entryPointType_steadily (State.sound_start c source)
    rfl hmax)).mono (fun _ s₁ h₁ => ?_) fun _ _ _ => trivial)
  refine .bind (.read (.bind (.checked (fun types _ => ?_) fun _ => trivial)))
  refine .bind (((fillTypes_spares _ types c s₁).and (fill_enlists (fun _ hs => type_leads hs) _
    types h₁.2.1.sound)).mono (fun _ s₂ h₂ => ?_) fun _ _ _ => trivial)
  refine .bind (.read (.bind (.checked (fun constants _ => ?_) fun _ => trivial)))
  refine .bind (((fillConstants_spares _ constants c s₂).and (fill_enlists
    (fun _ hs => constant_leads hs) _ constants h₂.2.sound)).mono (fun _ s₃ h₃ => ?_)
      fun _ _ _ => trivial)
  have hs₃ := (State.buffering_start source).spares (h₁.1.trans (h₂.1.trans h₃.1))
  refine .bind (((storageBuffers_buffering hs₃).and (storageBuffers_quietly h₃.2.sound)).mono ?_
    fun _ _ _ => trivial)
  rintro _ s₄ ⟨⟨bs, hlength, h₄⟩, q₄, -⟩
  refine .bind (Ends.ran.mono (fun made s₅ hrun => ?_) fun _ _ _ => trivial)
  exact .pure ⟨bs, s₄, made, hlength, h₄, q₄.sound, hrun⟩

/-- A program declares the buffers it has been asked for. -/
theorem program_declares (hmax : c.maxFunctions ≠ 0) (source : ρ) : Ends program c (.start source)
    (fun shader _ => ∃ bs, bs.length = c.storageBuffers ∧ shader.code.Declares bs ∧
      shader.code.Apart) fun _ _ => True := by
  refine .bind ((globalTable_buffering hmax source).mono ?_ fun _ _ he => he)
  rintro _ s₅ ⟨bs, s₄, made, hlength, h₄, -, hrun⟩
  have h₅ := (privateVariables_sparesBuffers c s₄).of_run_ok hrun
  refine .bind ((functions_sparesBuffers c s₅).mono ?_ fun _ _ _ => trivial)
  rintro ⟨body, entryPoint⟩ s₆ h₆
  have h : s₄.code.SparesBuffers s₆.code := h₅.trans h₆
  have hapart : s₄.code.Apart :=
    ⟨fun id v hv hne => absurd (h₄.vars id v hv).1 hne, fun i hi hop => absurd hop (h₄.locals i hi)⟩
  exact .bind (.get (.pure ⟨bs, hlength, h₄.declares.mono h.later h.buffers h.annotations,
    h.apart hapart⟩))

end Gen

/-- Bounding adds no variable. -/
theorem Module.guarding_spares : DynamicIndex.Guarding Module.Spares where
  refl := .refl
  trans := .trans
  intern m k := m.spares_intern (e := .const k) rfl
  guard {m id i j} hi hop hmodulo slot v := by
    refine (m.spares_alloc hmodulo).trans (spares_setOperand _ slot v ?_ hop)
    have hlt := (Array.getElem?_eq_some_iff.mp hi).1
    change (m.instrs.push j)[id.index]? = some i
    rw [Array.getElem?_push, if_neg (Nat.ne_of_lt hlt), hi]

theorem Shader.finish_spares {s s' : Shader} (h : s.finish = .ok s') : s.code.Spares s'.code :=
  Module.guarding_spares.finish h

/-- A shader declares as many storage buffers as its configuration asks for, and no other
variable of it holds a block. -/
theorem Config.declares_of_shaderFrom [RandomSource ρ] [BoundedRandomSource ρ] {source : ρ}
    {shader : Shader} (h : c.shaderFrom source = .ok shader) : ∃ bs : List BufferDecl,
      bs.length = c.storageBuffers ∧ shader.code.Declares bs ∧ shader.code.Apart := by
  obtain ⟨hvalid, program, state, hrun, hfinish⟩ := shaderFrom_eq_ok.mp h
  obtain ⟨bs, hlength, hdeclares, hapart⟩ :=
    (Gen.program_declares (c.maxFunctions_ne_zero hvalid) source).of_run_ok hrun
  have hspares := (Shader.finish_spares hfinish).sparesBuffers
  exact ⟨bs, hlength, hdeclares.mono hspares.later hspares.buffers hspares.annotations,
    hspares.apart hapart⟩

/-! ### A shader -/

/-- A configuration of shaders with three buffers, a private variable and a local one. -/
def Config.buffered : Config :=
  { small with
    maxDepth := 1
    storageBuffers := 3
    privateVariables := 1 }

/-- The choices of a shader in which the first and the last buffer hold the same struct, of
which there is a constant before, and the second a vector of three and a number behind it. -/
def Script.buffered : Script :=
  ⟨[6, 1, 1, 0, 1, 2, 0, 3, 0, 0, 0, 1, 0, 1, 2, 1, 1, 1, 0, 1, 1, 1, 1, 0, 1, 2, 1, 2, 1, 0, 0, 0]⟩

/-- The choices end in a shader, with two blocks for the three buffers. -/
theorem Config.buffered_shaderFrom : ∃ s, Config.buffered.shaderFrom Script.buffered = .ok s ∧
    s.code.annotations.toList =
      BufferDecl.blockNotes ⟨4⟩ [0, 4] ++ BufferDecl.bufferNotes ⟨9⟩ 0 ++
        BufferDecl.blockNotes ⟨12⟩ [0, 12] ++ BufferDecl.bufferNotes ⟨14⟩ 1 ++
          BufferDecl.bufferNotes ⟨15⟩ 2 := by
  have h : ((fun s : Shader => s.code.annotations.toList) <$>
      Config.buffered.shaderFrom Script.buffered).toOption = some
        (BufferDecl.blockNotes ⟨4⟩ [0, 4] ++ BufferDecl.bufferNotes ⟨9⟩ 0 ++
          BufferDecl.blockNotes ⟨12⟩ [0, 12] ++ BufferDecl.bufferNotes ⟨14⟩ 1 ++
            BufferDecl.bufferNotes ⟨15⟩ 2) := by decide +kernel
  exact map_eq_ok.mp (toOption_eq_some.mp h)

end ShaderGen
