import ShaderGen.Proofs.Serials
import ShaderGen.Proofs.Stock
import ShaderGen.Proofs.Termination

/-!
Filling the table. Whoever asks for a type or a constant on the way to a full table, or once
it is full, is given one; so the attempts at types and constants do what they are for, and
only the 32-bit numbers of the variables may run out.
-/

namespace ShaderGen

/-! ### Counts -/

namespace Table

theorem count_eq_countP {α : Type} (t : Table) (kind : Entity → Option α) :
    t.count kind = t.entries.toList.countP fun e => (kind e).isSome := by
  have hfold : ∀ (es : List Entity) (n : Nat),
      es.foldl (fun n e => if (kind e).isSome then n + 1 else n) n =
        n + es.countP fun e => (kind e).isSome := by
    intro es
    induction es with
    | nil => exact fun n => rfl
    | cons e es ih =>
      intro n
      rw [List.foldl_cons, ih, List.countP_cons]
      split_ifs <;> omega
  rw [count, ← Array.foldl_toList, hfold, Nat.zero_add]

/-- Constants are counted if there are any. -/
theorem constantCount_pos {t : Table} : 0 < t.constantCount ↔ ∃ id ty, t.HasConst id ty := by
  rw [constantCount, count_eq_countP, List.countP_pos_iff]
  constructor
  · rintro ⟨e, he, hconst⟩
    obtain ⟨k, hk⟩ := Array.mem_iff_getElem?.mp (Array.mem_toList_iff.mp he)
    cases e with
    | const a => exact ⟨⟨k⟩, a.ty, a, hk, rfl⟩
    | _ => cases hconst
  · rintro ⟨id, ty, a, ha, -⟩
    exact ⟨.const a, Array.mem_toList_iff.mpr (Array.mem_iff_getElem?.mpr ⟨id.index, ha⟩), rfl⟩

end Table

theorem Config.maxConstants_ne_zero {c : Config} (h : c.validate = .ok ()) :
    c.maxConstants ≠ 0 := by
  simp only [validate, require_bind_eq_ok] at h
  obtain ⟨-, -, -, -, -, -, -, -, -, -, hmax, -⟩ := h
  simpa using hmax

variable {ρ α β : Type} [RandomSource ρ] {c : Config} {s s' : State ρ}

/-! ### Requests -/

namespace Plan

variable {lists : Prop} {p : Plan ρ α} {x : Gen ρ α} {post : α → State ρ → Prop}

/-- What a plan provides is provided by a step that follows it. -/
theorem Provides.surely [LawfulRandomSource ρ] (hc : c.validate = .ok ())
    (hp : Provides c lists s p post) (hx : Follows c p x)
    (hsteps : Gen.Proceeds c s x fun _ _ => True) :
    Gen.Surely c s x fun a s' => Restocks c lists s s' ∧ post a s' := by
  obtain ⟨ms, hruns⟩ := hx s fun hout => by
    obtain ⟨⟨⟩, -⟩ | ⟨cause, hcause, hmay⟩ :=
      hsteps.of_run_error (Prod.ext hout rfl : x.run c s = (_, _))
    exact hmay.ne_outOfSteps (Ending.stopped.inj hcause).symm
  obtain ⟨-, hs', a, ha, hpost⟩ := hruns.meets (stock_kept hc) hp
  unfold Gen.Surely Gen.Ends
  rcases hrun : x.run c s with ⟨e | b, s'⟩
  · rw [hrun] at ha
    cases ha
  · rw [hrun] at ha hs' hpost
    cases ha
    exact ⟨hs', hpost⟩

end Plan

namespace Gen

variable [LawfulRandomSource ρ]

/-- A type of a category is always produced. -/
theorem type_surely (hc : c.validate = .ok ()) (hs : s.Stocked c) {cat : Category}
    (ht : cat ∈ Category.stocked) : Surely c s (type cat) fun id s' =>
      Restocks c ((Target.type cat).Lists c) s s' ∧ (Target.type cat).Serves c (.ok id) s' :=
  (Plan.Provides.ask (t := .type cat) hs ht id).surely hc (Plan.typeWithin_follows _ _)
    (type_proceeds hc (Category.ne_containerType_of_stocked ht) s hs.sound hs.ready)

/-- A constant is always produced. -/
theorem constant_surely (hc : c.validate = .ok ()) (hs : s.Stocked c) :
    Surely c s constant fun id s' =>
      Restocks c False s s' ∧ ∃ ty, s'.code.table.HasConst id ty :=
  (Plan.Provides.ask (t := .constant) hs trivial nofun).surely hc Plan.constant_follows
    (constant_proceeds hc hs.sound hs.ready)

end Gen

/-! ### The table -/

/-- Numbers of the configuration that do not fit their words, and the fault they lead to. -/
inductive Config.Overflows (c : Config) : Fault → Prop
  | attempts (h : 2 ^ 64 ≤ c.maxTypes * 4 ∨ 2 ^ 64 ≤ c.maxConstants * 4) : Overflows c .overflow
  | reservation (h : UInt64.size / 2 ≤ 4 * c.storageBuffers) : Overflows c .tooLarge
  | serials (h : 2 ^ 32 ≤ c.storageBuffers + c.privateVariables) : Overflows c .overflow

namespace Plan

variable {post : Except Ending α → State ρ → Prop}

/-- What comes behind a plan that provides something. -/
theorem Provides.before {lists : Prop} {p : Plan ρ β} {made : β → State ρ → Prop}
    {q : β → Plan ρ α} (hp : Provides c lists s p made)
    (hq : ∀ b s', Restocks c lists s s' → made b s' →
      (q b).Meets c (.stock ρ c) (fun e s => s.Stocked c ∧ e.Admitted c) post s') :
    (p >>= q).Meets c (.stock ρ c) (fun e s => s.Stocked c ∧ e.Admitted c) post s := by
  change Meets c _ _ (.seq p q) _ s
  rw [Meets]
  refine Meets.mono hp (fun _ _ h => h) ?_
  rintro _ s₁ ⟨h₁, b, rfl, hb⟩
  exact hq b s₁ h₁ hb

theorem read_meets (hs : s.Stocked c) {q : Config → Plan ρ α}
    (hq : (q c).Meets c (.stock ρ c) (fun e s => s.Stocked c ∧ e.Admitted c) post s) :
    (work read >>= q).Meets c (.stock ρ c) (fun e s => s.Stocked c ∧ e.Admitted c) post s := by
  refine Meets.step ⟨hs, trivial⟩ ?_ nofun
  rintro s _ _ rfl ⟨⟩
  exact hq

theorem attemptsFor_meets (hs : s.Stocked c) {entries : Nat} {q : Nat → Plan ρ α}
    (hover : 2 ^ 64 ≤ entries * 4 → post (.error (.stopped (.fault .overflow))) s)
    (hq : (q (entries * 4)).Meets c (.stock ρ c) (fun e s => s.Stocked c ∧ e.Admitted c) post s) :
    (work (Gen.attemptsFor entries) >>= q).Meets c (.stock ρ c)
      (fun e s => s.Stocked c ∧ e.Admitted c) post s := by
  unfold Gen.attemptsFor
  by_cases hfits : entries * 4 < 2 ^ 64
  · have hword : Fault.checkWord 64 (entries * 4) = .ok (entries * 4) := if_pos hfits
    rw [hword]
    refine Meets.step ⟨hs, trivial⟩ ?_ nofun
    rintro s _ _ rfl ⟨⟩
    exact hq
  · have hword : Fault.checkWord 64 (entries * 4) = .error .overflow := if_neg hfits
    rw [hword]
    refine Meets.step ⟨hs, trivial⟩ nofun ?_
    rintro s _ _ rfl ⟨⟩
    exact hover (Nat.not_lt.mp hfits)

/-- Attempts at entries never fail. What holds where there are enough, and where one was
made, holds in the end if there are attempts at all. -/
theorem fill_provides (made : State ρ → Prop) {t : Target EntryId} (ht : t.Stocked)
    {isEnough : State ρ → Bool} (henough : ∀ s, isEnough s = true → made s)
    (hserves : ∀ id s, t.Serves c (.ok id) s → made s) (attempts : Nat) (hs : s.Stocked c) :
    Provides c (t.Lists c) s (fill isEnough t attempts) fun _ s' =>
      made s ∨ 0 < attempts → made s' := by
  induction attempts generalizing s with
  | zero => exact .pure hs fun h => h.elim id fun h => absurd h (Nat.lt_irrefl 0)
  | succ attempts ih =>
    refine (Provides.work hs (Gen.get_supplies hs.sound)).bind ?_
    rintro _ s - ⟨rfl, rfl⟩
    split
    case isTrue h => exact .pure hs fun _ => henough s h
    case isFalse =>
      refine Meets.handle ⟨ht, hs⟩ (fun _ _ h => h) ?_ ?_ ?_
      · rintro id s₁ ⟨h₁, hserved⟩
        refine Meets.mono (ih h₁.stocked) (fun _ _ h => h) ?_
        rintro _ s₂ ⟨h₂, a, rfl, hmade⟩
        exact ⟨h₁.trans h₂, a, rfl, fun _ => hmade (.inl (hserves id s₁ hserved))⟩
      · rintro s₁ ⟨-, hserved⟩
        obtain ⟨_, ⟨⟩, _⟩ := hserved.exists_ok
      · rintro cause s₁ ⟨-, hserved⟩
        obtain ⟨_, ⟨⟩, _⟩ := hserved.exists_ok

theorem entryPointType_provides (hs : s.Stocked c)
    (hroom : s.functionTypes.size < c.maxFunctions) :
    Provides c True s (work Gen.entryPointType) fun _ s' =>
      s'.functionTypes.size = s.functionTypes.size + 1 := by
  refine .step hs trivial
    ((Gen.internType_supplies (t := .void) hs.sound trivial).surely.bind ?_)
  rintro r s₁ ⟨h₁, q₁, hr⟩
  refine (Gen.internType_supplies (t := .function r []) q₁.sound ⟨hr, nofun⟩).surely.bind ?_
  rintro id s₂ ⟨h₂, q₂, hid⟩
  have hsame : s₂.functionTypes = s.functionTypes := (q₁.trans q₂).functionTypes
  have h : Restocks c True s s₂ := hs.restocks (h₁.trans h₂) (q₁.trans q₂)
  refine Gen.Ends.mono (Gen.addFunctionType_surely h.stocked hid (hsame ▸ hroom)) ?_
    fun _ _ h => h
  rintro _ s₃ ⟨h₃, hpush⟩
  exact ⟨h.trans h₃, by rw [hpush, hsame, Array.size_push]⟩

/-- A full table: there are constants, and types of functions are there beside that of the
entry point only where they are not excluded. -/
structure Full (c : Config) (s : State ρ) : Prop where
  stocked : s.Stocked c
  constant : 0 < s.code.table.constantCount
  functions : .typeFunction ∈ c.excluded → s.functionTypes.size = 1

/-- The table is full, or numbers ran out. -/
def Filled (c : Config) : Except Ending Unit → State ρ → Prop
  | .ok (), s => Full c s
  | .error e, _ => ∃ f, e = .stopped (.fault f) ∧ c.Overflows f

/-- Behind the types and constants, only the numbers of variables may run out. -/
theorem variables_meets [BoundedRandomSource ρ] (hs : Full c s) (hserial : s.nextSerial = 0) :
    (do
      let _ ← work Gen.storageBuffers
      let _ ← work Gen.privateVariables : Plan ρ Unit).Meets c (.stock ρ c)
      (fun e s => s.Stocked c ∧ e.Admitted c) (Filled c) s := by
  refine Meets.step ⟨hs.stocked, trivial⟩ ?_ ?_
  · rintro s _ s₁ rfl hrun
    have h₁ := (Gen.storageBuffers_ends hs.stocked.sound).of_run_ok hrun
    obtain ⟨q₁, -⟩ := (Gen.storageBuffers_quietly hs.stocked.sound).of_run_ok hrun
    have hs₁ := hs.stocked.still h₁ q₁
    refine Meets.step ⟨hs₁, trivial⟩ ?_ ?_
    · rintro s₁ _ s₂ rfl hrun
      have h₂ := (Gen.privateVariables_ends hs₁.sound).of_run_ok hrun
      obtain ⟨q₂, -⟩ := (Gen.privateVariables_quietly hs₁.sound).of_run_ok hrun
      have q := q₁.trans q₂
      obtain ⟨id, ty, hid⟩ := Table.constantCount_pos.mp hs.constant
      exact {
        stocked := hs₁.still h₂ q₂
        constant := Table.constantCount_pos.mpr ⟨id, ty, hid.mono q.table_le⟩
        functions := fun h => (congrArg Array.size q.functionTypes).trans (hs.functions h) }
    · rintro s₁ e s₂ rfl hrun
      obtain ⟨rfl, hfull⟩ := (Gen.privateVariables_ends hs₁.sound).of_run_error hrun
      have := h₁.serial
      exact ⟨_, rfl, .serials (by omega)⟩
  · rintro s e s₁ rfl hrun
    obtain ⟨rfl, hlarge⟩ | ⟨rfl, hfull⟩ :=
      (Gen.storageBuffers_ends hs.stocked.sound).of_run_error hrun
    · exact ⟨_, rfl, .reservation hlarge⟩
    · exact ⟨_, rfl, .serials (by omega)⟩

/-- The table is filled in stocked sessions. -/
theorem globalTable_meets [LawfulRandomSource ρ] (hc : c.validate = .ok ()) (source : ρ) :
    (globalTable (ρ := ρ)).Meets c (.stock ρ c) (fun e s => s.Stocked c ∧ e.Admitted c)
      (Filled c) (.start source) := by
  have hstart := State.Stocked.start hc source
  refine (entryPointType_provides hstart ?_).before fun _ s₁ h₁ hsize => ?_
  · exact Nat.pos_of_ne_zero (c.maxFunctions_ne_zero hc)
  refine read_meets h₁.stocked (attemptsFor_meets h₁.stocked
    (fun hover => ⟨_, rfl, .attempts (.inl hover)⟩) ?_)
  refine (fill_provides (fun _ => True) (t := .type .type) List.mem_cons_self
    (fun _ _ => trivial) (fun _ _ _ => trivial) _ h₁.stocked).before fun _ s₂ h₂ _ => ?_
  refine read_meets h₂.stocked (attemptsFor_meets h₂.stocked
    (fun hover => ⟨_, rfl, .attempts (.inr hover)⟩) ?_)
  have hmax := c.maxConstants_ne_zero hc
  refine (fill_provides (fun s => 0 < s.code.table.constantCount) (t := .constant) trivial
    ?_ ?_ _ h₂.stocked).before fun _ s₃ h₃ hmade => ?_
  · intro s henough
    have := of_decide_eq_true henough
    omega
  · exact fun id s hserved => Table.constantCount_pos.mpr ⟨id, hserved⟩
  refine variables_meets ⟨h₃.stocked, hmade (.inr (by omega)), fun hexcluded => ?_⟩ ?_
  · rw [h₃.functionTypes nofun, h₂.functionTypes fun h => h.2 hexcluded]
    exact hsize
  · have := h₁.serial.trans' (h₂.serial.trans' h₃.serial)
    exact Nat.le_zero.mp this

end Plan

/-! ### Sessions -/

/-- The sessions on the way to a full table, and those that more requests make of them. -/
inductive State.Filling (c : Config) (source : ρ) : State ρ → Prop
  | moment {ms : List (Moment ρ)} {out : Except Ending Unit × State ρ} {m : Moment ρ}
      (hruns : Plan.globalTable.Runs c (.start source) ms out) (hm : m ∈ ms) :
      Filling c source m.state
  | full {s : State ρ} (hrun : Gen.globalTable.run c (.start source) = (.ok (), s)) :
      Filling c source s
  | type {s s' : State ρ} {cat : Category} {id : EntryId} (h : Filling c source s)
      (hcat : cat ∈ Category.stocked) (hrun : (Gen.type cat).run c s = (.ok id, s')) :
      Filling c source s'
  | constant {s s' : State ρ} {id : EntryId} (h : Filling c source s)
      (hrun : Gen.constant.run c s = (.ok id, s')) : Filling c source s'

namespace Config

variable [LawfulRandomSource ρ]

/-- The plan of the table comes to an end, that of the generator. -/
theorem globalTable_runs (hc : c.validate = .ok ()) (source : ρ) :
    ∃ ms, Plan.globalTable.Runs c (.start source) ms (Gen.globalTable.run c (.start source)) := by
  refine Plan.globalTable_follows _ fun hsteps => ?_
  obtain ⟨cause, hcause, hmay⟩ := (Gen.globalTable_advances hc source).of_run_error
    (Prod.ext hsteps rfl : Gen.globalTable.run c (.start source) = (_, _))
  exact hmay.ne_outOfSteps (Ending.stopped.inj hcause).symm

theorem stocked_of_filling (hc : c.validate = .ok ()) {source : ρ} (h : s.Filling c source) :
    s.Stocked c := by
  have hmeets := Plan.globalTable_meets hc source
  induction h with
  | moment hruns hm => exact ((hruns.meets (Plan.stock_kept hc) hmeets).1 _ hm).1
  | full hrun =>
    obtain ⟨ms, hruns⟩ := globalTable_runs hc source
    have hout := (hruns.meets (Plan.stock_kept hc) hmeets).2
    rw [hrun] at hout
    exact Plan.Full.stocked hout
  | type _ hcat hrun ih => exact ((Gen.type_surely hc ih hcat).of_run_ok hrun).1.stocked
  | constant _ hrun ih => exact ((Gen.constant_surely hc ih).of_run_ok hrun).1.stocked

/-- The table of a valid configuration gets full, unless numbers run out. -/
theorem globalTable_filled (hc : c.validate = .ok ()) (source : ρ) :
    Gen.Ends Gen.globalTable c (.start source) (fun _ s => Plan.Full c s)
      fun e _ => ∃ f, e = .stopped (.fault f) ∧ c.Overflows f := by
  obtain ⟨ms, hruns⟩ := globalTable_runs hc source
  have hfilled := (hruns.meets (Plan.stock_kept hc) (Plan.globalTable_meets hc source)).2
  unfold Gen.Ends
  rcases hrun : Gen.globalTable.run c (.start source) with ⟨e | ⟨⟩, s⟩
  · rw [hrun] at hfilled
    exact hfilled
  · rw [hrun] at hfilled
    exact hfilled

theorem exists_table (hc : c.validate = .ok ())
    (hfits : ∀ f, ¬c.Overflows f) (source : ρ) :
    ∃ s, Gen.globalTable.run c (.start source) = (.ok (), s) := by
  rcases hrun : Gen.globalTable.run c (.start source) with ⟨e | ⟨⟩, s⟩
  · obtain ⟨f, -, hover⟩ := (globalTable_filled hc source).of_run_error hrun
    exact (hfits f hover).elim
  · exact ⟨s, rfl⟩

/-- Numbers fit their words, those of variables included. -/
theorem not_overflows (htypes : c.maxTypes * 4 < 2 ^ 64) (hconstants : c.maxConstants * 4 < 2 ^ 64)
    (hvariables : c.storageBuffers + c.privateVariables < 2 ^ 32) (f : Fault) : ¬c.Overflows f := by
  have hsize : UInt64.size / 2 = 2 ^ 63 := rfl
  rintro (_ | _ | _) <;> omega

/-- No table gets full if there are not enough numbers for its variables. -/
theorem globalTable_overflows (hc : c.validate = .ok ()) (hbuffers : c.storageBuffers < 2 ^ 32)
    (hvariables : 2 ^ 32 ≤ c.storageBuffers + c.privateVariables) (source : ρ) :
    (Gen.globalTable.run c (.start source)).1 = .error (.stopped (.fault .overflow)) := by
  have hends := (globalTable_filled hc source).and
    (Gen.globalTable_takes (c.maxFunctions_ne_zero hc) hbuffers source)
  rcases hrun : Gen.globalTable.run c (.start source) with ⟨e | ⟨⟩, s⟩
  · obtain ⟨⟨f, rfl, hover⟩, -⟩ := hends.of_run_error hrun
    cases hover with
    | attempts | serials => rfl
    | reservation h =>
      have hsize : UInt64.size / 2 = 2 ^ 63 := rfl
      omega
  · obtain ⟨hfull, htakes⟩ := hends.of_run_ok hrun
    obtain ⟨id, ty, hid⟩ := Table.constantCount_pos.mp hfull.constant
    have := htakes ⟨ty, hid.isData hfull.stocked.sound.table⟩
    omega

end Config

end ShaderGen
