import ShaderGen.Proofs.Buffering
import ShaderGen.Proofs.Supplies

/-!
The numbers of variables. Each storage buffer takes a number, and so does each private variable
as long as there is a type for it: something always starts it, its zero if there is nothing
else. So a table gets full only if its configuration does not ask for more variables than there
are numbers.
-/

namespace ShaderGen

/-! ### Types of private variables -/

/-- A private variable may be of the type. -/
def Module.Offers (m : Module) (id : EntryId) : Prop :=
  m.table.IsData id ∧ m.isBlock id = false

/-- A type with values is no struct, or its first member is none. -/
theorem Table.IsData.exists_not_struct {t : Table} {c : Config} (hwf : t.WellFormed c)
    {id : EntryId} (h : t.IsData id) :
    ∃ id ty, t.IsType id ty ∧ ty.isData = true ∧ ∀ members, ty ≠ .struct members := by
  obtain ⟨ty, hty, hdata⟩ := h
  cases ty with
  | struct members =>
    obtain ⟨⟨hpos, -⟩, hmembers⟩ := hwf.entry hty
    obtain ⟨ty, hty, hmem⟩ := hmembers members[0] (List.getElem_mem hpos)
    refine ⟨_, ty, hty, Ty.isData_of_mem (by decide) (by decide) hmem, ?_⟩
    rintro members rfl
    simp [Ty.opcode, Category.members] at hmem
  | _ => exact ⟨id, _, hty, hdata, by simp⟩

/-- Only structs are blocks, so some type is left for private variables. -/
theorem Module.Declares.exists_offers {m : Module} {c : Config} {bs : List BufferDecl}
    (h : m.Declares bs) (hwf : m.table.WellFormed c) {id : EntryId} (hid : m.table.IsData id) :
    ∃ id, m.Offers id := by
  obtain ⟨id, ty, hty, hdata, hstruct⟩ := hid.exists_not_struct hwf
  refine ⟨id, ⟨ty, hty, hdata⟩, Bool.eq_false_iff.mpr fun hblock => ?_⟩
  obtain ⟨d, hd, rfl⟩ := h.isBlock_iff_mem.mp hblock
  exact hstruct d.types (hty.unique (h.sound d hd).struct)

variable {ρ : Type} {c : Config} {s s' : State ρ}

namespace Gen

/-! ### Initializers -/

theorem mapM_feasible {α β : Type} {f : α → Gen ρ β} {R : α → State ρ → Prop}
    (hf : ∀ a s, s.Sound c → R a s → Feasible c s (f a))
    (hquiet : ∀ a s, s.Sound c → Quietly c s (f a) fun _ _ => True)
    (hkeeps : ∀ a s s', R a s → Quiet c s s' → R a s') (as : List α)
    (hs : s.Sound c) (has : ∀ a ∈ as, R a s) : Feasible c s (as.mapM f) := by
  induction as generalizing s with
  | nil => exact .pure trivial
  | cons a as ih =>
    rw [List.mapM_cons]
    have ha := (hf a s hs (has a List.mem_cons_self)).and (hquiet a s hs)
    refine Ends.bind (ha.mono ?_ fun _ _ h => h.1)
    rintro b s₁ ⟨-, q₁, -⟩
    exact (ih q₁.sound fun a h => hkeeps a s s₁ (has a (List.mem_cons_of_mem _ h)) q₁).bind
      fun _ _ => .pure trivial

/-- A type with values has a zero. -/
theorem zeroWithin_feasible (nesting : Nat) (hs : s.Sound c) {ty : EntryId}
    (hty : s.code.table.IsData ty) : Feasible c s (zeroWithin nesting ty) := by
  induction nesting generalizing s ty with
  | zero => exact .fault nofun
  | succ nesting ih =>
    obtain ⟨t, ht, hdata⟩ := hty
    refine Ends.bind (.query (fun t' ht' => ?_) fun _ => nofun)
    obtain rfl := ht.unique (Module.typeAt_eq_ok.mp ht')
    have hrules := hs.table.entry ht
    cases t with
    | bool => exact build_feasible _
    | int _ signed =>
      cases signed with
      | true => exact build_feasible _
      | false => exact build_feasible _
    | float => exact build_feasible _
    | vector part count =>
      exact (ih hs (hrules.2.isData (by decide) (by decide))).bind fun _ _ => build_feasible _
    | matrix column count =>
      obtain ⟨-, scalar, rows, hcolumn, -⟩ := hrules
      exact (ih hs ⟨_, hcolumn, rfl⟩).bind fun _ _ => build_feasible _
    | array element length =>
      refine (ih hs (hrules.1.isData (by decide) (by decide))).bind fun _ _ => ?_
      exact Ends.bind (.query (fun _ _ => build_feasible _) fun _ => nofun)
    | struct members =>
      refine Feasible.bind (mapM_feasible (R := fun m s => s.code.table.IsData m)
        (fun _ s hs h => ih hs h) (fun m s hs => (zeroWithin_quietly nesting hs m).mono
          fun _ _ _ _ => trivial) (fun _ _ _ h q => h.mono q.table_le) members hs
            fun m hm => (hrules.2 m hm).isData (by decide) (by decide)) fun _ _ => build_feasible _
    | void | pointer | function => cases hdata

variable [RandomSource ρ] [BoundedRandomSource ρ]

theorem initializer_feasible (hs : s.Sound c) {ty : EntryId} (hty : s.code.table.IsData ty) :
    Feasible c s (initializer ty) := by
  refine Ends.bind (Ends.bind (.get (.pure ?_)))
  split
  · exact Ends.bind (.get (zeroWithin_feasible _ hs hty))
  · rename_i h
    exact pick_feasible fun hnil => h (by rw [hnil]; rfl)

/-! ### Private variables -/

/-- A type is found exactly if there is one. -/
theorem variableType_offers : Ends variableType c s
    (fun id s' => s.code.Offers id ∧ s'.code = s.code ∧ s'.nextSerial = s.nextSerial)
    fun e s' => e = .infeasible → s'.code = s.code ∧ ∀ id, ¬s.code.Offers id := by
  have hfilter : ∀ x ∈ s.code.table.types, (do
      return (← Predicate.data s.code x.1) && !s.code.isBlock x.1 : Except Fault Bool) =
        .ok (x.2.isData && !s.code.isBlock x.1) := fun x hx => by
    rw [Predicate.data, Predicate.ofTy, Module.typeAt_eq_ok.mpr (Table.mem_types.mp hx)]
    rfl
  refine Ends.bind (.get ?_)
  dsimp only
  rw [filterM_eq_filter hfilter]
  generalize hfitting : (s.code.table.types.filter fun x => x.2.isData && !s.code.isBlock x.1).map
    Prod.fst = fitting
  have hmem : ∀ id, id ∈ fitting ↔ s.code.Offers id := fun id => by
    rw [← hfitting]
    simp only [List.mem_map, List.mem_filter, Bool.and_eq_true, Bool.not_eq_true', Prod.exists,
      exists_and_right, exists_eq_right, Table.mem_types, Module.Offers, Table.IsData]
    grind
  have hsame : Ends (pick fitting) c s
      (fun _ s' => s'.code = s.code ∧ s'.nextSerial = s.nextSerial) fun _ s' => s'.code = s.code :=
    .bind (.draw (.require (fun _ _ => ⟨rfl, rfl⟩) rfl))
  refine Ends.bind (.pure ?_)
  rw [hfitting]
  refine ((pick_ends fitting).and hsame).mono ?_ ?_
  · exact fun id s' h => ⟨(hmem id).mp h.1, h.2⟩
  · rintro e s' ⟨⟨-, hnone⟩, hcode⟩ -
    refine ⟨hcode, fun id hid => ?_⟩
    rw [← hmem, hnone] at hid
    cases hid

/-- A private variable takes the next number. -/
theorem newVariable_private_takes (hs : s.Sound c) {ty : EntryId}
    (hty : s.code.table.IsData ty) : Ends (newVariable .modulePrivate ty) c s
      (fun _ s' => s.nextSerial + 1 < 2 ^ 32 ∧ s'.nextSerial = s.nextSerial + 1)
      fun e _ => e ≠ .infeasible := by
  have hpointer := (Quietly.internType hs (.pointer .modulePrivate ty) hty).and
    (internType_ends (.pointer .modulePrivate ty))
  refine Ends.bind (hpointer.mono ?_ fun _ _ h => h.2)
  rintro pointer s₁ ⟨⟨q₁, -⟩, h₁, -⟩
  have hinitial := (respected_spares.plain (initializer_searching ty) c s₁).and
    (initializer_feasible q₁.sound (hty.mono q₁.table_le))
  refine Ends.bind (hinitial.mono ?_ fun _ _ h => h.2)
  rintro initial s₂ ⟨h₂, -⟩
  have hserial : s₂.nextSerial = s.nextSerial := h₂.serial.trans h₁.serial
  refine Ends.bind (Ends.bind (.get (Ends.bind (.checked (fun next hnext => ?_) fun _ => nofun))))
  obtain ⟨hfits, rfl⟩ := Fault.checkWord_eq_ok.mp hnext
  rw [hserial] at hfits
  exact .bind (.modify (.bind (.build (.pure (.pure ⟨hfits, congrArg (· + 1) hserial⟩)))))

/-- If there is a type for them in the end, all private variables have taken a number. -/
theorem privateVariablesWithin_takes (count : Nat) (hs : s.Sound c) :
    Ends (privateVariablesWithin count) c s
      (fun _ s' => (∃ id, s'.code.Offers id) → s'.nextSerial = s.nextSerial + count ∧
        (count = 0 ∨ s.nextSerial + count < 2 ^ 32)) fun _ _ => True := by
  induction count generalizing s with
  | zero => exact .pure fun _ => ⟨rfl, .inl rfl⟩
  | succ count ih =>
    have hfound : Ends (attempt variableType) c s
        (fun o s' => (s'.Sound c ∧ s'.code = s.code) ∧ o.elim (∀ id, ¬s.code.Offers id)
          fun id => s.code.Offers id ∧ s'.nextSerial = s.nextSerial) fun _ _ => True := by
      refine .attempt (((variableType_quietly hs).and variableType_offers).mono ?_ ?_)
      · exact fun id s' h => ⟨⟨h.1.1.sound, h.2.2.1⟩, h.2.1, h.2.2.2⟩
      · rintro (_ | cause) s' ⟨hhalts, hnone⟩
        · exact ⟨⟨hhalts.sound, (hnone rfl).1⟩, (hnone rfl).2⟩
        · trivial
    refine Ends.bind (hfound.mono ?_ fun _ _ h => h)
    rintro (_ | ty) s₁ ⟨⟨hs₁, hcode⟩, ho⟩
    · refine .pure ?_
      rintro ⟨id, hid⟩
      exact absurd (hcode ▸ hid) (ho id)
    · obtain ⟨hoffers, hserial⟩ := ho
      rw [← hcode] at hoffers
      refine Ends.bind (.attempt (((newVariable_private_quietly hs₁ hoffers.1).and
        (newVariable_private_takes hs₁ hoffers.1)).mono ?_ ?_))
      · rintro v s₂ ⟨⟨q₂, -⟩, hfits, hnext⟩
        refine Ends.bind ((ih q₂.sound).mono (fun _ s₃ h₃ => .pure fun hmore => ?_) fun _ _ h => h)
        have h₃ := h₃ hmore
        omega
      · rintro (_ | cause) s₂ ⟨-, hne⟩
        · exact absurd rfl hne
        · trivial

/-! ### Tables -/

/-- A table with types that have values in it has a number for each of its variables. -/
theorem globalTable_takes (hmax : c.maxFunctions ≠ 0) (hbuffers : c.storageBuffers < 2 ^ 32)
    (source : ρ) : Ends globalTable c (.start source)
      (fun _ s => (∃ ty, s.code.table.IsData ty) →
        c.storageBuffers + c.privateVariables < 2 ^ 32) fun _ _ => True := by
  refine (globalTable_buffering hmax source).mono ?_ fun _ _ he => he
  rintro _ s' ⟨bs, s, made, hlength, hs, hsound, hrun⟩ ⟨ty, hty⟩
  have h := (privateVariables_sparesBuffers c s).of_run_ok hrun
  have q := ((privateVariables_quietly hsound).of_run_ok hrun).1
  have hdeclares : s'.code.Declares bs := hs.declares.mono h.later h.buffers h.annotations
  have htakes : Ends privateVariables c s _ _ :=
    .bind (.read (privateVariablesWithin_takes c.privateVariables hsound))
  obtain ⟨-, hnone | hfits⟩ := htakes.of_run_ok hrun (hdeclares.exists_offers q.sound.table hty)
  · rwa [hnone]
  · rwa [hs.serial, hlength] at hfits

end Gen

end ShaderGen
