import ShaderGen.Proofs.Arrays
import ShaderGen.Proofs.Buffering
import ShaderGen.Proofs.Filling
import ShaderGen.Proofs.SelectionDepth
import ShaderGen.Proofs.Termination

/-!
Types that a configuration excludes. While the table is filled they are pinned before a type
is drawn, so none of them is entered or produced; functions ask for statements alone. What is
made on demand is no array, and lists no function type. So there are no arrays at all if they
are excluded, and no functions beside the entry point if their types are.
-/

namespace ShaderGen

variable {ρ : Type} {c : Config}

/-! ### Functions ask for statements -/

/-- No type is asked for or entered. -/
def Event.Typeless : Event → Prop
  | .dispatch cat | .enter cat _ => cat.isType = false
  | _ => True

/-- A statement is asked for. -/
def Target.IsStatement {α : Type} : Target α → Prop
  | .statement _ _ => True
  | _ => False

/-- What runs while functions are made. -/
def Routine.Typeless {α : Type} : Routine α → Prop
  | .dispatch t | .resample t _ | .variant t _ => t.IsStatement
  | .fill _ _ _ => True

theorem Target.IsStatement.isType {α : Type} {t : Target α} (h : t.IsStatement) :
    t.category.isType = false := by
  cases t with
  | statement => rfl
  | _ => cases h

theorem Event.Typeless.admitted {e : Event} (h : e.Typeless) : e.Admitted c := by
  cases e with
  | dispatch | enter =>
    intro htype
    cases htype.symm.trans h
  | _ => trivial

/-- Functions ask for no types. -/
def Contract.typeless : Contract Books where
  needs r _ := r.Typeless
  during _ _ e _ := e.Typeless
  leaves _ _ _ _ := True

namespace Plan

theorem allows_typeless {α : Type} {r : Routine α} (hr : r.Typeless) (pre : Books → Prop) :
    Contract.typeless.Allows r pre (fun e _ => e.Typeless) fun _ => True where
  needs _ _ := hr
  during _ _ _ _ he := he
  leaves _ _ _ _ _ := trivial

theorem Tidy.typeless {α : Type} {p : Plan ρ α} {b : Books} (h : p.Tidy c (·.Typeless)) :
    p.Meets c .typeless (fun e _ => e.Typeless) (fun _ _ => True) b :=
  h.meets (fun _ _ _ _ => trivial) (fun _ _ => trivial)
    (fun _ hr => allows_typeless hr fun _ => True) trivial

variable [RandomSource ρ]

theorem typeless_kept : Contract.typeless.Kept ρ c := by
  intro α r b hr
  cases r with
  | dispatch t =>
    have ht : t.IsStatement := hr
    exact dispatch_meets (fun _ (h : True) => h) (fun _ _ _ => trivial) (fun _ _ _ _ => trivial)
      (fun _ _ => trivial) (fun _ _ => ht.isType) (fun _ _ => trivial)
      (allows_typeless (r := .resample t 0) ht fun _ => True) trivial
  | resample t misses =>
    have ht : t.IsStatement := hr
    have hnext : (Routine.resample t (misses + 1)).Typeless := ht
    exact resample_meets (fun _ _ => True) (fun _ _ => trivial) (fun _ _ _ => trivial)
      (fun _ _ _ => trivial) (fun _ _ => trivial) (fun _ _ => trivial)
      (fun op _ _ _ _ => allows_typeless (r := .variant t op) ht _)
      (fun _ _ _ => .mono .trivial (fun _ _ _ => allows_typeless hnext _) fun _ _ h => h)
      (fun _ _ _ _ => trivial) trivial
  | variant t op =>
    cases t with
    | statement levels scope =>
      exact enter_meets rfl (Tidy.typeless
        (statementVariant_each tidy_covers (fun _ _ _ => trivial) scope extended_tidy))
    | _ => cases hr
  | fill levels scope block =>
    exact Tidy.typeless (fill_each tidy_covers trivial fun _ => trivial)

/-! ### Shaders -/

variable [LawfulRandomSource ρ] {ms : List (Moment ρ)}

/-- Wherever a type is asked for in the run of a shader, it is in a stocked session, and
excluded types are not entered. -/
theorem Runs.admitted (hc : c.validate = .ok ()) {source : ρ} {out : Except Ending Shader × State ρ}
    (h : program.Runs c (.start source) ms out) :
    ∀ m ∈ ms, m.event.Admitted c ∧ (m.event.Typeless ∨ m.state.Stocked c) := by
  have htable : ∀ {ms out}, globalTable.Runs c (.start source) ms out →
      ∀ m ∈ ms, m.event.Admitted c ∧ (m.event.Typeless ∨ m.state.Stocked c) := fun h m hm => by
    obtain ⟨hs, he⟩ := (h.meets (stock_kept hc) (globalTable_meets hc source)).1 m hm
    exact ⟨he, .inr hs⟩
  change Runs c (.seq _ _) _ ms out at h
  cases h with
  | seqError hp => exact htable hp
  | seq hp hq =>
    refine List.forall_mem_append.mpr ⟨htable hp, fun m hm => ?_⟩
    have he := (hq.meets typeless_kept (Tidy.typeless (.bind
      (functions_each tidy_covers (c.maxDepth_ne_zero hc) fun _ _ _ => trivial) fun _ =>
        .bind (tidy_covers.work .get) fun _ => .pure _))).1 m hm
    exact ⟨he.admitted, .inl he⟩

/-- Arrays are entered as types, so they are not entered if they are excluded. -/
theorem Runs.ne_array (hc : c.validate = .ok ()) {source : ρ}
    {out : Except Ending Shader × State ρ} (h : program.Runs c (.start source) ms out)
    (hexcluded : .typeArray ∈ c.excluded) :
    ∀ m ∈ ms, ∀ cat, m.event ≠ .enter cat .typeArray := by
  intro m hm cat he
  have hfresh := (h.meets pinning_kept
    (program_pinning (c.maxDepth_ne_zero hc) WeightTable.pinned_empty)).1 m hm
  have hadmitted := (h.admitted hc m hm).1
  rw [he] at hfresh hadmitted
  -- a variant of its category is entered, and only categories of types have arrays
  have htype : ∀ cat : Category, Opcode.typeArray ∈ cat.members → cat.isType = true := by
    intro cat
    cases cat <;> decide
  exact hadmitted (htype cat hfresh.1) hexcluded

/-- A shader is planned by steps that make no arrays but for those of array types. -/
theorem Runs.arrayless (hc : c.validate = .ok ()) {source : ρ}
    {out : Except Ending Shader × State ρ} (h : program.Runs c (.start source) ms out)
    (hexcluded : .typeArray ∈ c.excluded) :
    (∀ m ∈ ms, m.state.code.table.Arrayless) ∧ out.2.code.table.Arrayless := by
  have hplan : (program (ρ := ρ)).Each c (fun _ _ x => Gen.Relates State.SparesArrays x)
      fun _ => True :=
    program_each sparesArrays_covers (c.maxDepth_ne_zero hc) trivial trivial fun _ _ _ => trivial
  obtain ⟨hms, hout⟩ := h.sparesArrays hplan (h.ne_array hc hexcluded)
  have hstart : (State.start source).code.table.Arrayless := Table.arrayless_empty
  exact ⟨fun m hm => (hms m hm).arrayless hstart, hout.arrayless hstart⟩

end Plan

/-! ### Excluded types -/

/-- What a session does of excluded types at a moment: it enters none, answers a request with
another type, and has no arrays if they are excluded. -/
structure Moment.Excludes [RandomSource ρ] (c : Config) (m : Moment ρ) : Prop where
  entered : ∀ cat op, m.event = .enter cat op → cat.isType = true → op ∉ c.excluded
  answered : ∀ cat, m.event = .dispatch cat → cat.isType = true →
    ∃ id s, (Gen.type cat).run c m.state = (.ok id, s) ∧
      ∃ ty, s.code.table.IsType id ty ∧ ty.opcode ∉ c.excluded
  arrays : .typeArray ∈ c.excluded → m.state.code.table.Arrayless

namespace Config

variable [RandomSource ρ] [LawfulRandomSource ρ]

/-- The table of a valid configuration that excludes function types lists one. -/
theorem functionTypes_of_globalTable (hc : c.validate = .ok ()) {source : ρ} {s : State ρ}
    (hrun : Gen.globalTable.run c (.start source) = (.ok (), s))
    (hexcluded : .typeFunction ∈ c.excluded) : s.functionTypes.size = 1 := by
  obtain ⟨ms, hruns⟩ := globalTable_runs hc source
  have hfilled := (hruns.meets (Plan.stock_kept hc) (Plan.globalTable_meets hc source)).2
  rw [hrun] at hfilled
  exact Plan.Full.functions hfilled hexcluded

/-- A configuration of shaders with buffers and neither arrays nor structs nor functions drawn. -/
def bare : Config :=
  { buffered with
    maxFunctions := 3
    excludedTypes := ["OpTypeArray", "OpTypeStruct", "OpTypeFunction"] }

/-- The choices end in a shader, with structs for its buffers. -/
theorem bare_shaderFrom : ∃ s, bare.shaderFrom Script.buffered = .ok s ∧
    ∃ id members, s.code.table.IsType id (.struct members) := by
  have h : ((fun s : Shader => s.code.table.get? ⟨9⟩) <$>
      bare.shaderFrom Script.buffered).toOption =
        some (some (.type (.struct [⟨2⟩, ⟨8⟩]))) := by decide +kernel
  obtain ⟨s, hs, hstruct⟩ := map_eq_ok.mp (toOption_eq_some.mp h)
  exact ⟨s, hs, ⟨9⟩, [⟨2⟩, ⟨8⟩], hstruct⟩

end Config

end ShaderGen
