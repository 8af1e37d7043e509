import ShaderGen.Proofs.Bounding
import ShaderGen.Proofs.Relations

/-!
Where arrays come from. The types that operands, constants, variables and buffers make on
demand are no arrays, so an array is made by the last step of the plan of array types alone. A
run that does not enter that plan has no arrays at any moment but those it started with.
-/

namespace ShaderGen

variable {ρ α β : Type} {c : Config}

/-! ### Modules -/

namespace Table

/-- No entry is an array. -/
def Arrayless (t : Table) : Prop := ∀ id element length, ¬t.IsType id (.array element length)

theorem arrayless_empty : empty.Arrayless := nofun

end Table

namespace Module

variable {m m' m'' : Module}

/-- A module follows another one without new arrays. -/
def SparesArrays (m m' : Module) : Prop := ∀ id element length,
  m'.table.IsType id (.array element length) → m.table.IsType id (.array element length)

theorem SparesArrays.arrayless (h : m.SparesArrays m') (hm : m.table.Arrayless) :
    m'.table.Arrayless := fun id element length hid =>
  hm id element length (h id element length hid)

theorem SparesArrays.of_table (h : m'.table = m.table) : m.SparesArrays m' :=
  fun _ _ _ hid => h ▸ hid

theorem SparesArrays.refl (m : Module) : m.SparesArrays m := .of_table rfl

theorem SparesArrays.trans (h : m.SparesArrays m') (h' : m'.SparesArrays m'') :
    m.SparesArrays m'' := fun id element length hid =>
  h id element length (h' id element length hid)

theorem sparesArrays_intern (m : Module) {e : Entity}
    (he : ∀ element length, e ≠ .type (.array element length)) :
    m.SparesArrays (m.intern e).2 := by
  intro id element length hid
  rcases Table.get?_intern_cases hid with hold | ⟨heq, -⟩
  · exact hold
  · exact absurd heq.symm (he element length)

theorem sparesArrays_internConst (m : Module) (k : Const) :
    m.SparesArrays (m.internConst k).2 := m.sparesArrays_intern nofun

theorem sparesArrays_importSet (m : Module) (name : String) :
    m.SparesArrays (m.importSet name).2 := by
  unfold importSet
  split
  · exact .refl m
  · exact .of_table rfl

end Module

/-! ### Steps -/

/-- A session follows another one without new arrays. -/
abbrev State.SparesArrays (s s' : State ρ) : Prop := s.code.SparesArrays s'.code

namespace Gen

theorem respected_sparesArrays : Respected (State.SparesArrays (ρ := ρ)) where
  trans h h' := h.trans h'
  same hcode _ := .of_table (congrArg Module.table hcode)
  internType s t ht := s.code.sparesArrays_intern fun element length h => by
    obtain rfl := Entity.type.inj h
    exact ht rfl
  internConst s k := s.code.sparesArrays_internConst k
  alloc _ _ _ := .of_table rfl

theorem declaring_sparesArrays :
    Declaring fun _ (x : Gen ρ _) => Relates State.SparesArrays x where
  alloc _ := .but fun _ _ => .build (.of_table rfl)
  annotate _ := .but fun _ _ => .build (.of_table rfl)
  moduleVariable storage pointer initial := .but fun c s => by
    refine .bind (.get (.bind (.checked (fun _ _ => ?_) fun _ => .refl _)))
    exact .bind (.modify (.bind (.build (.pure (s.code.sparesArrays_intern nofun)))))

end Gen

/-! ### Finished shaders -/

/-- Bounding adds constants and instructions. -/
theorem Module.guarding_sparesArrays : DynamicIndex.Guarding Module.SparesArrays where
  refl := .refl
  trans := .trans
  intern := sparesArrays_internConst
  guard _ _ _ _ _ := .of_table rfl

theorem Shader.finish_sparesArrays {s s' : Shader} (h : s.finish = .ok s') :
    s.code.SparesArrays s'.code := Module.guarding_sparesArrays.finish h

/-! ### Runs -/

namespace Plan

variable [RandomSource ρ] {s : State ρ} {ms : List (Moment ρ)} {out : Except Ending α × State ρ}

/-- The steps that answer calls make no arrays. -/
theorem sparesArrays_covers : Covers (ρ := ρ) fun _ _ x => Gen.Relates State.SparesArrays x :=
  Gen.respected_sparesArrays.covers Gen.declaring_sparesArrays

/-- A run that enters no routine of array types makes no arrays. -/
theorem Runs.sparesArrays {p : Plan ρ α} (h : p.Runs c s ms out)
    (hp : p.Each c (fun _ _ x => Gen.Relates State.SparesArrays x) fun _ => True)
    (hms : ∀ m ∈ ms, ∀ cat, m.event ≠ .enter cat .typeArray) :
    (∀ m ∈ ms, s.SparesArrays m.state) ∧ s.SparesArrays out.2 := by
  refine h.relates (· = .typeArray) Gen.respected_sparesArrays (fun r hr => ?_) hp
    fun m hm cat op he hop => hms m hm cat (hop ▸ he)
  refine body_each Gen.respected_sparesArrays.draws sparesArrays_covers r ?_ fun _ _ scope =>
    Gen.respected_sparesArrays.extended (fun s => s.code.sparesArrays_importSet _) scope
  rintro t rfl
  exact absurd rfl (hr t _ rfl)

end Plan

end ShaderGen
