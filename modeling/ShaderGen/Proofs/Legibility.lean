import ShaderGen.Proofs.Relations
import ShaderGen.Proofs.Written

/-!
Generated shaders read back. The texts that a shader brings along are the names of what it
imports and the keywords of its instructions. The set of extended instructions is the only one
that is imported, by the step that adds an instruction of it, and an instruction that keeps
its rules has no keyword but `None`. So the listing of a generated shader is canonical, and
reading its text gives it back.
-/

namespace ShaderGen

variable {ρ α β : Type} {c : Config}

/-! ### Modules -/

namespace Module

variable {m m' m'' : Module}

/-- A module follows another one without a new import, and no extended instruction is lost. -/
structure SparesImports (m m' : Module) : Prop where
  imports : m'.imports = m.imports
  extended : ∀ i ∈ m.instrs, i.opcode = .extInst → ∃ i' ∈ m'.instrs, i'.opcode = .extInst

/-- If a set is imported, it is the extended one, and there is an instruction of it. -/
def ImportsUsed (m : Module) : Prop :=
  m.imports = #[] ∨ m.imports = #[ExtendedOp.setName] ∧ ∃ i ∈ m.instrs, i.opcode = .extInst

theorem SparesImports.of_eq (himports : m'.imports = m.imports) (hinstrs : m'.instrs = m.instrs) :
    m.SparesImports m' :=
  ⟨himports, fun i hi hop => ⟨i, hinstrs ▸ hi, hop⟩⟩

theorem SparesImports.refl (m : Module) : m.SparesImports m := .of_eq rfl rfl

theorem SparesImports.trans (h : m.SparesImports m') (h' : m'.SparesImports m'') :
    m.SparesImports m'' := by
  refine ⟨h'.imports.trans h.imports, fun i hi hop => ?_⟩
  obtain ⟨i', hi', hop'⟩ := h.extended i hi hop
  exact h'.extended i' hi' hop'

theorem SparesImports.importsUsed (h : m.SparesImports m') (hm : m.ImportsUsed) :
    m'.ImportsUsed := by
  rcases hm with hm | ⟨hm, i, hi, hop⟩
  · exact .inl (h.imports.trans hm)
  · exact .inr ⟨h.imports.trans hm, h.extended i hi hop⟩

theorem sparesImports_alloc (m : Module) (i : Instr) : m.SparesImports (m.alloc i).2 :=
  ⟨rfl, fun j hj hop => ⟨j, Array.mem_push.mpr (.inl hj), hop⟩⟩

theorem sparesImports_setOperand (m : Module) (id : InstrId) (slot : Nat) (v : Value) :
    m.SparesImports (m.setOperand id slot v) := by
  refine ⟨rfl, fun i hi hop => ?_⟩
  obtain ⟨k, hk⟩ := Array.mem_iff_getElem?.mp hi
  have hset : (m.setOperand id slot v).instrs[k]? =
      some (if id.index = k then i.setOperand slot v else i) := by
    rw [setOperand, Array.getElem?_modify, hk]
    split_ifs
    · rfl
    · rfl
  refine ⟨_, Array.mem_of_getElem? hset, ?_⟩
  split_ifs
  · exact hop
  · exact hop

/-- The import of the extended set comes with an instruction of it. -/
theorem ImportsUsed.extended (h : m.ImportsUsed) {i : Instr} (hi : i.opcode = .extInst) :
    ((m.importSet ExtendedOp.setName).2.alloc i).2.ImportsUsed := by
  have himport : (m.importSet ExtendedOp.setName).2 =
      { m with imports := #[ExtendedOp.setName] } := by
    obtain ⟨table, instrs, annotations, imports⟩ := m
    rcases h with h | ⟨h, -⟩ <;> cases h <;> simp [importSet]
  rw [himport]
  exact .inr ⟨rfl, i, Array.mem_push_self, hi⟩

end Module

/-! ### Steps -/

/-- A session follows another one without a new import. -/
abbrev State.SparesImports (s s' : State ρ) : Prop := s.code.SparesImports s'.code

/-- Imports that were used before are used after. -/
abbrev State.UsesImports (s s' : State ρ) : Prop := s.code.ImportsUsed → s'.code.ImportsUsed

namespace Gen

section Spared

variable {R : State ρ → State ρ → Prop} (htrans : ∀ {s s' s''}, R s s' → R s' s'' → R s s'')
  (hspares : ∀ {s s' : State ρ}, s.SparesImports s' → R s s')
include hspares

include htrans in
theorem respected_of_sparesImports : Respected R where
  trans := htrans
  same hcode _ := hspares (.of_eq (congrArg Module.imports hcode) (congrArg Module.instrs hcode))
  internType _ _ _ := hspares (.of_eq rfl rfl)
  internConst _ _ := hspares (.of_eq rfl rfl)
  alloc s i _ := hspares (s.code.sparesImports_alloc i)

theorem declaring_of_sparesImports : Declaring fun _ (x : Gen ρ _) => Relates R x where
  alloc i := .but fun _ s => .build (hspares (s.code.sparesImports_alloc i))
  annotate _ := .but fun _ _ => .build (hspares (.of_eq rfl rfl))
  moduleVariable storage pointer initial := .but fun c s => by
    refine .bind (.get (.bind (.checked (fun _ _ => ?_) fun _ => hspares (.refl _))))
    exact .bind (.modify (.bind (.build (.pure (hspares (.of_eq rfl rfl))))))

end Spared

theorem respected_usesImports : Respected (State.UsesImports (ρ := ρ)) :=
  respected_of_sparesImports (fun h h' hm => h' (h hm)) fun h => h.importsUsed

theorem extended_usesImports [RandomSource ρ] (scope : ScopeId) :
    Relates (ρ := ρ) State.UsesImports (extended scope) := by
  refine respected_usesImports.plain (extended_plain (fun ty operands => .but fun _ s => ?_) scope)
  exact .bind (.build (.bind (.build (.pure fun h => h.extended rfl))))

/-- Whatever a program imports is used. -/
theorem program_usesImports [RandomSource ρ] : Relates (ρ := ρ) State.UsesImports program :=
  respected_usesImports.program
    (declaring_of_sparesImports (R := State.UsesImports) fun h => h.importsUsed)
    (fun _ _ _ _ => .build (Module.SparesImports.importsUsed (.of_eq rfl rfl)))
    extended_usesImports

end Gen

/-! ### Finished shaders -/

/-- Bounding imports nothing. -/
theorem Module.guarding_sparesImports : DynamicIndex.Guarding Module.SparesImports where
  refl := .refl
  trans := .trans
  intern _ _ := .of_eq rfl rfl
  guard _ _ _ _ _ := (sparesImports_alloc _ _).trans (sparesImports_setOperand _ _ _ _)

theorem Shader.finish_sparesImports {s s' : Shader} (h : s.finish = .ok s') :
    s.code.SparesImports s'.code := Module.guarding_sparesImports.finish h

/-! ### Generated shaders -/

/-- An instruction that keeps its rules has no keyword but `None`. -/
theorem Module.Typed.legible_operands {m : Module} {i : Instr} (h : m.Typed i) :
    ∀ o ∈ i.operands, o.Legible := by
  have hvalues (args : List Value) : ∀ o ∈ args.map Operand.value, o.Legible := by
    simp [Operand.Legible]
  have hliterals (path : List Nat) : ∀ o ∈ path.map Operand.literal, o.Legible := by
    simp [Operand.Legible]
  have hentries (ids : List EntryId) : ∀ o ∈ ids.map Operand.entry, o.Legible := by
    simp [Operand.Legible, Operand.entry]
  have hnone : (Operand.keyword "None").Legible := show Text.Bare "None".toList by decide
  cases h with
  | apply => exact hvalues _
  | shuffle =>
    exact List.forall_mem_cons.mpr ⟨trivial, List.forall_mem_cons.mpr ⟨trivial, hliterals _⟩⟩
  | extract => exact List.forall_mem_cons.mpr ⟨trivial, hliterals _⟩
  | insert =>
    exact List.forall_mem_cons.mpr ⟨trivial, List.forall_mem_cons.mpr ⟨trivial, hliterals _⟩⟩
  | accessChain => exact List.forall_mem_cons.mpr ⟨trivial, hentries _⟩
  | extended =>
    exact List.forall_mem_cons.mpr ⟨trivial, List.forall_mem_cons.mpr ⟨trivial, hvalues _⟩⟩
  | selectionMerge =>
    exact List.forall_mem_cons.mpr ⟨trivial, List.forall_mem_singleton.mpr hnone⟩
  | function => exact List.forall_mem_cons.mpr ⟨hnone, List.forall_mem_singleton.mpr trivial⟩
  | _ => simp [Operand.Legible, Operand.entry, Operand.instr]

theorem Module.ImportsUsed.eq_setName {m : Module} (h : m.ImportsUsed) {name : String}
    (hname : name ∈ m.imports) : name = ExtendedOp.setName := by
  rcases h with h | ⟨h, -⟩
  · rw [h] at hname
    exact absurd hname (Array.not_mem_empty _)
  · rw [h] at hname
    exact List.mem_singleton.mp (Array.mem_toList_iff.mpr hname)

namespace Shader

variable {s : Shader}

/-- A shader that is made of functions and uses what it imports can be read back. -/
theorem Assembled.readable {fs : List FunctionParts} (hs : s.Assembled c fs)
    (hused : s.code.ImportsUsed) : s.Readable where
  imports name hname := by
    rw [hused.eq_setName hname]
    decide
  keywords _ _ _ hi := (hs.typed (Option.mem_def.mp hi)).legible_operands

end Shader

namespace Config

variable [RandomSource ρ] {source : ρ} {s : Shader} {l : Listing}

/-- A generated shader uses what it imports, and nothing is imported behind the generator. -/
theorem importsUsed_of_shaderFrom (h : c.shaderFrom source = .ok s) : s.code.ImportsUsed := by
  obtain ⟨-, program, state, hrun, hfinish⟩ := shaderFrom_eq_ok.mp h
  have hcode : program.code = state.code := (Gen.program_code _).of_run_ok hrun
  have hused : state.code.ImportsUsed :=
    Gen.Ends.of_run_ok (Gen.program_usesImports c (.start source)) hrun (.inl rfl)
  exact (Shader.finish_sparesImports hfinish).importsUsed (hcode ▸ hused)

/-- The text of a generated shader reads back. -/
theorem read_of_shaderFrom [BoundedRandomSource ρ] (h : c.shaderFrom source = .ok s)
    (hl : s.listing = .ok l) : Listing.read l.render = .ok l := by
  obtain ⟨fs, n, hs, hnumbering, hassign⟩ := c.assembled_of_shaderFrom h
  rw [Shader.listing, hnumbering] at hl
  exact (Shader.canonical_of_listingWith hl (Numbering.covers_of_assign hassign)
    (hs.readable (importsUsed_of_shaderFrom h))).read

end Config

end ShaderGen
