import ShaderGen.Proofs.Bounding

/-!
The structure of generated shaders. A body is a concatenation of functions, and the
stream of a function derives from a grammar in which markers nest as they should
and variables stand at the top. Labels cannot clash, for no instruction occurs
twice, and no variable is lost, for every instruction of the arena occurs.
-/

namespace ShaderGen

namespace Module

variable {m : Module}

/-- A block is a sequence of statements and selections. A statement is neither a
marker nor a variable; a selection has two blocks between its markers, each of
them entered at a label of its own and left for the label behind both. -/
inductive IsBlock (m : Module) : List InstrId → Prop
  | nil : IsBlock m []
  | statement {id : InstrId} {i : Instr} {rest : List InstrId}
      (hi : m.instrs[id.index]? = some i) (hmarker : i.opcode.isMarker = false)
      (hvar : i.opcode ≠ .var) (hrest : IsBlock m rest) : IsBlock m (id :: rest)
  | selection {condition : Value} {header branch merge yes no yesExit noExit : InstrId}
      {yesArm noArm rest : List InstrId}
      (hheader : m.instrs[header.index]? =
        some ⟨.selectionMerge, none, [.instr merge, .keyword "None"]⟩)
      (hbranch : m.instrs[branch.index]? =
        some ⟨.branchConditional, none, [.value condition, .instr yes, .instr no]⟩)
      (hyes : m.instrs[yes.index]? = some ⟨.label, none, []⟩) (hyesArm : IsBlock m yesArm)
      (hyesExit : m.instrs[yesExit.index]? = some ⟨.branch, none, [.instr merge]⟩)
      (hno : m.instrs[no.index]? = some ⟨.label, none, []⟩) (hnoArm : IsBlock m noArm)
      (hnoExit : m.instrs[noExit.index]? = some ⟨.branch, none, [.instr merge]⟩)
      (hmerge : m.instrs[merge.index]? = some ⟨.label, none, []⟩) (hrest : IsBlock m rest) :
      IsBlock m ([header, branch, yes] ++ yesArm ++ [yesExit, no] ++ noArm ++ [noExit, merge] ++
        rest)

theorem Scoped.isBlock {seen : InstrId → Prop} {stream defs : List InstrId}
    (h : m.Scoped seen stream defs) : m.IsBlock stream := by
  induction h with
  | nil => exact .nil
  | stmt hi hop _ _ ih =>
    simp only [Opcode.isStatement, Bool.and_eq_true, Bool.not_eq_true', bne_iff_ne] at hop
    exact .statement hi hop.1 hop.2 ih
  | selection hheader hbranch _ hyes _ hyesExit hno _ hnoExit hmerge _ ihyes ihno ih =>
    exact .selection hheader hbranch hyes ihyes hyesExit hno ihno hnoExit hmerge ih

theorem not_isVariable_of_opcode {id : InstrId} {i : Instr} (hi : m.instrs[id.index]? = some i)
    (hop : i.opcode ≠ .var) : ¬ m.IsVariable id := by
  rintro ⟨j, hj, hvar⟩
  cases hi.symm.trans hj
  exact hop hvar

/-- No variable stands in a block. -/
theorem IsBlock.not_isVariable {stream : List InstrId} (h : m.IsBlock stream) {id : InstrId}
    (hid : id ∈ stream) : ¬ m.IsVariable id := by
  induction h with
  | nil => cases hid
  | statement hj _ hvar _ ih =>
    rcases List.mem_cons.mp hid with rfl | hid
    · exact not_isVariable_of_opcode hj hvar
    · exact ih hid
  | selection hheader hbranch hyes _ hyesExit hno _ hnoExit hmerge _ ihyes ihno ih =>
    simp only [List.mem_append, List.mem_cons, List.not_mem_nil, or_false] at hid
    rcases hid with ((((((rfl | rfl | rfl) | hid) | rfl | rfl) | hid) | rfl | rfl) | hid)
    · exact not_isVariable_of_opcode hheader (by simp)
    · exact not_isVariable_of_opcode hbranch (by simp)
    · exact not_isVariable_of_opcode hyes (by simp)
    · exact ihyes hid
    · exact not_isVariable_of_opcode hyesExit (by simp)
    · exact not_isVariable_of_opcode hno (by simp)
    · exact ihno hid
    · exact not_isVariable_of_opcode hnoExit (by simp)
    · exact not_isVariable_of_opcode hmerge (by simp)
    · exact ih hid

/-- The variables of a function stand in front of its block. -/
theorem IsFunction.mem_vars {ty : EntryId} {f : FunctionParts} (h : m.IsFunction ty f)
    {v : InstrId} (hv : v ∈ f.stream) (hvar : m.IsVariable v) : v ∈ f.vars := by
  obtain ⟨r, tys, _, hopening, _⟩ := h.opens
  obtain ⟨defs, hbody⟩ := h.body
  simp only [FunctionParts.stream, List.mem_append, List.mem_cons, List.not_mem_nil,
    or_false] at hv
  rcases hv with (((rfl | hv) | rfl | hv) | hv) | rfl | rfl
  · exact (not_isVariable_of_opcode hopening (by simp) hvar).elim
  · obtain ⟨ty, hp⟩ := h.parameter hv
    exact (not_isVariable_of_opcode hp (by simp) hvar).elim
  · exact (not_isVariable_of_opcode h.entry (by simp) hvar).elim
  · exact hv
  · exact (hbody.isBlock.not_isVariable hv hvar).elim
  · exact (not_isVariable_of_opcode h.ret (by simp) hvar).elim
  · exact (not_isVariable_of_opcode h.closing (by simp) hvar).elim

/-- A variable reads no instruction. -/
theorem Typed.not_reads {i : Instr} (h : m.Typed i) (hop : i.opcode = .var) (d : InstrId) :
    Value.instr d ∉ i.usedValues := by
  obtain ⟨_, r, operands⟩ := i
  cases hop
  cases h with
  | apply _ h =>
    cases h with
    | convert _ _ _ _ h => cases h <;> contradiction
    | _ => contradiction
  | var => simp [Instr.mem_usedValues, Operand.entry]

/-- Outside of its body a function reads no instruction. -/
theorem IsFunction.not_reads {ty : EntryId} {f : FunctionParts} (h : m.IsFunction ty f)
    (htyped : ∀ {k : Nat} {i : Instr}, m.instrs[k]? = some i → m.Typed i) {id : InstrId}
    (hid : id ∈ f.opening :: f.params ++ f.entry :: f.vars ++ [f.ret, f.closing]) {i : Instr}
    (hi : m.instrs[id.index]? = some i) (d : InstrId) : Value.instr d ∉ i.usedValues := by
  have hnone {j : Instr} (hj : m.instrs[id.index]? = some j)
      (hj' : ∀ d, Value.instr d ∉ j.usedValues) : Value.instr d ∉ i.usedValues := by
    cases hj.symm.trans hi
    exact hj' d
  obtain ⟨r, tys, _, hopening, _⟩ := h.opens
  simp only [List.mem_append, List.mem_cons, List.not_mem_nil, or_false] at hid
  rcases hid with ((rfl | hid) | rfl | hid) | rfl | rfl
  · exact hnone hopening fun d => by simp [Instr.mem_usedValues, Operand.entry]
  · obtain ⟨ty, hp⟩ := h.parameter hid
    exact hnone hp fun d => List.not_mem_nil
  · exact hnone h.entry fun d => List.not_mem_nil
  · obtain ⟨j, hj, hop⟩ := h.vars id hid
    exact hnone hj ((htyped hj).not_reads hop)
  · exact hnone h.ret fun d => List.not_mem_nil
  · exact hnone h.closing fun d => List.not_mem_nil

/-- What the instructions of a function read belongs to the function. -/
theorem IsFunction.reads {ty : EntryId} {f : FunctionParts} (h : m.IsFunction ty f)
    (htyped : ∀ {k : Nat} {i : Instr}, m.instrs[k]? = some i → m.Typed i) {id : InstrId}
    (hid : id ∈ f.stream) {i : Instr} (hi : m.instrs[id.index]? = some i) {d : InstrId}
    (hd : Value.instr d ∈ i.usedValues) : (d ∈ f.params ∨ d ∈ f.vars) ∨ d ∈ f.body := by
  -- Outside of its body a function reads nothing.
  by_cases hbody : id ∈ f.body
  · obtain ⟨defs, hscoped⟩ := h.body
    exact hscoped.reads hbody hi hd
  · refine (h.not_reads htyped ?_ hi d hd).elim
    simp only [FunctionParts.stream, List.mem_append] at hid ⊢
    tauto

end Module

/-- A shader is a sequence of functions, no more than the configuration allows and the
first of them the entry point, a function without parameters and without a result.
Each derives from the grammar of its type. No instruction, so no label, occurs
twice, and every variable stands in front of a block: some function has it, and so
has the function in which it occurs or is read. -/
structure Shader.Structured (c : Config) (s : Shader) (fs : List FunctionParts) : Prop where
  body : s.body.toList = fs.flatMap FunctionParts.stream
  nonempty : 1 ≤ fs.length
  few : fs.length ≤ c.maxFunctions
  main : ∃ main ty r, fs.head? = some main ∧ s.entryPoint = main.opening ∧
    s.code.IsFunction ty main ∧ s.code.table.IsType ty (.function r []) ∧
    s.code.table.IsType r .void
  functions : ∀ f ∈ fs, ∃ ty, s.code.IsFunction ty f
  blocks : ∀ f ∈ fs, s.code.IsBlock f.body
  nodup : s.body.toList.Nodup
  vars : ∀ v, s.code.IsVariable v → ∃ f ∈ fs, v ∈ f.vars
  hoisted : ∀ f ∈ fs, ∀ v, s.code.IsVariable v →
    (v ∈ f.stream ∨ ∃ id ∈ f.stream, ∃ i, s.code.instrs[id.index]? = some i ∧
      Value.instr v ∈ i.usedValues) → v ∈ f.vars

theorem Shader.Assembled.structured {c : Config} {s : Shader} {fs : List FunctionParts}
    (hs : s.Assembled c fs) : s.Structured c fs where
  body := hs.body
  nonempty := by
    obtain ⟨_, rest, _, _, rfl, _⟩ := hs.main
    exact Nat.succ_le_succ (Nat.zero_le _)
  few := hs.few
  main := by
    obtain ⟨main, _, ty, r, rfl, hentry, hmain, hty, hr⟩ := hs.main
    exact ⟨main, ty, r, rfl, hentry, hmain, hty, hr⟩
  functions := hs.functions
  blocks f hf := by
    obtain ⟨_, hfun⟩ := hs.functions f hf
    obtain ⟨_, hbody⟩ := hfun.body
    exact hbody.isBlock
  nodup := hs.occupies.nodup
  vars v hv := by
    have ⟨i, hi, hop⟩ := hv
    have hmem : v ∈ s.body.toList :=
      hs.occupies.mem_iff.mpr ⟨Nat.zero_le _, (Array.getElem?_eq_some_iff.mp hi).1⟩
    rw [hs.body, List.mem_flatMap] at hmem
    obtain ⟨f, hf, hmem⟩ := hmem
    obtain ⟨ty, hfun⟩ := hs.functions f hf
    exact ⟨f, hf, hfun.mem_vars hmem hv⟩
  hoisted f hf v hv hused := by
    obtain ⟨ty, hfun⟩ := hs.functions f hf
    rcases hused with hmem | ⟨id, hid, i, hi, hread⟩
    · exact hfun.mem_vars hmem hv
    · refine hfun.mem_vars ?_ hv
      have := hfun.reads hs.typed hid hi hread
      simp only [FunctionParts.stream, List.mem_append, List.mem_cons]
      tauto

variable {ρ : Type} [RandomSource ρ] [BoundedRandomSource ρ]

/-- Every generated shader is structured. -/
theorem Config.structured_of_shaderFrom {c : Config} {source : ρ} {s : Shader}
    (h : c.shaderFrom source = .ok s) : ∃ fs, s.Structured c fs := by
  obtain ⟨fs, _, hs, _, _⟩ := c.assembled_of_shaderFrom h
  exact ⟨fs, hs.structured⟩

theorem Config.structured_small : ∃ s, Config.small.shaderFrom Script.selection = .ok s ∧
    ∃ fs, s.Structured Config.small fs := by
  obtain ⟨s, hs, _⟩ := small_shaderFrom
  exact ⟨s, hs, structured_of_shaderFrom hs⟩

end ShaderGen
