import ShaderGen.Proofs.Withholding
import ShaderGen.Proofs.BufferLayout

/-!
What is imported, and what for. The set of extended instructions is the only one, and it is
imported by the step that adds an instruction of it, so there is an import exactly if there is
such an instruction, whichever were tried in vain before. A configuration without extended
instructions withholds them, so its shaders import nothing.
-/

namespace ShaderGen

variable {ρ α β : Type} {c : Config}

/-! ### Runs -/

namespace Plan

variable [RandomSource ρ] {R : State ρ → State ρ → Prop} {s : State ρ} {ms : List (Moment ρ)}
  {out : Except Ending Shader × State ρ}

/-- What steps without imports do is done by a whole shader, if extended instructions do it or
are not entered. -/
theorem Runs.relates_of_sparesImports (barred : Opcode → Prop) (hdepth : c.maxDepth ≠ 0)
    (htrans : ∀ {s s' s''}, R s s' → R s' s'' → R s s'')
    (hspares : ∀ {s s' : State ρ}, s.SparesImports s' → R s s')
    (hextended : ¬barred .extInst → ∀ scope, Gen.Relates R (Gen.extended scope))
    (h : program.Runs c s ms out)
    (hms : ∀ m ∈ ms, ∀ cat op, m.event = .enter cat op → ¬barred op) :
    (∀ m ∈ ms, R s m.state) ∧ R s out.2 := by
  have hR := Gen.respected_of_sparesImports (R := R) htrans hspares
  have hcovers : Covers fun _ _ x => Gen.Relates R x :=
    hR.covers (Gen.declaring_of_sparesImports (R := R) hspares)
  refine h.relates barred hR (fun r hr => ?_)
    (program_each hcovers hdepth trivial trivial fun _ _ _ => trivial) hms
  refine body_each hR.draws hcovers r (fun _ _ _ _ _ s => .build (hspares (.of_eq rfl rfl))) ?_
  rintro t rfl
  exact hextended (hr t _ rfl)

variable [LawfulRandomSource ρ]

/-- Nothing is imported for instructions that are withheld. -/
theorem Runs.imports_eq (hdepth : c.maxDepth ≠ 0) {source : ρ}
    (h : program.Runs c (.start source) ms out) (hwithheld : .extInst ∈ c.withheld) :
    (∀ m ∈ ms, m.state.code.imports = #[]) ∧ out.2.code.imports = #[] := by
  have hrun := h.relates_of_sparesImports (R := State.SparesImports) (· ∈ c.withheld) hdepth
    (fun h h' => h.trans h') id (fun hnot => absurd hwithheld hnot) fun m hm cat op he hop => by
      have hoffered := ((h.withholds hdepth).1 m hm).2
      rw [he] at hoffered
      exact hoffered hop
  exact ⟨fun m hm => (hrun.1 m hm).imports, hrun.2.imports⟩

end Plan

/-! ### Listings -/

theorem Opcode.mnemonic_eq_extInst {op : Opcode} : op.mnemonic = "OpExtInst" ↔ op = .extInst := by
  cases op <;> simp [mnemonic, word]

theorem Opcode.mnemonic_ne_import (op : Opcode) : op.mnemonic ≠ "OpExtInstImport" := by
  cases op <;> decide

theorem Emission.declaring_ne_extInst (e : Entity) : declaring e ≠ .extInst := by
  rcases e with t | (⟨_, _ | _⟩ | _ | _) | _
  · cases t <;> simp [declaring, Ty.opcode]
  all_goals simp [declaring, Const.opcode]

namespace Shader.Sections

variable {s : Shader} {n : Numbering} {l : Listing} (p : s.Sections n)

/-- Imports stand in the section for them. -/
theorem withOpcode_import (hlines : l.lines = p.lines) :
    l.withOpcode "OpExtInstImport" = p.imports := by
  have himports : p.imports.filter (fun line => line.opcode == "OpExtInstImport") = p.imports :=
    List.filter_eq_self.mpr fun line hline => by simp [p.opcode_imports line hline]
  have hentries : p.entries.filter (fun line => line.opcode == "OpExtInstImport") = [] :=
    List.filter_eq_nil_iff.mpr fun line hline => by
      obtain ⟨_, -, _, -, hshows⟩ := forall₂_exists_of_mem p.entries_show hline
      simpa [hshows.opcode] using Opcode.mnemonic_ne_import _
  have hstream : p.stream.filter (fun line => line.opcode == "OpExtInstImport") = [] :=
    List.filter_eq_nil_iff.mpr fun line hline => by
      obtain ⟨_, -, _, _, -, -, hshows⟩ := forall₂_exists_of_mem p.stream_shows hline
      simpa [hshows.opcode] using Opcode.mnemonic_ne_import _
  rw [Listing.withOpcode, hlines, p.filter_lines (· == "OpExtInstImport") (by decide)]
  rw [himports, hentries, hstream, List.append_nil, List.append_nil]

/-- Extended instructions stand in the stream. -/
theorem withOpcode_extInst (hlines : l.lines = p.lines) :
    l.withOpcode "OpExtInst" = p.stream.filter (fun line => line.opcode == "OpExtInst") := by
  have himports : p.imports.filter (fun line => line.opcode == "OpExtInst") = [] :=
    List.filter_eq_nil_iff.mpr fun line hline => by simp [p.opcode_imports line hline]
  have hentries : p.entries.filter (fun line => line.opcode == "OpExtInst") = [] :=
    List.filter_eq_nil_iff.mpr fun line hline => by
      obtain ⟨_, -, _, -, hshows⟩ := forall₂_exists_of_mem p.entries_show hline
      simpa [hshows.opcode, Opcode.mnemonic_eq_extInst] using Emission.declaring_ne_extInst _
  rw [Listing.withOpcode, hlines, p.filter_lines (· == "OpExtInst") (by decide)]
  rw [himports, hentries, List.nil_append, List.nil_append]

/-- There is a line for each extended instruction of the stream. -/
theorem length_extInst : (p.stream.filter (fun line => line.opcode == "OpExtInst")).length =
    s.opcodes.count .extInst := by
  have hopcodes : p.stream.map Line.opcode = s.opcodes.map Opcode.mnemonic := by
    have h := Emission.filterMap_of_forall₂ (g := some ∘ Line.opcode) <|
      p.stream_shows.imp fun id line h => by
        obtain ⟨i, _, hi, -, hshows⟩ := h
        change some line.opcode = ((Instr.opcode <$> s.code.instrs[id.index]?).map Opcode.mnemonic)
        rw [hi, hshows.opcode]
        rfl
    rwa [List.filterMap_eq_map, ← List.map_filterMap] at h
  rw [← List.countP_eq_length_filter]
  have hcount := congrArg (List.countP (· == "OpExtInst")) hopcodes
  rw [List.countP_map, List.countP_map] at hcount
  refine hcount.trans (List.countP_congr fun op _ => ?_)
  simp [Opcode.mnemonic_eq_extInst]

end Shader.Sections

/-- The extended set is imported once, as the first id, if an instruction of the stream is of
it, and nothing is imported otherwise; and the line of every such instruction names that
import. -/
structure Shader.ImportsAsUsed (s : Shader) (l : Listing) : Prop where
  imports : l.withOpcode "OpExtInstImport" =
    if .extInst ∈ s.opcodes then [⟨some 1, "OpExtInstImport", [.quoted "GLSL.std.450"]⟩] else []
  count : (l.withOpcode "OpExtInst").length = s.opcodes.count .extInst
  sets : ∀ line ∈ l.withOpcode "OpExtInst", ∃ (ty : Nat) (op : ExtendedOp) (args : List Word),
    line.operands = .id ty :: .id 1 :: .plain op.name :: args

/-- An instruction of the extended set names an import. -/
theorem Module.Typed.eq_of_extInst {m : Module} {i : Instr} (h : m.Typed i)
    (hop : i.opcode = .extInst) : ∃ set op args r, m.imports[set.index]? = some ExtendedOp.setName ∧
      i = ⟨.extInst, some r, .importSet set :: .extended op :: args⟩ := by
  cases h with
  | extended hset => exact ⟨_, _, _, _, hset, rfl⟩
  | apply _ h =>
    cases hop
    cases h with
    | convert _ _ _ _ h => cases h <;> contradiction
    | _ => contradiction
  | _ => cases hop

namespace Shader

variable {s : Shader} {n : Numbering} {l : Listing}

/-- What is written of the only import there is. -/
theorem eq_one_of_importId {k : Nat} (h : n.importId ⟨0⟩ = .ok k) : k = 1 := by
  rw [Numbering.importId] at h
  split_ifs at h
  exact (Except.ok.inj h).symm

theorem Assembled.extInst_iff {fs : List FunctionParts} (hs : s.Assembled c fs) :
    .extInst ∈ s.opcodes ↔ ∃ i ∈ s.code.instrs, i.opcode = .extInst := by
  rw [opcodes, List.mem_filterMap]
  constructor
  · rintro ⟨id, -, hop⟩
    obtain ⟨i, hi, hop⟩ := Option.map_eq_some_iff.mp hop
    exact ⟨i, Array.mem_of_getElem? hi, hop⟩
  · rintro ⟨i, hi, hop⟩
    obtain ⟨k, hk⟩ := Array.mem_iff_getElem?.mp hi
    refine ⟨⟨k⟩, ?_, Option.map_eq_some_iff.mpr ⟨i, hk, hop⟩⟩
    exact hs.occupies.mem_iff.mpr ⟨Nat.zero_le _, (Array.getElem?_eq_some_iff.mp hk).1⟩

/-- A shader whose imports are used is written so. -/
theorem Assembled.importsAsUsed {fs : List FunctionParts} (hs : s.Assembled c fs)
    (hused : s.code.ImportsUsed) (p : s.Sections n) (hlines : l.lines = p.lines) :
    s.ImportsAsUsed l := by
  have htyped {i : Instr} (hi : i ∈ s.code.instrs) (hop : i.opcode = .extInst) :=
    (hs.typed (Array.mem_iff_getElem?.mp hi).choose_spec).eq_of_extInst hop
  refine ⟨?_, ?_, ?_⟩
  · rw [p.withOpcode_import hlines]
    have hshow := p.imports_show
    rcases hused with hnone | ⟨hone, hextended⟩
    · rw [if_neg fun hmem => ?_]
      · rw [hnone] at hshow
        exact List.forall₂_nil_left_iff.mp hshow
      · obtain ⟨i, hi, hop⟩ := hs.extInst_iff.mp hmem
        obtain ⟨_, _, _, _, hset, -⟩ := htyped hi hop
        rw [hnone] at hset
        cases hset
    · rw [if_pos (hs.extInst_iff.mpr hextended)]
      rw [hone] at hshow
      generalize p.imports = imports at hshow
      cases hshow with
      | cons hline hrest =>
        cases hrest
        obtain ⟨k, hk, rfl⟩ := hline
        rw [eq_one_of_importId hk]
        rfl
  · rw [p.withOpcode_extInst hlines, p.length_extInst]
  · intro line hline
    rw [p.withOpcode_extInst hlines, List.mem_filter] at hline
    obtain ⟨id, -, i, _, hi, -, hshows⟩ := forall₂_exists_of_mem p.stream_shows hline.1
    have hop : i.opcode = .extInst := by
      simpa [hshows.opcode, Opcode.mnemonic_eq_extInst] using hline.2
    obtain ⟨set, op, args, r, hset, rfl⟩ := (hs.typed hi).eq_of_extInst hop
    obtain rfl : set = ⟨0⟩ := by
      rcases hused with hnone | ⟨hone, -⟩
      · rw [hnone] at hset
        cases hset
      · rw [hone] at hset
        exact congrArg ImportId.mk (Nat.lt_one_iff.mp (Array.getElem?_eq_some_iff.mp hset).1)
    -- the operands are written as they are, behind the result type
    have hwords := hshows.operands
    change List.Forall₂ n.Resolves (.entry r :: .importSet ⟨0⟩ :: .extended op :: args) _ at hwords
    obtain ⟨_, rest, hty, hrest, heq⟩ := List.forall₂_cons_left_iff.mp hwords
    obtain ⟨_, rest', hid, hrest', rfl⟩ := List.forall₂_cons_left_iff.mp hrest
    obtain ⟨_, args', hop', -, rfl⟩ := List.forall₂_cons_left_iff.mp hrest'
    cases hty with
    | entry =>
      cases hid with
      | importSet hk =>
        cases hop'
        rw [eq_one_of_importId hk] at heq
        exact ⟨_, op, args', heq⟩

end Shader

/-! ### Sessions -/

section Sessions

variable [RandomSource ρ]

/-- Extended instructions weigh nothing once statements have weights, whatever else a session is
asked to do with its weights. -/
def State.Gates (c : Config) (s : State ρ) : Prop :=
  ∀ s', WeightCall.Reaches c s s' → s'.weights.isParametrized .statement = true →
    s'.weights.weight? .statement .extInst = some 0.0

/-- Extended instructions weigh nothing at a moment, none is entered, and nothing has been
imported for one. -/
structure Moment.Gated (c : Config) (m : Moment ρ) : Prop where
  weights : m.state.Gates c
  entered : ∀ cat, m.event ≠ .enter cat .extInst
  imports : m.state.code.imports = #[]

theorem Config.mem_withheld (h : c.extendedInstructions = false) : .extInst ∈ c.withheld := by
  simp [withheld, h]

theorem State.gates_of_allowed (hoff : c.extendedInstructions = false) {s : State ρ}
    (hs : s.weights.Allowed c) : s.Gates c := by
  intro s' hreaches hparametrized
  rw [(hreaches.allowed hs).weight?_eq (by decide) (Config.mem_withheld hoff), if_pos hparametrized]

namespace Config

variable [LawfulRandomSource ρ]

/-- Extended instructions are gated, and imported exactly if they are used. Without them in the
configuration they weigh nothing at any moment of the run of a shader, so none is entered and
nothing is imported, and neither an instruction of the set nor an import is in the shader or its
text. With or without them, the text has one import, of the extended set, if the stream has an
instruction of it, and none otherwise, and every such instruction names that import. -/
theorem imports_of_validate (hc : c.validate = .ok ()) (source : ρ) :
    (c.extendedInstructions = false →
      (∃ ms, Plan.program.Runs c (.start source) ms (Gen.program.run c (.start source)) ∧
        ∀ m ∈ ms, m.Gated c) ∧
      (Gen.program.run c (.start source)).2.Gates c) ∧
    ∀ s, c.shaderFrom source = .ok s → ∃ l, s.listing = .ok l ∧ s.text = .ok l.render ∧
      Listing.read l.render = .ok l ∧ s.ImportsAsUsed l ∧
      (c.extendedInstructions = false → s.code.imports = #[] ∧ .extInst ∉ s.opcodes ∧
        l.withOpcode "OpExtInstImport" = [] ∧ l.withOpcode "OpExtInst" = []) := by
  obtain ⟨ms, hruns⟩ := Plan.program_runs hc source
  have hdepth := c.maxDepth_ne_zero hc
  obtain ⟨hallowed, hallowed'⟩ := hruns.withholds hdepth
  refine ⟨fun hoff => ⟨⟨ms, hruns, fun m hm => ⟨?_, ?_, ?_⟩⟩, ?_⟩, fun s hs => ?_⟩
  · exact State.gates_of_allowed hoff (hallowed m hm).1
  · intro cat he
    have hoffered := (hallowed m hm).2
    rw [he] at hoffered
    exact hoffered (mem_withheld hoff)
  · exact (hruns.imports_eq hdepth (mem_withheld hoff)).1 m hm
  · exact State.gates_of_allowed hoff hallowed'
  · obtain ⟨_, n, l, hassembled, -, hcovers, hlisting, hwritten, htext, hread⟩ :=
      listing_of_shaderFrom hs
    obtain ⟨-, p, hlines⟩ := Shader.sections_of_listingWith hwritten hcovers
    have himports := hassembled.importsAsUsed (importsUsed_of_shaderFrom hs) p hlines
    refine ⟨l, hlisting, htext, hread, himports, fun hoff => ?_⟩
    obtain ⟨-, program, state, hrun, hfinish⟩ := shaderFrom_eq_ok.mp hs
    have hcode : program.code = state.code := (Gen.program_code _).of_run_ok hrun
    rw [hrun] at hruns
    have hnone : s.code.imports = #[] := (Shader.finish_sparesImports hfinish).imports.trans
      (hcode ▸ (hruns.imports_eq hdepth (mem_withheld hoff)).2)
    have hop : .extInst ∉ s.opcodes := by
      intro hmem
      obtain ⟨i, hi, hop⟩ := hassembled.extInst_iff.mp hmem
      obtain ⟨k, hk⟩ := Array.mem_iff_getElem?.mp hi
      obtain ⟨_, _, _, _, hset, -⟩ := (hassembled.typed hk).eq_of_extInst hop
      rw [hnone] at hset
      cases hset
    have hlines' := himports.count
    rw [List.count_eq_zero_of_not_mem hop] at hlines'
    exact ⟨hnone, hop, himports.imports.trans (if_neg hop), List.length_eq_zero_iff.mp hlines'⟩

end Config

end Sessions

/-- A configuration of small shaders with extended instructions. -/
def Config.extending : Config := { small with extendedInstructions := true }

/-- The choices of a shader that takes an absolute value. -/
def Script.extended : Script :=
  ⟨[0, 1, 0, 1, 3, 1, 0, 1, 0, 0, 0, 2, 0, 1, 3, 3, 0, 1, 0, 1, 0, 1, 0, 79]⟩

theorem Config.extending_shaderFrom : ∃ s, extending.shaderFrom Script.extended = .ok s ∧
    s.opcodes = [.function, .label, .extInst, .ret, .functionEnd] := by
  have h : (Shader.opcodes <$> extending.shaderFrom Script.extended).toOption =
      some [.function, .label, .extInst, .ret, .functionEnd] := by decide +kernel
  exact map_eq_ok.mp (toOption_eq_some.mp h)

/-- One shader has an extended instruction and its import; another one could not have any. -/
theorem Config.imports_extending :
    (∃ s, extending.shaderFrom Script.extended = .ok s ∧ ∃ l, s.listing = .ok l ∧
      s.text = .ok l.render ∧ Listing.read l.render = .ok l ∧ s.ImportsAsUsed l ∧
      l.withOpcode "OpExtInstImport" =
        [⟨some 1, "OpExtInstImport", [.quoted "GLSL.std.450"]⟩]) ∧
    small.extendedInstructions = false ∧
    ∃ ms, Plan.program.Runs small (.start Script.selection) ms
      (Gen.program.run small (.start Script.selection)) ∧ ∀ m ∈ ms, m.Gated small := by
  obtain ⟨s, hs, hopcodes⟩ := extending_shaderFrom
  have hc : extending.validate = .ok () := (shaderFrom_eq_ok.mp hs).1
  obtain ⟨l, hlisting, htext, hread, himports, -⟩ :=
    (imports_of_validate hc Script.extended).2 s hs
  have hmem : .extInst ∈ s.opcodes := by simp [hopcodes]
  refine ⟨⟨s, hs, l, hlisting, htext, hread, himports, himports.imports.trans (if_pos hmem)⟩,
    rfl, ?_⟩
  exact ((imports_of_validate small_validate Script.selection).1 rfl).1

end ShaderGen
