import ShaderGen.Proofs.Depth
import ShaderGen.Proofs.Structure

/-!
How deep selections nest. The levels that are left in a scope bound the depth of what is
put into it: only a selection puts more than one instruction into a stream, and its arms
are blocks with a level less. A function starts with fewer levels than the configuration
allows. Bounding accesses neither opens nor closes a selection, so the depth that is
counted in the finished stream is still that of the blocks.
-/

namespace ShaderGen

/-! ### Shallow blocks -/

namespace Module

variable {m : Module}

/-- A block in which selections lie in each other at most so deep. -/
def Shallow (levels : Nat) (m : Module) (stream : List InstrId) : Prop :=
  ∃ depth ≤ levels, m.HasDepth depth stream

theorem Shallow.mono {levels levels' : Nat} {stream : List InstrId} (h : m.Shallow levels stream)
    (hle : levels ≤ levels') : m.Shallow levels' stream :=
  h.imp fun _ hdepth => hdepth.imp_left fun h => h.trans hle

theorem additive_shallow (levels : Nat) : Additive (Shallow levels) where
  nil _ := ⟨0, Nat.zero_le _, .nil⟩
  append := by
    rintro m a b ⟨_, hle, ha⟩ ⟨_, hle', hb⟩
    exact ⟨_, Nat.max_le.mpr ⟨hle, hle'⟩, ha.append hb⟩
  grow := by
    rintro m m' a he ⟨depth, hle, h⟩
    exact ⟨depth, hle, h.grow he⟩

/-- A selection has a level more than its arms. -/
theorem IsSelection.shallow {levels : Nat} {stream : List InstrId}
    (h : m.IsSelection (m.Shallow levels) stream) : m.Shallow (levels + 1) stream := by
  obtain ⟨_, _, _, _, _, _, _, _, _, _, hmarkers, ⟨_, hle, hyes⟩, ⟨_, hle', hno⟩, rfl⟩ := h
  have hdepth := HasDepth.selection hmarkers hyes hno .nil
  rw [List.append_nil] at hdepth
  exact ⟨_, by omega, hdepth⟩

/-- A stream too short for a selection has none. -/
theorem Scoped.shallow {seen : InstrId → Prop} {stream defs : List InstrId} (levels : Nat)
    (h : m.Scoped seen stream defs) (hshort : stream.length ≤ 1) : m.Shallow levels stream := by
  refine ⟨0, Nat.zero_le _, ?_⟩
  cases h with
  | nil => exact .nil
  | stmt hi hop _ hrest =>
    obtain rfl := List.length_eq_zero_iff.mp (Nat.le_zero.mp (Nat.le_of_succ_le_succ hshort))
    simp only [Opcode.isStatement, Bool.and_eq_true, Bool.not_eq_true'] at hop
    exact .statement hi hop.1 .nil
  | selection =>
    simp only [List.length_append, List.length_cons] at hshort
    omega

end Module

namespace Gen

variable {ρ α : Type} {c : Config} {s : State ρ}

/-! ### Single statements -/

/-- A routine puts one instruction into the stream at most. -/
def Single (x : Gen ρ Production) : Prop :=
  ∀ c s, Ends x c s (fun p _ => p.stream.length ≤ 1) fun _ _ => True

namespace Single

@[grind ←]
theorem bind {x : Gen ρ α} {g : α → Gen ρ Production} (hg : ∀ a, Single (g a)) :
    Single (x >>= g) := fun c _ => .after fun a s' => hg a c s'

@[grind ←]
theorem infeasible : Single (Gen.infeasible : Gen ρ Production) := fun _ _ => .infeasible trivial

@[grind ←]
theorem stop (cause : Stop) : Single (Gen.stop cause : Gen ρ Production) := fun _ _ => .stop trivial

@[grind ←]
theorem emit (op : Opcode) (ty : EntryId) (operands : List Operand) :
    Single (Gen.emit op ty operands : Gen ρ Production) := fun _ _ =>
  .bind (.build (.pure (Nat.le_refl 1)))

@[grind ←]
theorem pure {p : Production} (h : p.stream.length ≤ 1) : Single (Pure.pure p : Gen ρ Production) :=
  fun _ _ => .pure h

end Single

/-- What searches emits once. -/
theorem Emits.single {x : Gen ρ Production} (h : Emits x) : Single x := by
  induction h with
  | emit op ty operands _ => exact .emit op ty operands
  | infeasible => exact .infeasible
  | bind _ _ hg => exact .bind hg

variable [RandomSource ρ]

theorem firstExtended_single (scope : ScopeId) (ops : List ExtendedOp) :
    Single (ρ := ρ) (firstExtended scope ops) := by
  induction ops with
  | nil => exact .infeasible
  | cons op ops ih =>
    have hfirst : Single (ρ := ρ) (extendedWith scope op) :=
      .bind fun _ => .bind fun _ => by grind
    refine fun c s => .bind (.attempt ((hfirst c s).mono (fun _ _ hp => .pure hp) ?_))
    rintro (_ | cause) s' -
    · exact ih c s'
    · trivial

/-- Only a selection puts more into the stream. -/
theorem variantWith_single (arm : Option (ScopeId → Gen ρ Block)) (scope : ScopeId) {op : Opcode}
    (hop : op.recipe? ≠ some .selection) : Single (variantWith arm scope op) := by
  cases hrecipe : op.recipe? with
  | none =>
    simp only [variantWith, hrecipe]
    exact .stop _
  | some recipe =>
    cases recipe with
    | localVariable =>
      simp only [variantWith, hrecipe]
      grind [localVariable]
    | store =>
      simp only [variantWith, hrecipe]
      grind [store]
    | extended =>
      simp only [variantWith, hrecipe]
      unfold extended
      generalize ExtendedOp.all = ops
      exact .bind fun ops => firstExtended_single scope ops
    | selection => exact absurd hrecipe hop
    | _ => exact (variantWith_emits arm scope hrecipe (by simp)).single

/-! ### Levels -/

variable [BoundedRandomSource ρ]

/-- Where `levels` levels are left a statement is that deep at most, if the arms of its
selections have a level less. -/
theorem variantWith_shallow {levels : Nat}
    (harm : ∀ n, levels = n + 1 → KeepsArms c (Module.Shallow n) (arms (ρ := ρ) levels))
    (hs : s.Sound c) (scope : ScopeId) (op : Opcode) :
    Leads c s (variantWith (arms levels) scope op) fun s p s' =>
      Produces c scope s p s' ∧ s'.code.Shallow levels p.stream := by
  by_cases hop : op.recipe? = some .selection
  · have hselection : variantWith (arms (ρ := ρ) levels) scope op =
        selection (arms levels) scope := by
      simp only [variantWith, hop]
    rw [hselection]
    cases levels with
    | zero =>
      refine Ends.bind ((scopeAt_steadily hs scope).mono ?_ fun _ _ he => he.halts)
      rintro _ s ⟨rfl, -⟩
      exact Ends.bind (Ends.infeasible (.refl hs))
    | succ n =>
      exact Ends.mono (selection_keeps (Module.additive_shallow n) (harm n rfl) hs scope)
        (fun _ _ h => h.imp_right Module.IsSelection.shallow) fun _ _ he => he
  · refine Ends.mono ((variantWith_leads (fillsArms levels) hs scope op).and
      (variantWith_single _ scope hop c s)) ?_ fun _ _ he => he.1
    rintro p s' ⟨hp, hshort⟩
    obtain ⟨_, hscoped, _⟩ := hp.nested
    exact ⟨hp, hscoped.shallow levels hshort⟩

/-- A block is as deep as its statements. -/
theorem blockWith_shallow_of_arms {levels : Nat} {scope : ScopeId} (hs : s.Sound c)
    (hscope : s.HasScope scope)
    (harm : ∀ n, levels = n + 1 → KeepsArms c (Module.Shallow n) (arms (ρ := ρ) levels)) :
    Ends (blockWith (arms levels) scope) c s
      (fun b s' => Fills c scope s b s' ∧ s'.code.Shallow levels b.stream.toList) (Stops c) := by
  refine Ends.bind (Ends.read (Ends.bind (Ends.get ?_)))
  have hQ := Module.additive_shallow levels
  refine fillBlock_keeps hQ (fun s hs => ?_) _ (.start hs hscope) (hQ.nil _)
  exact leads_dispatch (rebases_produces_and (Module.Shallow levels))
    (fun _ _ _ h => ⟨h.1.sound, h.imp_left (·.counted _)⟩)
    (fun op _ _ hs => variantWith_shallow harm hs scope op) hs

/-- Where `levels` levels are left a block is that deep at most. -/
theorem blockWith_shallow (levels : Nat) {scope : ScopeId} (hs : s.Sound c)
    (hscope : s.HasScope scope) : Ends (blockWith (arms levels) scope) c s
      (fun b s' => Fills c scope s b s' ∧ s'.code.Shallow levels b.stream.toList) (Stops c) := by
  induction levels generalizing s scope with
  | zero => exact blockWith_shallow_of_arms hs hscope nofun
  | succ levels ih =>
    refine blockWith_shallow_of_arms hs hscope ?_
    rintro _ heq fill hfill scope s hs hscope
    obtain rfl := Nat.succ.inj heq
    cases hfill
    exact ih hs hscope

/-- The blocks of functions have fewer levels than the configuration allows. -/
theorem keepsBlocks_shallow (hdepth : c.maxDepth ≠ 0) :
    KeepsBlocks ρ c (Module.Shallow (c.maxDepth - 1)) := by
  intro scope s hs hscope hinner
  refine Ends.bind (((levelsLeft_ends scope).and (levelsLeft_inner hdepth hinner)).mono ?_
    fun _ _ he => he.1)
  rintro levels s ⟨rfl, -, hlevels⟩
  exact (blockWith_shallow levels hs hscope).mono
    (fun _ _ h => h.imp_right (·.mono (Nat.le_sub_one_of_lt hlevels))) fun _ _ he => he

end Gen

/-! ### Counts of functions -/

namespace Module

variable {m : Module}

theorem mem_listing {stream : List InstrId} {x : InstrId × Instr} :
    x ∈ m.listing stream ↔ x.1 ∈ stream ∧ m.instrs[x.1.index]? = some x.2 := by
  obtain ⟨id, i⟩ := x
  simp only [listing, List.mem_filterMap, Option.map_eq_some_iff, Prod.mk.injEq]
  constructor
  · rintro ⟨_, hid, _, hi, rfl, rfl⟩
    exact ⟨hid, hi⟩
  · rintro ⟨hid, hi⟩
    exact ⟨id, hid, i, hi, rfl, rfl⟩

/-- A block opens no function. -/
theorem HasDepth.opcode_ne {depth : Nat} {stream : List InstrId} (h : m.HasDepth depth stream)
    {id : InstrId} (hid : id ∈ stream) :
    ∃ i, m.instrs[id.index]? = some i ∧ i.opcode ≠ .function := by
  induction h with
  | nil => cases hid
  | statement hi hop _ ih =>
    rcases List.mem_cons.mp hid with rfl | hid
    · refine ⟨_, hi, fun heq => ?_⟩
      rw [heq] at hop
      cases hop
    · exact ih hid
  | selection hmarkers _ _ _ ihyes ihno ih =>
    simp only [List.mem_append, List.mem_cons, List.not_mem_nil, or_false] at hid
    rcases hid with ((((((rfl | rfl | rfl) | hid) | rfl | rfl) | hid) | rfl | rfl) | hid)
    · exact ⟨_, hmarkers.header, nofun⟩
    · exact ⟨_, hmarkers.branch, nofun⟩
    · exact ⟨_, hmarkers.yes, nofun⟩
    · exact ihyes hid
    · exact ⟨_, hmarkers.yesExit, nofun⟩
    · exact ⟨_, hmarkers.no, nofun⟩
    · exact ihno hid
    · exact ⟨_, hmarkers.noExit, nofun⟩
    · exact ⟨_, hmarkers.merge, nofun⟩
    · exact ih hid

/-- The instructions that open functions. -/
def functionCount (m : Module) (stream : List InstrId) : Nat :=
  (m.listing stream).countP fun x => x.2.opcode == .function

theorem functionCount_append (a b : List InstrId) :
    m.functionCount (a ++ b) = m.functionCount a + m.functionCount b := by
  rw [functionCount, listing_append, List.countP_append]
  rfl

theorem functionCount_eq_zero {stream : List InstrId} (h : ∀ id ∈ stream, ∃ i,
    m.instrs[id.index]? = some i ∧ i.opcode ≠ .function) : m.functionCount stream = 0 := by
  rw [functionCount, List.countP_eq_zero]
  intro x hx
  obtain ⟨hid, hi⟩ := mem_listing.mp hx
  obtain ⟨i, hi', hne⟩ := h _ hid
  cases hi.symm.trans hi'
  simpa using hne

/-- A function is opened once. -/
theorem IsFunction.functionCount {ty : EntryId} {f : FunctionParts} (h : m.IsFunction ty f) :
    m.functionCount f.stream = 1 := by
  obtain ⟨r, tys, _, hopening, _⟩ := h.opens
  obtain ⟨_, hscoped⟩ := h.body
  obtain ⟨_, hbody⟩ := hscoped.hasDepth
  have hparams : m.functionCount f.params = 0 := functionCount_eq_zero fun id hid => by
    obtain ⟨_, hp⟩ := h.parameter hid
    exact ⟨_, hp, nofun⟩
  have hvars : m.functionCount (f.entry :: f.vars) = 0 := functionCount_eq_zero fun id hid => by
    rcases List.mem_cons.mp hid with rfl | hid
    · exact ⟨_, h.entry, nofun⟩
    · obtain ⟨i, hi, hop⟩ := h.vars id hid
      exact ⟨i, hi, by rw [hop]; nofun⟩
  have hlast : m.functionCount [f.ret, f.closing] = 0 := functionCount_eq_zero fun id hid => by
    simp only [List.mem_cons, List.not_mem_nil, or_false] at hid
    rcases hid with rfl | rfl
    · exact ⟨_, h.ret, nofun⟩
    · exact ⟨_, h.closing, nofun⟩
  have hfirst : m.functionCount [f.opening] = 1 := by
    simp [Module.functionCount, listing, hopening]
  have hstream : f.stream = [f.opening] ++ f.params ++ f.entry :: f.vars ++ f.body ++
    [f.ret, f.closing] := rfl
  rw [hstream, functionCount_append, functionCount_append, functionCount_append,
    functionCount_append, hfirst, hparams, hvars, functionCount_eq_zero fun _ => hbody.opcode_ne,
    hlast]

theorem functionCount_functions {fs : List FunctionParts} (h : ∀ f ∈ fs, ∃ ty, m.IsFunction ty f) :
    m.functionCount (fs.flatMap FunctionParts.stream) = fs.length := by
  induction fs with
  | nil => rfl
  | cons f fs ih =>
    obtain ⟨ty, hf⟩ := h f (by simp)
    rw [List.flatMap_cons, functionCount_append, hf.functionCount,
      ih fun f hf => h f (by simp [hf]), List.length_cons, Nat.add_comm]

end Module

/-! ### Finished shaders -/

/-- The counts of a shader made of functions whose selections nest to the given depths. The
open merge labels are followed from its first instruction on. -/
structure Shader.Counted (s : Shader) (fs : List FunctionParts) (depths : List Nat)
    (stats : Stats) : Prop where
  body : s.body.toList = fs.flatMap FunctionParts.stream
  functions : ∀ f ∈ fs, ∃ ty, s.code.IsFunction ty f
  nested : List.Forall₂ (fun f depth => s.code.HasDepth depth f.body) fs depths
  collected : Stats.collect s = .ok stats
  maxSelectionDepth : stats.maxSelectionDepth = depths.foldr max 0
  /-- No selection is open in front of a function, and none behind the last one. -/
  closed : ∀ fs', fs' <+: fs →
    Stats.openBehind [] (s.code.listing (fs'.flatMap FunctionParts.stream)) = []
  functionCount : stats.functions = s.code.functionCount s.body.toList ∧
    stats.functions = fs.length
  families : (Family.all.map stats.ofFamily).sum = s.body.size

theorem Module.exists_depths {m : Module} {fs : List FunctionParts}
    (h : ∀ f ∈ fs, ∃ ty, m.IsFunction ty f) :
    ∃ depths, List.Forall₂ (fun f depth => m.HasDepth depth f.body) fs depths :=
  exists_forall₂ fun f hf => by
    obtain ⟨_, hfun⟩ := h f hf
    obtain ⟨_, hscoped⟩ := hfun.body
    exact hscoped.hasDepth

/-- A shader that is made of functions can be counted. -/
theorem Shader.Assembled.counted {c : Config} {s : Shader} {fs : List FunctionParts}
    (hs : s.Assembled c fs) : ∃ depths stats, s.Counted fs depths stats := by
  obtain ⟨depths, hdepths⟩ := s.code.exists_depths hs.functions
  obtain ⟨stats, hcollect, hfunctions, hdepth, hfamilies, hlength⟩ := Stats.collect_eq_ok
    (s := s) fun id hid => ⟨_, Array.getElem?_eq_getElem (hs.occupies.mem_iff.mp hid).2⟩
  have hnodup := hs.occupies.nodup
  rw [hs.body] at hnodup
  refine ⟨depths, stats, hs.body, hs.functions, hdepths, hcollect, ?_, ?_, ?_, ?_⟩
  · rw [hdepth, hs.body]
    exact (Stats.Passes.functions hs.functions hdepths hnodup).peak
  · rintro fs' ⟨rest, rfl⟩
    have hfs' : ∀ f ∈ fs', ∃ ty, s.code.IsFunction ty f := fun f hf =>
      hs.functions f (List.mem_append_left _ hf)
    obtain ⟨_, hdepths'⟩ := s.code.exists_depths hfs'
    rw [List.flatMap_append] at hnodup
    exact (Stats.Passes.functions hfs' hdepths' hnodup.of_append_left).behind
  · refine ⟨hfunctions, ?_⟩
    rw [hfunctions, hs.body]
    exact s.code.functionCount_functions hs.functions
  · rw [hfamilies, Stats.sum_families, hlength]

/-- The header of a selection names its merge label. -/
theorem Module.Typed.openAfter {m : Module} {i : Instr} (h : m.Typed i)
    (hop : i.opcode = .selectionMerge) (opened : List InstrId) (id : InstrId) :
    ∃ merge, Stats.openAfter opened id i = merge :: opened := by
  obtain ⟨_, r, operands⟩ := i
  cases hop
  cases h with
  | apply _ h =>
    cases h with
    | convert _ _ _ _ h => cases h <;> contradiction
    | _ => contradiction
  | selectionMerge => exact ⟨_, rfl⟩

/-- What is open at most in a bounded shader is no more than its blocks were deep. -/
theorem Shader.Assembled.peak_le {c : Config} {s s' : Shader} {fs : List FunctionParts}
    {levels : Nat} (hs : s.Assembled c fs) (hfs : ∀ f ∈ fs, s.code.Shallow levels f.body)
    (h : DynamicIndex.Bounded s.code s'.code s.body.toList s'.body.toList) :
    Stats.peak [] (s'.code.listing s'.body.toList) ≤ levels := by
  obtain ⟨depths, hdepths⟩ := exists_forall₂ hfs
  have hnodup := hs.occupies.nodup
  have hpasses := Stats.Passes.functions hs.functions (hdepths.imp fun _ _ h => h.2)
    (hs.body ▸ hnodup)
  rw [← hs.body] at hpasses
  rw [(hpasses.bounded h fun id hid =>
    ⟨_, Array.getElem?_eq_getElem (hs.occupies.mem_iff.mp hid).2⟩).peak]
  refine List.max_le_of_forall_le depths levels fun depth hmem => ?_
  obtain ⟨_, _, hle, _⟩ := forall₂_exists_of_mem hdepths hmem
  exact hle

variable {ρ : Type} [RandomSource ρ] [BoundedRandomSource ρ]

/-- Selections nest less deep than the configuration says, and the counts of a shader tell how
deep: no header has more than `maxDepth - 2` selections open in front of it. -/
theorem Config.counted_of_shaderFrom {c : Config} {source : ρ} {s : Shader}
    (h : c.shaderFrom source = .ok s) : ∃ fs depths stats, s.Counted fs depths stats ∧
      (∀ depth ∈ depths, depth + 1 ≤ c.maxDepth) ∧
      ∀ before header rest i, s.body.toList = before ++ header :: rest →
        s.code.instrs[header.index]? = some i → i.opcode = .selectionMerge →
          (Stats.openBehind [] (s.code.listing before)).length + 2 ≤ c.maxDepth := by
  obtain ⟨hvalid, program, state, hrun, hfinish⟩ := shaderFrom_eq_ok.mp h
  have hdepth := c.maxDepth_ne_zero hvalid
  obtain ⟨-, fs₀, hprogram, hshallow, -⟩ := (Gen.program_keeps (Module.additive_shallow _)
    (Gen.keepsBlocks_shallow hdepth) (c.maxFunctions_ne_zero hvalid) source).of_run_ok hrun
  obtain ⟨fs, n, hs, -⟩ := hprogram.finish hfinish
  obtain ⟨depths, stats, hcounted⟩ := hs.counted
  have hpeak := hprogram.peak_le hshallow (hprogram.finish_bounded hfinish)
  refine ⟨fs, depths, stats, hcounted, fun depth hmem => ?_, ?_⟩
  · have hle : depth ≤ depths.foldr max 0 := List.le_max_of_le' 0 hmem (Nat.le_refl depth)
    rw [hcounted.body, (Stats.Passes.functions hs.functions hcounted.nested
      (hcounted.body ▸ hs.occupies.nodup)).peak] at hpeak
    omega
  · intro before header rest i hbody hi hop
    obtain ⟨merge, hopen⟩ := (hs.typed hi).openAfter hop
      (Stats.openBehind [] (s.code.listing before)) header
    rw [hbody, Module.listing_append, Module.listing_cons hi, Stats.peak_append, Stats.peak_cons,
      hopen] at hpeak
    have hlength := Stats.length_le_peak (merge :: Stats.openBehind [] (s.code.listing before))
      (s.code.listing rest)
    rw [List.length_cons] at hlength
    omega

theorem Config.counted_small : ∃ s, small.shaderFrom Script.selection = .ok s ∧
    ∃ fs depths stats, s.Counted fs depths stats ∧
      (∀ depth ∈ depths, depth + 1 ≤ small.maxDepth) ∧
      ∀ before header rest i, s.body.toList = before ++ header :: rest →
        s.code.instrs[header.index]? = some i → i.opcode = .selectionMerge →
          (Stats.openBehind [] (s.code.listing before)).length + 2 ≤ small.maxDepth := by
  obtain ⟨s, hs, _⟩ := small_shaderFrom
  exact ⟨s, hs, counted_of_shaderFrom hs⟩

end ShaderGen
