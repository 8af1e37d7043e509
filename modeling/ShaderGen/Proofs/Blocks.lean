import ShaderGen.Generator.Nesting
import ShaderGen.Proofs.Composites
import ShaderGen.Proofs.Conversions
import ShaderGen.Proofs.Extended
import ShaderGen.Proofs.Linear

/-!
Blocks and the selections between them. `Fills` is to a scope and its block what
`Produces` is to a statement; a block is filled production by production, so it
is kept round by round. An arm fills a new scope, from which the same is visible
as from the scope of the selection, and what the arm declares stays in it. The
number of levels left carries the induction that ties blocks and selections
together. A block is never infeasible: it ends where its next statement is.
-/

namespace ShaderGen

variable {ρ : Type} {c : Config} {s s' : State ρ} {scope : ScopeId}

/-- A session has a scope. -/
def State.HasScope (s : State ρ) (scope : ScopeId) : Prop := ∃ x, s.scopes.get? scope = some x

theorem State.HasScope.mono (h : s.HasScope scope) (hle : s.scopes ≤ s'.scopes) :
    s'.HasScope scope := by
  obtain ⟨x, hx⟩ := h
  exact ⟨x, hle hx⟩

/-- A scope, if it is there, is below another one. -/
def State.Inner (s : State ρ) (scope : ScopeId) : Prop :=
  ∀ x, s.scopes.get? scope = some x → 0 < x.depth

/-! ### Scopes of a session -/

/-- A state follows another by declaring statements in a scope. -/
structure Declares (c : Config) (scope : ScopeId) (s : State ρ) (ids : List InstrId)
    (s' : State ρ) : Prop where
  sound : s'.Sound c
  code : s'.code = s.code
  scopes : ScopeTree.SameOff scope s.scopes s'.scopes
  present : s.HasScope scope → s'.HasScope scope
  visible : ∀ d ∈ s'.scopes.visible scope, d ∈ s.scopes.visible scope ∨ d ∈ ids

/-- A state follows another by opening a scope below another one. -/
structure Opens (c : Config) (parent : ScopeId) (s : State ρ) (child : ScopeId) (s' : State ρ) :
    Prop where
  sound : s'.Sound c
  code : s'.code = s.code
  scopes : s.scopes ≤ s'.scopes
  fresh : s.scopes.get? child = none
  above : s.HasScope parent
  present : s'.HasScope child
  visible : ∀ d, d ∈ s'.scopes.visible child ↔ d ∈ s.scopes.visible parent

/-- Only the tree of scopes matters to the invariant when scopes change. -/
theorem State.Sound.withScopes (hs : s.Sound c) {t : ScopeTree} (ht : t.WellFormed) :
    State.Sound c { s with scopes := t } :=
  ⟨hs.table, hs.typed, ht, hs.annotated, hs.listed, hs.few⟩

namespace Gen

theorem childScope_steadily (hs : s.Sound c) (parent : ScopeId) (function : Option InstrId) :
    Ends (childScope parent function) c s (fun child s' => Opens c parent s child s')
      (Stops c) := by
  refine Ends.bind (Ends.get ?_)
  split
  · exact hs
  · rename_i child t hchild
    refine Ends.bind (Ends.modify (Ends.pure ?_))
    obtain ⟨x, hx, _⟩ := ScopeTree.get?_child hchild
    exact ⟨hs.withScopes (hs.scopes.child? hchild), rfl, ScopeTree.le_of_child? hchild,
      ScopeTree.child_fresh hchild, ScopeTree.get?_parent hchild, ⟨x, hx⟩,
      fun d => ScopeTree.mem_visible_child hchild hs.scopes⟩

theorem childScope_inner (parent : ScopeId) (function : Option InstrId) (s : State ρ) :
    Ends (childScope parent function) c s (fun scope s' => s'.Inner scope) fun _ _ => True := by
  refine .bind (.get ?_)
  cases hchild : s.scopes.child? parent function with
  | none => exact .fault trivial
  | some made =>
    obtain ⟨child, t⟩ := made
    obtain ⟨p, -, heq⟩ := Option.map_eq_some_iff.mp hchild
    obtain ⟨rfl, rfl⟩ := Prod.mk.inj heq
    refine .bind (.modify (.pure fun x hx => ?_))
    simp only [ScopeTree.get?, Array.getElem?_push_size, Option.some.injEq] at hx
    rw [← hx]
    exact Nat.succ_pos _

/-- An inner scope has fewer levels of selections left than the configuration allows. -/
theorem levelsLeft_inner (hdepth : c.maxDepth ≠ 0) (hs : s.Inner scope) :
    Ends (levelsLeft scope) c s (fun levels s' => s' = s ∧ levels < c.maxDepth)
      fun _ _ => True := by
  refine .bind (.get ?_)
  split
  · rename_i x hx
    have := hs x hx
    exact .bind (.read (.pure ⟨rfl, by omega⟩))
  · exact .pure ⟨rfl, Nat.pos_of_ne_zero hdepth⟩

theorem scopeAt_steadily (hs : s.Sound c) (scope : ScopeId) :
    Ends (scopeAt scope) c s (fun _ s' => s' = s ∧ s.HasScope scope) (Stops c) := by
  refine Ends.ask (fun x hx => ⟨rfl, ?_⟩) fun _ => hs
  split at hx
  · exact ⟨_, ‹_›⟩
  · cases hx

theorem declare_steadily (hs : s.Sound c) (scope : ScopeId) (id : InstrId) :
    Ends (declare scope id) c s (fun _ s' => Declares c scope s [id] s') (Stops c) := by
  refine (scopeAt_steadily hs scope).seq ?_
  rintro _ s ⟨rfl, x, hx⟩
  refine Ends.modify ⟨hs.withScopes (hs.scopes.declare id), rfl, ScopeTree.sameOff_declare id,
    fun _ => ScopeTree.get?_declare_self id hx, fun d hd => ?_⟩
  exact ((ScopeTree.mem_visible_declare hs.scopes hx).mp hd).symm.imp_right List.mem_singleton.mpr

theorem declareAll_steadily (hs : s.Sound c) (scope : ScopeId) (ids : List InstrId) :
    Ends (ids.forM (declare scope)) c s (fun _ s' => Declares c scope s ids s') (Stops c) := by
  induction ids generalizing s with
  | nil => exact Ends.pure ⟨hs, rfl, .of_le (le_refl _), id, fun d hd => .inl hd⟩
  | cons id ids ih =>
    refine (declare_steadily hs scope id).seq fun _ s₁ h₁ => ?_
    refine (ih h₁.sound).mono (fun _ s₂ h₂ => ?_) fun _ _ he => he
    refine ⟨h₂.sound, h₂.code.trans h₁.code, h₁.scopes.trans h₂.scopes, h₂.present ∘ h₁.present,
      fun d hd => ?_⟩
    rcases h₂.visible d hd with hd | hd
    · exact (h₁.visible d hd).imp_right fun h => by simp [List.mem_singleton.mp h]
    · exact .inr (List.mem_cons_of_mem _ hd)

end Gen

/-! ### Filling a scope -/

/-- What filling a scope adds to a session. -/
structure Fills (c : Config) (scope : ScopeId) (s : State ρ) (b : Block) (s' : State ρ) :
    Prop where
  sound : s'.Sound c
  grows : s.code.Extends s'.code
  scopes : ScopeTree.SameOff scope s.scopes s'.scopes
  present : s'.HasScope scope
  occupies : Occupies (b.stream.toList ++ b.hoisted.toList) s.code.instrs.size s'.code.instrs.size
  hoisted : ∀ v ∈ b.hoisted.toList, s'.code.IsVariable v
  /-- All that the scope shows was visible before or is defined by the block. -/
  nested : ∃ defs, s'.code.Scoped
    (fun d => d ∈ s.scopes.visible scope ∨ d ∈ b.hoisted.toList) b.stream.toList defs ∧
      ∀ d ∈ s'.scopes.visible scope,
        (d ∈ s.scopes.visible scope ∨ d ∈ b.hoisted.toList) ∨ d ∈ defs

namespace Fills

variable {b : Block} {s₀ s₁ s₂ s₃ : State ρ}

theorem start (hs : s.Sound c) (h : s.HasScope scope) : Fills c scope s {} s where
  sound := hs
  grows := .refl _
  scopes := .of_le (le_refl _)
  present := h
  occupies := .nil _
  hoisted := by simp
  nested := ⟨[], .nil, fun d hd => .inl (.inl hd)⟩

theorem quiet (h : Fills c scope s₀ b s) (q : Quiet c s s') : Fills c scope s₀ b s' where
  sound := q.sound
  grows := h.grows.trans q.grows
  scopes := by rw [q.scopes]; exact h.scopes
  present := h.present.mono (by rw [q.scopes])
  occupies := by rw [q.instrs]; exact h.occupies
  hoisted := fun v hv => (h.hoisted v hv).grow q.grows
  nested := by
    obtain ⟨defs, hscoped, hvisible⟩ := h.nested
    exact ⟨defs, hscoped.grow q.grows, by rwa [q.scopes]⟩

/-- The next production of a block, with what it makes visible declared. -/
theorem append {p : Production} (h : Fills c scope s₀ b s₁) (hp : Produces c scope s₁ p s₂)
    (hd : Declares c scope s₂ p.visible s₃) : Fills c scope s₀
      { stream := b.stream ++ p.stream, hoisted := b.hoisted ++ p.hoisted } s₃ where
  sound := hd.sound
  grows := by rw [hd.code]; exact h.grows.trans hp.grows
  scopes := h.scopes.trans ((ScopeTree.SameOff.of_le hp.scopes).trans hd.scopes)
  present := hd.present (h.present.mono hp.scopes)
  occupies := by
    rw [hd.code]
    refine (h.occupies.append hp.occupies h.grows.size_le hp.grows.size_le).perm ?_
    simp only [Array.toList_appendList, List.append_assoc]
    exact List.Perm.append_left _ (List.perm_append_comm_assoc ..)
  hoisted := by
    rw [hd.code]
    intro v hv
    rcases List.mem_append.mp (Array.toList_appendList ▸ hv) with hv | hv
    · exact (h.hoisted v hv).grow hp.grows
    · exact hp.hoisted v hv
  nested := by
    obtain ⟨defs, hscoped, hvisible⟩ := h.nested
    obtain ⟨new, hscoped', hvisible'⟩ := hp.nested
    obtain ⟨x, hx⟩ := h.present
    have hsame {d : InstrId} : d ∈ s₂.scopes.visible scope ↔ d ∈ s₁.scopes.visible scope :=
      ScopeTree.mem_visible_of_le h.sound.scopes hp.sound.scopes hp.scopes hx
    rw [hd.code]
    simp only [Array.toList_appendList, List.mem_append]
    -- What the production reads was visible in front of it, so it is known or defined by now.
    refine ⟨defs ++ new, ((hscoped.grow hp.grows).mono (fun _ _ _ hi => hi) ?_).append
      (hscoped'.mono (fun _ _ _ hi => hi) ?_), ?_⟩
    · exact fun d hd => hd.imp_right .inl
    · rintro d (hd | hd)
      · exact (hvisible d hd).imp_left fun h => h.imp_right .inl
      · exact .inl (.inr (.inr hd))
    · intro d hshown
      rcases hd.visible d hshown with hshown | hshown
      · rcases hvisible d (hsame.mp hshown) with (h | h) | h <;> simp [h]
      · rcases hvisible' d hshown with h | h <;> simp [h]

end Fills

namespace Gen

variable [RandomSource ρ]

/-- A block has whatever property its statements have, if streams that follow each other
have it together. -/
theorem fillBlock_keeps {Q : Module → List InstrId → Prop} (hQ : Module.Additive Q)
    {statement : Gen ρ Production} (hst : ∀ s : State ρ, s.Sound c → Leads c s statement
      fun s p s' => Produces c scope s p s' ∧ Q s'.code p.stream) {s₀ : State ρ} (rounds : Nat)
    {b : Block} (h : Fills c scope s₀ b s) (hb : Q s.code b.stream.toList) :
    Ends (fillBlock statement scope rounds b) c s
      (fun b s' => Fills c scope s₀ b s' ∧ Q s'.code b.stream.toList) (Stops c) := by
  induction rounds generalizing s b with
  | zero => exact h.sound
  | succ rounds ih =>
    refine Ends.bind (Ends.read (Ends.bind ?_))
    refine (chance_steadily h.sound _).mono (fun again s₁ q₁ => ?_) fun _ _ he => he
    have h₁ := h.quiet q₁
    have hb₁ := hQ.grow q₁.grows hb
    split_ifs
    · refine Ends.bind (Ends.attempt (Ends.mono (hst s₁ h₁.sound) ?_ ?_))
      · rintro p s₂ ⟨hp, hpQ⟩
        refine Ends.bind (Ends.bind ?_)
        refine (declareAll_steadily hp.sound scope p.visible).mono ?_ fun _ _ he => he
        refine fun _ s₃ hd => ih (h₁.append hp hd) ?_
        rw [hd.code, Array.toList_appendList]
        exact hQ.append (hQ.grow hp.grows hb₁) hpQ
      · rintro (_ | cause) s₂ he
        · exact ⟨h₁.quiet he, hQ.grow he.grows hb₁⟩
        · exact he
    · exact ⟨h₁, hb₁⟩

theorem fillBlock_steadily {statement : Gen ρ Production}
    (hst : ∀ s : State ρ, s.Sound c → Leads c s statement (Produces c scope)) {s₀ : State ρ}
    (rounds : Nat) {b : Block} (h : Fills c scope s₀ b s) :
    Ends (fillBlock statement scope rounds b) c s (Fills c scope s₀) (Stops c) :=
  (fillBlock_keeps .trivial (fun s hs => Ends.mono (hst s hs) (fun _ _ hp => ⟨hp, ⟨⟩⟩)
    fun _ _ he => he) rounds h ⟨⟩).mono (fun _ _ h => h.1) fun _ _ he => he

end Gen

/-! ### Selections -/

/-- What an arm of a selection adds to a session, seen from the scope of the
selection. -/
structure Nests (c : Config) (scope : ScopeId) (s : State ρ) (b : Block) (s' : State ρ) :
    Prop where
  sound : s'.Sound c
  grows : s.code.Extends s'.code
  scopes : s.scopes ≤ s'.scopes
  occupies : Occupies (b.stream.toList ++ b.hoisted.toList) s.code.instrs.size s'.code.instrs.size
  hoisted : ∀ v ∈ b.hoisted.toList, s'.code.IsVariable v
  nested : ∃ defs, s'.code.Scoped
    (fun d => d ∈ s.scopes.visible scope ∨ d ∈ b.hoisted.toList) b.stream.toList defs

/-- The scope of an arm was not there before, so filling it changes no scope that
was. -/
theorem Fills.nests {child : ScopeId} {s₁ : State ρ} {b : Block} (hf : Fills c child s₁ b s')
    (ho : Opens c scope s child s₁) : Nests c scope s b s' where
  sound := hf.sound
  grows := by rw [← ho.code]; exact hf.grows
  scopes := by
    intro r x hr
    refine hf.scopes ?_ (ho.scopes hr)
    rintro rfl
    rw [ho.fresh] at hr
    cases hr
  occupies := by rw [← ho.code]; exact hf.occupies
  hoisted := hf.hoisted
  nested := by
    obtain ⟨defs, hscoped, _⟩ := hf.nested
    exact ⟨defs, hscoped.mono (fun _ _ _ hi => hi) fun d hd => hd.imp_left (ho.visible d).mp⟩

theorem Allocates.isLabel {id : InstrId} (h : Allocates c s { opcode := .label } id s') :
    s'.code.IsLabel id := ⟨_, h.instr, rfl⟩

section Selection

variable {condition : Value} {header branch merge yes no yesExit noExit : InstrId}

/-- What the markers of a selection add to a session. -/
structure Marks (c : Config) (s : State ρ) (condition : Value)
    (header branch merge yes no yesExit noExit : InstrId) (s' : State ρ) : Prop where
  sound : s'.Sound c
  grows : s.code.Extends s'.code
  scopes : s'.scopes = s.scopes
  occupies : Occupies [merge, yes, no, header, branch, yesExit, noExit] s.code.instrs.size
    s'.code.instrs.size
  markers : s'.code.Markers condition header branch merge yes no yesExit noExit

/-- The labels are put first, then the header with its branch, and the exits last. -/
theorem Marks.of_allocates {s₁ s₂ s₃ s₄ s₅ s₆ s₇ : State ρ}
    (h₁ : Allocates c s { opcode := .label } merge s₁)
    (h₂ : Allocates c s₁ { opcode := .label } yes s₂)
    (h₃ : Allocates c s₂ { opcode := .label } no s₃)
    (h₄ : Allocates c s₃ ⟨.selectionMerge, none, [.instr merge, .keyword "None"]⟩ header s₄)
    (h₅ : Allocates c s₄ ⟨.branchConditional, none, [.value condition, .instr yes, .instr no]⟩
      branch s₅)
    (h₆ : Allocates c s₅ ⟨.branch, none, [.instr merge]⟩ yesExit s₆)
    (h₇ : Allocates c s₆ ⟨.branch, none, [.instr merge]⟩ noExit s₇) :
    Marks c s condition header branch merge yes no yesExit noExit s₇ := by
  -- `gₖ`: what was there after step `k` is there at the end
  have g₆ := h₇.grows
  have g₅ := h₆.grows.trans g₆
  have g₄ := h₅.grows.trans g₅
  have g₃ := h₄.grows.trans g₄
  have g₂ := h₃.grows.trans g₃
  have g₁ := h₂.grows.trans g₂
  exact {
    sound := h₇.sound
    grows := h₁.grows.trans g₁
    scopes := by
      rw [h₇.scopes, h₆.scopes, h₅.scopes, h₄.scopes, h₃.scopes, h₂.scopes, h₁.scopes]
    occupies := by
      have hsize₁ := h₁.size
      have hsize₂ := h₂.size
      have hsize₃ := h₃.size
      have hsize₄ := h₄.size
      have hsize₅ := h₅.size
      have hsize₆ := h₆.size
      refine h₇.occupies (h₆.occupies (h₅.occupies (h₄.occupies (h₃.occupies (h₂.occupies
        (h₁.occupies (.nil _) (Nat.le_refl _)) ?_) ?_) ?_) ?_) ?_) ?_
      all_goals omega
    markers := ⟨g₄.instr h₄.instr, g₅.instr h₅.instr, g₂.instr h₂.instr, g₆.instr h₆.instr,
      g₃.instr h₃.instr, h₇.instr, g₁.instr h₁.instr⟩ }

/-- Two arms and the markers around them make a selection. -/
theorem Produces.selection {yesBlock noBlock : Block} {s₁ s₂ : State ρ} (hs : s.Sound c)
    (hscope : s.HasScope scope) (hcondition : s.Reads scope condition)
    (hyes : Nests c scope s yesBlock s₁) (hno : Nests c scope s₁ noBlock s₂)
    (h : Marks c s₂ condition header branch merge yes no yesExit noExit s') :
    Produces c scope s {
      stream := [header, branch, yes] ++ yesBlock.stream.toList ++ [yesExit, no] ++
        noBlock.stream.toList ++ [noExit, merge]
      hoisted := yesBlock.hoisted.toList ++ noBlock.hoisted.toList } s' := by
  have hgrows := hno.grows.trans h.grows
  refine ⟨h.sound, hyes.grows.trans hgrows, ?_, ?_, fun v hv => ?_, ?_⟩
  · rw [h.scopes]
    exact hyes.scopes.trans hno.scopes
  · have harms := hyes.occupies.append hno.occupies hyes.grows.size_le hno.grows.size_le
    have hall := harms.append h.occupies (hyes.grows.trans hno.grows).size_le h.grows.size_le
    -- the slots are filled in another order than that of the stream
    refine hall.perm (List.perm_iff_count.mpr fun id => ?_)
    simp only [List.count_append, List.count_cons, List.count_nil]
    omega
  · rcases List.mem_append.mp hv with hv | hv
    · exact (hyes.hoisted v hv).grow hgrows
    · exact (hno.hoisted v hv).grow h.grows
  · obtain ⟨yesDefs, hyesArm⟩ := hyes.nested
    obtain ⟨noDefs, hnoArm⟩ := hno.nested
    obtain ⟨x, hx⟩ := hscope
    have hsame {d : InstrId} : d ∈ s₁.scopes.visible scope ↔ d ∈ s.scopes.visible scope :=
      ScopeTree.mem_visible_of_le hs.scopes hyes.sound.scopes hyes.scopes hx
    refine ⟨[], ?_, by simp⟩
    have hscoped : s'.code.Scoped (fun d => d ∈ s.scopes.visible scope ∨
        d ∈ yesBlock.hoisted.toList ++ noBlock.hoisted.toList) _ _ := .selection
      h.markers.header h.markers.branch (fun d hd => .inl (hcondition d hd)) h.markers.yes
      ((hyesArm.grow hgrows).mono (fun _ _ _ hi => hi) fun d hd =>
        hd.imp_right fun h => List.mem_append_left _ h)
      h.markers.yesExit h.markers.no
      ((hnoArm.grow h.grows).mono (fun _ _ _ hi => hi) fun d hd =>
        hd.imp hsame.mp fun h => List.mem_append_right _ h)
      h.markers.noExit h.markers.merge .nil
    simpa only [List.append_nil] using hscoped

end Selection

namespace Gen

variable [RandomSource ρ] [BoundedRandomSource ρ] {arm : Option (ScopeId → Gen ρ Block)}

/-- The arms of selections, where there are any, fill the scopes they are given. -/
def FillsArms (c : Config) (arm : Option (ScopeId → Gen ρ Block)) : Prop :=
  ∀ fill, arm = some fill → ∀ scope (s : State ρ), s.Sound c → s.HasScope scope →
    Ends (fill scope) c s (Fills c scope s) (Stops c)

/-- They do, and the streams they give have a property. -/
def KeepsArms (c : Config) (Q : Module → List InstrId → Prop)
    (arm : Option (ScopeId → Gen ρ Block)) : Prop :=
  ∀ fill, arm = some fill → ∀ scope (s : State ρ), s.Sound c → s.HasScope scope →
    Ends (fill scope) c s (fun b s' => Fills c scope s b s' ∧ Q s'.code b.stream.toList) (Stops c)

omit [RandomSource ρ] [BoundedRandomSource ρ] in
/-- What is known of a production besides concerns the state behind it only. -/
theorem rebases_produces_and (Q : Module → List InstrId → Prop) : Rebases (ρ := ρ) c
    fun s p s' => Produces c scope s p s' ∧ Q s'.code p.stream :=
  fun _ _ _ _ q h => ⟨rebases_produces q h.1, h.2⟩

omit [BoundedRandomSource ρ] in
/-- The arms of a selection have the property that blocks have. -/
theorem selection_keeps {Q : Module → List InstrId → Prop} (hQ : Module.Additive Q)
    (harm : KeepsArms c Q arm) (hs : s.Sound c) (scope : ScopeId) :
    Leads c s (selection arm scope) fun s p s' =>
      Produces c scope s p s' ∧ s'.code.IsSelection (Q s'.code) p.stream := by
  have hR : Rebases (ρ := ρ) c fun s p s' =>
      Produces c scope s p s' ∧ s'.code.IsSelection (Q s'.code) p.stream :=
    rebases_produces_and fun m => m.IsSelection (Q m)
  refine Ends.bind ((scopeAt_steadily hs scope).mono ?_ fun _ _ he => he.halts)
  rintro _ s ⟨rfl, hscope⟩
  refine (Quietly.require (fun fill _ => arm = some fill) hs fun _ h => h).lead hR ?_
  intro fill s₀ q₀ hfill
  refine (operand_quietly q₀.sound scope _).lead hR ?_
  rintro condition s₁ q₁ ⟨ty, hc, htest, hreads⟩
  have hbool := Predicate.isType_of_bool htest
  have hscope : s₁.HasScope scope := hscope.mono (by rw [q₁.scopes, q₀.scopes])
  -- from here on nothing is infeasible
  refine Ends.mono (?_ : Ends _ c s₁ (fun p s' => Produces c scope s₁ p s' ∧
    s'.code.IsSelection (Q s'.code) p.stream) (Stops c)) (fun _ _ h => h) fun _ _ he => he.halts
  refine (childScope_steadily q₁.sound scope none).seq ?_
  intro yesScope s₂ ho
  refine (harm fill hfill yesScope s₂ ho.sound ho.present).seq ?_
  rintro yesBlock s₃ ⟨hf, hyesQ⟩
  have hyes := hf.nests ho
  refine (childScope_steadily hyes.sound scope none).seq ?_
  intro noScope s₄ ho'
  refine (harm fill hfill noScope s₄ ho'.sound ho'.present).seq ?_
  rintro noBlock s₅ ⟨hf', hnoQ⟩
  have hno := hf'.nests ho'
  refine (alloc_steadily hno.sound .label).seq ?_
  intro merge s₆ h₆
  refine (alloc_steadily h₆.sound .label).seq ?_
  intro yes s₇ h₇
  refine (alloc_steadily h₇.sound .label).seq ?_
  intro no s₈ h₈
  have hmerge := h₆.isLabel.mono (h₇.grows.trans h₈.grows).le
  refine (alloc_steadily h₈.sound (.selectionMerge hmerge)).seq ?_
  intro header s₉ h₉
  have hlater := (hyes.grows.trans (hno.grows.trans (h₆.grows.trans (h₇.grows.trans
    (h₈.grows.trans h₉.grows))))).le
  have hbranch := Module.Typed.branchConditional (hc.mono hlater) (hlater.table hbool)
    (h₇.isLabel.mono (h₈.grows.trans h₉.grows).le) (h₈.isLabel.mono h₉.grows.le)
  refine (alloc_steadily h₉.sound hbranch).seq ?_
  intro branch s₁₀ h₁₀
  replace hmerge := hmerge.mono (h₉.grows.trans h₁₀.grows).le
  refine (alloc_steadily h₁₀.sound (.branch hmerge)).seq ?_
  intro yesExit s₁₁ h₁₁
  refine (alloc_steadily h₁₁.sound (.branch (hmerge.mono h₁₁.grows.le))).seq ?_
  intro noExit s₁₂ h₁₂
  have hmarks := Marks.of_allocates h₆ h₇ h₈ h₉ h₁₀ h₁₁ h₁₂
  exact ⟨.selection q₁.sound hscope hreads hyes hno hmarks, condition, header, branch, merge, yes,
    no, yesExit, noExit, _, _, hmarks.markers, hQ.grow (hno.grows.trans hmarks.grows) hyesQ,
    hQ.grow hmarks.grows hnoQ, rfl⟩

omit [BoundedRandomSource ρ] in
theorem selection_leads (harm : FillsArms c arm) (hs : s.Sound c) (scope : ScopeId) :
    Leads c s (selection arm scope) (Produces c scope) := by
  have harm' : KeepsArms c (fun _ _ => True) arm := fun fill hfill scope s hs hscope =>
    (harm fill hfill scope s hs hscope).mono (fun _ _ h => ⟨h, ⟨⟩⟩) fun _ _ he => he
  exact Ends.mono (selection_keeps .trivial harm' hs scope) (fun _ _ h => h.1) fun _ _ he => he

/-! ### Statements of any kind -/

theorem mem_of_shift {op : Opcode} (h : op.recipe? = some .shift) :
    op ∈ [.shiftRightLogical, .shiftRightArithmetic, .shiftLeftLogical] := by
  cases op <;> cases h <;> decide

theorem mem_of_reduceBool {op : Opcode} (h : op.recipe? = some .reduceBool) :
    op ∈ [.any, .all] := by
  cases op <;> cases h <;> decide

theorem mem_of_floatTest {op : Opcode} (h : op.recipe? = some .floatTest) :
    op ∈ [.isNan, .isInf] := by
  cases op <;> cases h <;> decide

theorem variantWith_leads (harm : FillsArms c arm) (hs : s.Sound c) (scope : ScopeId)
    (op : Opcode) : Leads c s (variantWith arm scope op) (Produces c scope) := by
  unfold variantWith
  cases hop : op.recipe? with
  | none => exact hs
  | some recipe =>
    cases recipe with
    | localVariable => exact localVariable_leads hs scope
    | load => exact load_leads hs scope
    | store => exact store_leads hs scope
    | accessChain => exact accessChain_leads hs scope
    | unary test => exact unary_leads hs scope hop
    | binary test => exact binary_leads hs scope hop
    | shift => exact shift_leads hs scope (mem_of_shift hop)
    | reduceBool => exact reduceBool_leads hs scope (mem_of_reduceBool hop)
    | floatTest => exact floatTest_leads hs scope (mem_of_floatTest hop)
    | compare test => exact compare_leads hs scope hop
    | select => exact select_leads hs scope
    | timesScalar test => exact timesScalar_leads hs scope hop
    | vectorTimesMatrix => exact vectorTimesMatrix_leads hs scope
    | matrixTimesVector => exact matrixTimesVector_leads hs scope
    | matrixTimesMatrix => exact matrixTimesMatrix_leads hs scope
    | outerProduct => exact outerProduct_leads hs scope
    | dot => exact dot_leads hs scope
    | conversion => exact conversion_leads hs scope op
    | extractDynamic => exact extractDynamic_leads hs scope
    | insertDynamic => exact insertDynamic_leads hs scope
    | shuffle => exact shuffle_leads hs scope
    | construct => exact construct_leads hs scope
    | extract => exact extract_leads hs scope
    | insert => exact insert_leads hs scope
    | transpose => exact transpose_leads hs scope
    | extended => exact extended_leads hs scope
    | selection => exact selection_leads harm hs scope

theorem statementWith_leads (harm : FillsArms c arm) (hs : s.Sound c) (scope : ScopeId) :
    Leads c s (statementWith arm scope) (Produces c scope) :=
  leads_dispatch rebases_produces (fun _ _ _ h => ⟨h.sound, h.counted _⟩)
    (fun op _ _ hs => variantWith_leads harm hs scope op) hs

/-! ### Levels -/

theorem blockWith_steadily (harm : FillsArms c arm) (hs : s.Sound c) (hscope : s.HasScope scope) :
    Ends (blockWith arm scope) c s (Fills c scope s) (Stops c) :=
  Ends.bind (Ends.read (Ends.bind (Ends.get
    (fillBlock_steadily (fun _ hs => statementWith_leads harm hs scope) _ (.start hs hscope)))))

theorem fillsArms (levels : Nat) : FillsArms c (arms (ρ := ρ) levels) := by
  induction levels with
  | zero => exact fun _ h => by cases h
  | succ levels ih =>
    intro fill hfill scope s hs hscope
    cases hfill
    exact blockWith_steadily ih hs hscope

omit [RandomSource ρ] [BoundedRandomSource ρ] in
theorem levelsLeft_ends (scope : ScopeId) :
    Ends (levelsLeft scope) c s (fun _ s' => s' = s) (Stops c) := by
  refine Ends.bind (Ends.get ?_)
  split
  · exact Ends.bind (Ends.read (Ends.pure rfl))
  · exact Ends.pure rfl

/-- A block fills its scope. -/
theorem block_steadily (hs : s.Sound c) (hscope : s.HasScope scope) :
    Ends (block scope) c s (Fills c scope s) (Stops c) := by
  refine (levelsLeft_ends scope).seq ?_
  rintro levels s rfl
  exact blockWith_steadily (fillsArms levels) hs hscope

/-- A statement of one kind. -/
theorem variant_leads (hs : s.Sound c) (scope : ScopeId) (op : Opcode) :
    Leads c s (variant scope op) (Produces c scope) := by
  refine Ends.bind ((levelsLeft_ends scope).mono ?_ fun _ _ he => he.halts)
  rintro levels s rfl
  exact variantWith_leads (fillsArms levels) hs scope op

/-- A statement of any kind. -/
theorem statement_leads (hs : s.Sound c) (scope : ScopeId) :
    Leads c s (statement scope) (Produces c scope) := by
  refine Ends.bind ((levelsLeft_ends scope).mono ?_ fun _ _ he => he.halts)
  rintro levels s rfl
  exact statementWith_leads (fillsArms levels) hs scope

end Gen

end ShaderGen
