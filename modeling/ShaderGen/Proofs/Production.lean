import ShaderGen.Proofs.Operands

/-!
What producing a statement does. `Produces` is the relation every routine keeps:
the instructions that are new are exactly those of the production, the stream is
scoped given what is visible and the variables to hoist, and what becomes visible
is defined by the stream or hoisted. Most routines search and intern and then
`emit` one instruction, for which a typing rule is all there is to show.
-/

namespace ShaderGen

variable {ρ : Type} {c : Config} {s s' : State ρ} {scope : ScopeId}

/-! ### New instructions -/

/-- A state follows another by adding an instruction to the arena. -/
structure Allocates (c : Config) (s : State ρ) (i : Instr) (id : InstrId) (s' : State ρ) :
    Prop where
  sound : s'.Sound c
  grows : s.code.Extends s'.code
  scopes : s'.scopes = s.scopes
  slot : id.index = s.code.instrs.size
  size : s'.code.instrs.size = s.code.instrs.size + 1
  instr : s'.code.instrs[id.index]? = some i

/-- One more instruction behind those that fill the arena. -/
theorem Allocates.occupies {i : Instr} {id : InstrId} (h : Allocates c s i id s')
    {ids : List InstrId} {n : Nat} (ho : Occupies ids n s.code.instrs.size)
    (hn : n ≤ s.code.instrs.size) : Occupies (ids ++ [id]) n s'.code.instrs.size := by
  obtain ⟨k⟩ := id
  obtain rfl : k = s.code.instrs.size := h.slot
  rw [h.size]
  exact ho.append (.single _) hn (Nat.le_succ _)

namespace Module

theorem extends_alloc (m : Module) (i : Instr) : m.Extends (m.alloc i).2 := by
  have hinstr : ∀ {k : Nat} {j : Instr}, m.instrs[k]? = some j →
      (m.instrs.push i)[k]? = some j := by
    intro k j hj
    have hlt := (Array.getElem?_eq_some_iff.mp hj).1
    rw [Array.getElem?_push, if_neg (by omega)]
    exact hj
  exact ⟨⟨le_refl _, fun hj => ⟨_, hinstr hj, rfl, rfl⟩, fun hn => hn⟩, hinstr⟩

end Module

theorem State.Sound.alloc (hs : s.Sound c) {i : Instr} (hi : s.code.Typed i) :
    State.Sound c { s with code := (s.code.alloc i).2 } where
  table := hs.table
  typed := by
    intro k j hj
    have hle := (s.code.extends_alloc i).le
    simp only [Module.alloc, Array.getElem?_push] at hj
    split at hj
    · cases hj
      exact hi.mono hle
    · exact (hs.typed hj).mono hle
  scopes := hs.scopes
  annotated := hs.annotated
  listed := hs.listed
  few := hs.few

namespace Gen

/-- An instruction that keeps its typing rule can be added. -/
theorem alloc_steadily (hs : s.Sound c) {i : Instr} (hi : s.code.Typed i) :
    Ends (alloc i) c s (fun id s' => Allocates c s i id s') (Stops c) :=
  Ends.build ⟨hs.alloc hi, s.code.extends_alloc i, rfl, rfl, by simp [Module.alloc],
    by simp [Module.alloc]⟩

end Gen

/-! ### Productions -/

/-- What a production adds to a session. -/
structure Produces (c : Config) (scope : ScopeId) (s : State ρ) (p : Production) (s' : State ρ) :
    Prop where
  sound : s'.Sound c
  grows : s.code.Extends s'.code
  scopes : s.scopes ≤ s'.scopes
  occupies : Occupies (p.stream ++ p.hoisted) s.code.instrs.size s'.code.instrs.size
  hoisted : ∀ v ∈ p.hoisted, s'.code.IsVariable v
  nested : ∃ defs, s'.code.Scoped (fun d => d ∈ s.scopes.visible scope ∨ d ∈ p.hoisted)
    p.stream defs ∧ ∀ d ∈ p.visible, d ∈ defs ∨ d ∈ p.hoisted

theorem rebases_produces : Gen.Rebases c (Produces (ρ := ρ) c scope) := by
  intro s s₁ p s' q h
  refine ⟨h.sound, q.grows.trans h.grows, q.scopes ▸ h.scopes, ?_, h.hoisted, ?_⟩
  · rw [← q.instrs]
    exact h.occupies
  · rw [← q.scopes]
    exact h.nested

theorem Produces.counted {p : Production} (h : Produces c scope s p s') (n : Nat) :
    Produces c scope s p { s' with statements := n } :=
  ⟨(Quiet.counted h.sound n).sound, h.grows, h.scopes, h.occupies, h.hoisted, h.nested⟩

/-- A single new statement. -/
theorem Allocates.produces {i : Instr} {id : InstrId} (h : Allocates c s i id s')
    (hop : i.opcode.isStatement = true) (hreads : ∀ v ∈ i.usedValues, s.Reads scope v)
    {visible : List InstrId} (hvisible : ∀ d ∈ visible, d = id) :
    Produces c scope s { stream := [id], visible } s' where
  sound := h.sound
  grows := h.grows
  scopes := by rw [h.scopes]
  occupies := h.occupies (.nil _) (Nat.le_refl _)
  hoisted := by simp
  nested := by
    refine ⟨[id], .stmt h.instr hop (fun d hd => .inl (hreads _ hd d rfl)) .nil, fun d hd => ?_⟩
    exact .inl (List.mem_singleton.mpr (hvisible d hd))

/-- A new variable, which goes to the entry block. -/
theorem Allocates.hoists {i : Instr} {id : InstrId} (h : Allocates c s i id s')
    (hop : i.opcode = .var) : Produces c scope s { visible := [id], hoisted := [id] } s' where
  sound := h.sound
  grows := h.grows
  scopes := by rw [h.scopes]
  occupies := h.occupies (.nil _) (Nat.le_refl _)
  hoisted := fun v hv => ⟨i, List.mem_singleton.mp hv ▸ h.instr, hop⟩
  nested := ⟨[], .nil, fun d hd => .inr hd⟩

/-! ### Emission -/

/-- An operation on values is a statement with a result, and declares nothing. -/
theorem Table.Yields.opcode {t : Table} {op : Opcode} {args : List EntryId} {r : EntryId}
    (h : t.Yields op args r) : (op.isStatement && op.isTyped && !op.isDeclaration) = true := by
  -- Where a rule allows a list of opcodes, it is the list that is evaluated.
  have hmem {ops : List Opcode} (hop : op ∈ ops)
      (hall : ops.all (fun op => op.isStatement && op.isTyped && !op.isDeclaration) = true) :
      (op.isStatement && op.isTyped && !op.isDeclaration) = true := List.all_eq_true.mp hall op hop
  cases h with
  | intUnary hop | bitUnary hop | intBinary hop | floatBinary hop | boolBinary hop | shift hop
  | reduceBool hop | floatTest hop | intCompare hop | floatCompare hop => exact hmem hop rfl
  | convert _ _ _ _ h =>
    cases h with
    | floatToInt hop | intToFloat hop | intResize hop => exact hmem hop rfl
    | _ => rfl
  | _ => rfl

section Yields

variable {t : Table} {op : Opcode} {args : List EntryId} {r : EntryId} (h : t.Yields op args r)
include h

theorem Table.Yields.isStatement : op.isStatement = true :=
  (Bool.and_eq_true_iff.mp (Bool.and_eq_true_iff.mp h.opcode).1).1

theorem Table.Yields.isTyped : op.isTyped = true :=
  (Bool.and_eq_true_iff.mp (Bool.and_eq_true_iff.mp h.opcode).1).2

theorem Table.Yields.not_isDeclaration : op.isDeclaration = false :=
  Bool.not_eq_eq_eq_not.mp (Bool.and_eq_true_iff.mp h.opcode).2

end Yields

namespace Gen

/-- An instruction with a result that keeps its typing rule and reads what is
visible can be emitted. -/
theorem emit_leads (hs : s.Sound c) {op : Opcode} {ty : EntryId} {operands : List Operand}
    (hi : s.code.Typed ⟨op, some ty, operands⟩) (hop : op.isStatement = true)
    (hreads : ∀ v, Operand.value v ∈ operands → s.Reads scope v) :
    Leads c s (emit op ty operands) (Produces c scope) := by
  refine Ends.bind ((alloc_steadily hs hi).mono (fun id s₁ h => ?_) fun _ _ he => he.halts)
  exact h.produces hop (fun v hv => hreads v (Instr.mem_usedValues.mp hv))
    fun d hd => List.mem_singleton.mp hd

/-- An operation on values can be emitted. -/
theorem apply_leads (hs : s.Sound c) {op : Opcode} {tys : List EntryId} {r : EntryId}
    (args : List Value) (hargs : List.Forall₂ s.code.Has args tys)
    (hreads : ∀ v ∈ args, s.Reads scope v) (h : s.code.table.Yields op tys r) :
    Leads c s (emit op r (args.map .value)) (Produces c scope) := by
  refine emit_leads hs (.apply hargs h) h.isStatement fun v hv => ?_
  obtain ⟨v', hv', heq⟩ := List.mem_map.mp hv
  cases heq
  exact hreads v hv'

end Gen

end ShaderGen
