import ShaderGen.Proofs.Functions

/-!
Bounding one dynamic access. An access is found by its typing rule, and the modulo in
front of it has the type of the index it takes the place of, so both are typed
and so is everything else. A module that changes in some slots only is followed
by `Changes`, which says which slots these are.
-/

namespace ShaderGen

variable {c : Config}

namespace Module

variable {m m' : Module}

/-! ### Interning -/

/-- A module follows another by interning. -/
structure Interns (c : Config) (m m' : Module) : Prop where
  later : m ≤ m'
  instrs : m'.instrs = m.instrs
  annotations : m'.annotations = m.annotations
  table : m'.table.WellFormed c

/-- Integer constants are interned scalars. -/
theorem exists_internConst {ty id : EntryId} {value : Nat}
    (h : m.intConstant ty value = .ok (id, m')) :
    ∃ literal, m.internConst (.scalar ty literal) = (id, m') := by
  simp only [intConstant, bind_eq_ok, pure_eq_ok] at h
  obtain ⟨t, -, h⟩ := h
  split at h
  · exact ⟨_, h⟩
  · exact ⟨_, h⟩

/-- A type may be asked for its integer constants. -/
theorem intConstant_answers {ty : EntryId} {t : Ty} (hty : m.table.IsType ty t) (value : Nat) :
    ∃ p, m.intConstant ty value = .ok p := by
  simp only [intConstant, typeAt_eq_ok.mpr hty, bind, Except.bind]
  exact ⟨_, rfl⟩

/-- An integer type holds the small numbers. -/
theorem intConstant_interns (hwf : m.table.WellFormed c) {ty : EntryId} {width : Nat}
    {signed : Bool} (hty : m.table.IsType ty (.int width signed)) {value : Nat} (hv : value ≤ 4)
    {id : EntryId} (h : m.intConstant ty value = .ok (id, m')) :
    Interns c m m' ∧ m'.table.HasConst id ty := by
  have hinterns (k : Const) (hk : k.WellFormed m.table) (hkty : k.ty = ty)
      (h : m.internConst k = (id, m')) : Interns c m m' ∧ m'.table.HasConst id ty := by
    obtain ⟨rfl, rfl⟩ := Prod.mk.inj h
    refine ⟨⟨⟨m.table.le_intern _, fun hi => ⟨_, hi, rfl, rfl⟩, fun hn => hn⟩, rfl, rfl,
      hwf.intern hk⟩, k, m.table.get?_intern _, hkty⟩
  -- No enabled width is below eight bits, and eight hold the sizes of vectors.
  have hwidth : 8 ≤ width := by
    rcases hwf.entry hty with h | h
    · have := List.mem_of_mem_filter h
      simp at this
      omega
    · have := List.mem_of_mem_filter h
      simp at this
      omega
  simp only [intConstant, Module.typeAt_eq_ok.mpr hty, bind, Except.bind, pure, Except.pure] at h
  cases signed with
  | true =>
    have hpow : (2 : Int) ^ 7 ≤ 2 ^ (width - 1) := pow_le_pow_right₀ (by decide) (by omega)
    have hfits : Literal.Fits width true (.int (min value (UInt64.size / 2 - 1) : Nat)) :=
      ⟨rfl, by omega, by omega⟩
    exact hinterns (.scalar ty _) (Or.inl ⟨width, true, hty, hfits⟩) rfl (Except.ok.inj h)
  | false =>
    have hpow : 2 ^ 8 ≤ 2 ^ width := Nat.pow_le_pow_right (by decide) hwidth
    have hfits : Literal.Fits width false (.uint value) := ⟨rfl, by omega⟩
    exact hinterns (.scalar ty _) (Or.inl ⟨width, false, hty, hfits⟩) rfl (Except.ok.inj h)

end Module

namespace DynamicIndex

variable {m m' : Module} {i : Instr}

/-! ### Accesses -/

theorem typed_extractDynamic {r : Option EntryId} {operands : List Operand}
    (h : m.Typed ⟨.vectorExtractDynamic, r, operands⟩) :
    ∃ v index a element indexTy n width signed, operands = [.value v, .value index] ∧
      r = some element ∧ m.Has v a ∧ m.Has index indexTy ∧
      m.table.IsType a (.vector element n) ∧ m.table.IsType indexTy (.int width signed) := by
  cases h with
  | apply hargs h =>
    cases h with
    | extractDynamic ha hi =>
      cases hargs with
      | cons hv hargs =>
        cases hargs with
        | cons hindex hargs =>
          cases hargs
          exact ⟨_, _, _, _, _, _, _, _, rfl, rfl, hv, hindex, ha, hi⟩
    | convert _ _ _ _ h => cases h <;> contradiction
    | _ => contradiction

theorem typed_insertDynamic {r : Option EntryId} {operands : List Operand}
    (h : m.Typed ⟨.vectorInsertDynamic, r, operands⟩) :
    ∃ v object index a element indexTy n width signed,
      operands = [.value v, .value object, .value index] ∧ r = some a ∧ m.Has v a ∧
      m.Has object element ∧ m.Has index indexTy ∧ m.table.IsType a (.vector element n) ∧
      m.table.IsType indexTy (.int width signed) := by
  cases h with
  | apply hargs h =>
    cases h with
    | insertDynamic ha hi =>
      cases hargs with
      | cons hv hargs =>
        cases hargs with
        | cons ho hargs =>
          cases hargs with
          | cons hindex hargs =>
            cases hargs
            exact ⟨_, _, _, _, _, _, _, _, _, rfl, rfl, hv, ho, hindex, ha, hi⟩
    | convert _ _ _ _ h => cases h <;> contradiction
    | _ => contradiction

theorem slot_ne_zero {op : Opcode} {slot : Nat} (h : slot? op = some slot) : slot ≠ 0 := by
  unfold slot? at h
  split at h <;> cases h <;> decide

/-- Another index leaves the vector of an access what it was. -/
theorem head?_setOperand {slot : Nat} (h : slot? i.opcode = some slot) (v : Value) :
    (i.setOperand slot v).operands.head? = i.operands.head? := by
  rw [List.head?_eq_getElem?, List.head?_eq_getElem?, Instr.setOperand,
    List.getElem?_set_ne (slot_ne_zero h)]

theorem getElem?_setOperand {slot : Nat} {o : Operand} (h : i.operands[slot]? = some o)
    (v : Value) : (i.setOperand slot v).operands[slot]? = some (.value v) := by
  obtain ⟨hlt, -⟩ := List.getElem?_eq_some_iff.mp h
  simp [Instr.setOperand, hlt]

/-- What is known of an access to a vector. -/
structure IsAccess (m : Module) (i : Instr) (a : Access) : Prop where
  slot : slot? i.opcode = some a.slot
  operand : i.operands[a.slot]? = some (.value a.index)
  indexTy : ∃ width, m.table.IsType a.indexTy (.int width a.signed)
  has : m.Has a.index a.indexTy
  count : a.count ≤ 4
  /-- Another index of the same type may take the place of the index. -/
  replace : ∀ m', m ≤ m' → ∀ v, m'.Has v a.indexTy → m'.Typed (i.setOperand a.slot v)

theorem IsAccess.mono (hle : m ≤ m') {a : Access} (h : IsAccess m i a) : IsAccess m' i a where
  slot := h.slot
  operand := h.operand
  indexTy := by
    obtain ⟨width, hty⟩ := h.indexTy
    exact ⟨width, hle.table hty⟩
  has := h.has.mono hle
  count := h.count
  replace := fun _ hle' => h.replace _ (hle.trans hle')

theorem access?_of_typed (hwf : m.table.WellFormed c) (hi : m.Typed i) :
    slot? i.opcode = none ∧ access? m i = .ok none ∨
      ∃ a, access? m i = .ok (some a) ∧ IsAccess m i a := by
  cases hslot : slot? i.opcode with
  | none =>
    left
    simp [access?, hslot]
    rfl
  | some slot =>
    right
    obtain ⟨op, r, operands⟩ := i
    unfold slot? at hslot
    split at hslot <;> cases hslot
    · rename_i hop
      cases hop
      obtain ⟨v, index, a, element, indexTy, n, width, signed, rfl, rfl, hv, hindex, ha, hty⟩ :=
        typed_extractDynamic hi
      have hn : n ≤ 4 := (hwf.entry ha).1.2
      refine ⟨⟨1, index, indexTy, signed, n⟩, ?_, rfl, rfl, ⟨width, hty⟩, hindex, hn, ?_⟩
      · simp [access?, slot?, Operand.value?, show m.typeOf? _ = _ from hindex,
          show m.typeOf? _ = _ from hv, Module.componentCount_of_arity hwf (.vector ha),
          Module.typeAt_eq_ok.mpr hty, Ty.signed?, bind, Except.bind, pure, Except.pure]
      · intro m' hle v' hv'
        have hargs : List.Forall₂ m'.Has [v, v'] [a, indexTy] :=
          .cons (hv.mono hle) (.cons hv' .nil)
        exact .apply hargs (.extractDynamic (hle.table ha) (hle.table hty))
    · rename_i hop
      cases hop
      obtain ⟨v, object, index, a, element, indexTy, n, width, signed, rfl, rfl, hv, ho, hindex, ha,
        hty⟩ := typed_insertDynamic hi
      have hn : n ≤ 4 := (hwf.entry ha).1.2
      refine ⟨⟨2, index, indexTy, signed, n⟩, ?_, rfl, rfl, ⟨width, hty⟩, hindex, hn, ?_⟩
      · simp [access?, slot?, Operand.value?, show m.typeOf? _ = _ from hindex,
          show m.typeOf? _ = _ from hv, Module.componentCount_of_arity hwf (.vector ha),
          Module.typeAt_eq_ok.mpr hty, Ty.signed?, bind, Except.bind, pure, Except.pure]
      · intro m' hle v' hv'
        have hargs : List.Forall₂ m'.Has [v, object, v'] [a, element, indexTy] :=
          .cons (hv.mono hle) (.cons (ho.mono hle) (.cons hv' .nil))
        exact .apply hargs (.insertDynamic (hle.table ha) (hle.table hty))

/-! ### One access -/

/-- The module with a modulo for an access, which the access uses. -/
def withModulo (m : Module) (id : InstrId) (slot : Nat) (modulo : Instr) : Module :=
  (m.alloc modulo).2.setOperand id slot (.instr ⟨m.instrs.size⟩)

section Modulo

variable {id : InstrId}

/-- Putting a modulo in changes the access and nothing else. -/
theorem getElem?_withModulo (hi : m.instrs[id.index]? = some i) (slot : Nat) (j : Instr) (k : Nat) :
    (withModulo m id slot j).instrs[k]? =
      if k = id.index then some (i.setOperand slot (.instr ⟨m.instrs.size⟩))
      else if k = m.instrs.size then some j else m.instrs[k]? := by
  have hlt := (Array.getElem?_eq_some_iff.mp hi).1
  have hmodify : (withModulo m id slot j).instrs[k]? = if id.index = k then
      (m.instrs.push j)[k]?.map (fun i => i.setOperand slot (.instr ⟨m.instrs.size⟩))
      else (m.instrs.push j)[k]? := Array.getElem?_modify
  rw [hmodify, Array.getElem?_push]
  by_cases hk : k = id.index
  · subst hk
    rw [if_pos rfl, if_pos rfl, if_neg (Nat.ne_of_lt hlt), hi]
    rfl
  · rw [if_neg (Ne.symm hk), if_neg hk]

theorem le_withModulo (hi : m.instrs[id.index]? = some i) (slot : Nat) (j : Instr) :
    m ≤ withModulo m id slot j := by
  refine ⟨le_refl _, fun {k i'} hk => ?_, fun hn => hn⟩
  rw [getElem?_withModulo hi]
  by_cases hid : k = id.index
  · subst hid
    cases hi.symm.trans hk
    exact ⟨_, if_pos rfl, rfl, rfl⟩
  · have := (Array.getElem?_eq_some_iff.mp hk).1
    rw [if_neg hid, if_neg (by omega)]
    exact ⟨i', hk, rfl, rfl⟩

theorem size_withModulo (m : Module) (id : InstrId) (slot : Nat) (j : Instr) :
    (withModulo m id slot j).instrs.size = m.instrs.size + 1 := by
  simp [withModulo, Module.setOperand, Module.alloc]

/-- The access uses the modulo. -/
theorem withModulo_access (hi : m.instrs[id.index]? = some i) (slot : Nat) (j : Instr) :
    (withModulo m id slot j).instrs[id.index]? =
      some (i.setOperand slot (.instr ⟨m.instrs.size⟩)) := by
  rw [getElem?_withModulo hi, if_pos rfl]

theorem withModulo_modulo (hi : m.instrs[id.index]? = some i) (slot : Nat) (j : Instr) :
    (withModulo m id slot j).instrs[m.instrs.size]? = some j := by
  have hlt := (Array.getElem?_eq_some_iff.mp hi).1
  rw [getElem?_withModulo hi, if_neg (Nat.ne_of_gt hlt), if_pos rfl]

/-- The access is the one instruction of the arena that is not what it was. -/
theorem withModulo_other (hi : m.instrs[id.index]? = some i) (slot : Nat) (j : Instr) {k : Nat}
    (hk : k ≠ id.index) (hlt : k < m.instrs.size) :
    (withModulo m id slot j).instrs[k]? = m.instrs[k]? := by
  rw [getElem?_withModulo hi, if_neg hk, if_neg (Nat.ne_of_lt hlt)]

theorem withModulo_of_ne (hi : m.instrs[id.index]? = some i) (slot : Nat) (j : Instr) {x : InstrId}
    {i' : Instr} (hx : x ≠ id) (hlt : x.index < m.instrs.size)
    (hi' : (withModulo m id slot j).instrs[x.index]? = some i') : m.instrs[x.index]? = some i' := by
  have hne : x.index ≠ id.index := fun heq => hx (congrArg InstrId.mk heq)
  rwa [withModulo_other hi slot j hne hlt] at hi'

/-- What is no access stays what it was. -/
theorem withModulo_frame (hi : m.instrs[id.index]? = some i) (hslot : (slot? i.opcode).isSome)
    (slot : Nat) (j : Instr) {k : Nat} {i' : Instr} (hk : m.instrs[k]? = some i')
    (hnone : slot? i'.opcode = none) : (withModulo m id slot j).instrs[k]? = some i' := by
  rw [withModulo_other hi slot j ?_ (Array.getElem?_eq_some_iff.mp hk).1, hk]
  rintro rfl
  cases hi.symm.trans hk
  rw [hnone] at hslot
  cases hslot

end Modulo

/-- The instruction in a slot is an access, and in the later module another
instruction guards it: a modulo of the index, which the access uses instead. -/
structure Guards (m m' : Module) (id modulo : InstrId) (i : Instr) (slot : Nat) (index : Value) :
    Prop where
  instr : m.instrs[id.index]? = some i
  access : slot? i.opcode = some slot
  operand : i.operands[slot]? = some (.value index)
  bounded : m'.instrs[id.index]? = some (i.setOperand slot (.instr modulo))
  modulo : ∃ op ty length, (op = .sMod ∨ op = .uMod) ∧
    m'.instrs[modulo.index]? = some ⟨op, some ty, [.value index, .entry length]⟩

/-- A modulo makes no access. -/
theorem Guards.exists_modulo {id modulo : InstrId} {i : Instr} {slot : Nat} {index : Value}
    (h : Guards m m' id modulo i slot index) :
    ∃ j, m'.instrs[modulo.index]? = some j ∧ slot? j.opcode = none := by
  obtain ⟨op, ty, length, hop, hmodulo⟩ := h.modulo
  exact ⟨_, hmodulo, by rcases hop with rfl | rfl <;> rfl⟩

/-- A module follows another by a change of the instructions in the given slots, and
by new entries and instructions. -/
structure Changes (c : Config) (m : Module) (ids : List InstrId) (m' : Module) : Prop where
  later : m ≤ m'
  table : m'.table.WellFormed c
  typed : ∀ {k : Nat} {i : Instr}, m'.instrs[k]? = some i → m'.Typed i
  annotations : m'.annotations = m.annotations
  frame : ∀ id, id ∉ ids → ∀ i, m.instrs[id.index]? = some i → m'.instrs[id.index]? = some i

theorem Changes.trans {ids ids' : List InstrId} {m'' : Module} (h : Changes c m ids m')
    (h' : Changes c m' ids' m'') : Changes c m (ids ++ ids') m'' where
  later := h.later.trans h'.later
  table := h'.table
  typed := h'.typed
  annotations := h'.annotations.trans h.annotations
  frame := fun id hid i hi => by
    rw [List.mem_append, not_or] at hid
    exact h'.frame id hid.2 i (h.frame id hid.1 i hi)

theorem Changes.of_interns (htyped : ∀ {k : Nat} {i : Instr}, m.instrs[k]? = some i → m.Typed i)
    (h : Module.Interns c m m') (ids : List InstrId) : Changes c m ids m' where
  later := h.later
  table := h.table
  typed := fun hi => (htyped (by rw [← h.instrs]; exact hi)).mono h.later
  annotations := h.annotations
  frame := fun id _ i hi => by rw [h.instrs]; exact hi

/-- Putting a modulo in front of an access. -/
theorem Changes.guard (hwf : m.table.WellFormed c)
    (htyped : ∀ {k : Nat} {i : Instr}, m.instrs[k]? = some i → m.Typed i) {id : InstrId}
    {a : Access} {op : Opcode} {length : EntryId} (hi : m.instrs[id.index]? = some i)
    (ha : IsAccess m i a) (hop : op = .sMod ∨ op = .uMod) (hadmits : op.Admits a.signed)
    (hlength : m.table.HasConst length a.indexTy) {modulo : InstrId}
    (halloc : m.alloc ⟨op, some a.indexTy, [.value a.index, .entry length]⟩ = (modulo, m')) :
    let m'' := m'.setOperand id a.slot (.instr modulo)
    Changes c m [id] m'' ∧ modulo.index = m.instrs.size ∧
      m''.instrs.size = m.instrs.size + 1 ∧ Guards m m'' id modulo i a.slot a.index := by
  obtain ⟨rfl, rfl⟩ := Prod.mk.inj halloc
  intro m''
  obtain ⟨width, hty⟩ := ha.indexTy
  let modulo : Instr := ⟨op, some a.indexTy, [.value a.index, .entry length]⟩
  have hle : m ≤ m'' := le_withModulo hi a.slot modulo
  have hbounded : m''.instrs[id.index]? = some (i.setOperand a.slot (.instr ⟨m.instrs.size⟩)) :=
    withModulo_access hi a.slot modulo
  have hmodulo : m''.instrs[m.instrs.size]? = some modulo := withModulo_modulo hi a.slot modulo
  refine ⟨⟨hle, hwf, fun {k j} hj => ?_, rfl, fun d hd j hj => ?_⟩, rfl,
    size_withModulo m id a.slot modulo,
    ⟨hi, ha.slot, ha.operand, hbounded, op, a.indexTy, length, hop, hmodulo⟩⟩
  · have hget : m''.instrs[k]? = _ := getElem?_withModulo hi a.slot modulo k
    rw [hget] at hj
    split at hj
    · cases hj
      exact ha.replace m'' hle _ (Module.has_instr.mpr ⟨_, hmodulo, rfl⟩)
    · split at hj
      · cases hj
        have hlanes : m''.table.IntLanes a.indexTy 1 width a.signed :=
          ⟨a.indexTy, .scalar hty rfl, hty⟩
        have hargs : List.Forall₂ m''.Has [a.index, .entry length] [a.indexTy, a.indexTy] :=
          .cons (ha.has.mono hle) (.cons (Module.has_entry.mpr (.inl hlength)) .nil)
        refine .apply hargs (.intBinary ?_ hlanes hadmits)
        rcases hop with rfl | rfl <;> decide
      · exact (htyped hj).mono hle
  · have hne : d.index ≠ id.index := fun heq =>
      hd (List.mem_singleton.mpr (congrArg InstrId.mk heq))
    have hlt := (Array.getElem?_eq_some_iff.mp hj).1
    exact (withModulo_other hi a.slot modulo hne hlt).trans hj

/-- What bounding one instruction does. -/
theorem bound_changes (hwf : m.table.WellFormed c)
    (htyped : ∀ {k : Nat} {i : Instr}, m.instrs[k]? = some i → m.Typed i) {id : InstrId}
    {inserted : Option InstrId} (h : bound m id = .ok (inserted, m')) :
    Changes c m [id] m' ∧ (inserted = none ∧ m'.instrs = m.instrs ∨
      ∃ modulo, inserted = some modulo ∧ modulo.index = m.instrs.size ∧
        m'.instrs.size = m.instrs.size + 1 ∧
        ∃ i slot index, Guards m m' id modulo i slot index) := by
  simp only [bound, bind_eq_ok, Module.instr_eq_ok] at h
  obtain ⟨i, hi, access, haccess, h⟩ := h
  rcases access?_of_typed hwf (htyped hi) with ⟨_, hnone⟩ | ⟨a, hsome, ha⟩
  · cases hnone.symm.trans haccess
    simp only [pure_eq_ok, Prod.mk.injEq] at h
    obtain ⟨rfl, rfl⟩ := h
    exact ⟨⟨le_refl _, hwf, htyped, rfl, fun _ _ _ hi => hi⟩, .inl ⟨rfl, rfl⟩⟩
  cases hsome.symm.trans haccess
  simp only [bind_eq_ok] at h
  obtain ⟨⟨length, m₁⟩, hconst, already, hmodulo, h⟩ := h
  obtain ⟨width, hwidth⟩ := ha.indexTy
  obtain ⟨hm₁, hlength⟩ := Module.intConstant_interns hwf hwidth ha.count hconst
  cases already with
  | true =>
    simp only [if_true, pure, Except.pure, Except.ok.injEq, Prod.mk.injEq] at h
    obtain ⟨rfl, rfl⟩ := h
    exact ⟨.of_interns htyped hm₁ [id], .inl ⟨rfl, hm₁.instrs⟩⟩
  | false =>
    have hop : (if a.signed then Opcode.sMod else .uMod) = .sMod ∨
        (if a.signed then Opcode.sMod else .uMod) = .uMod := by
      cases a.signed <;> simp
    have hadmits : (if a.signed then Opcode.sMod else .uMod).Admits a.signed := by
      cases a.signed <;> exact fun _ h => (Option.some.inj h).symm
    simp only [Bool.false_eq_true, if_false, pure, Except.pure, Except.ok.injEq,
      Prod.mk.injEq] at h
    obtain ⟨rfl, rfl⟩ := h
    -- First the length is interned, then the modulo takes the place of the index.
    have h₁ := Changes.of_interns htyped hm₁ []
    have hi₁ : m₁.instrs[id.index]? = some i := by rw [hm₁.instrs]; exact hi
    obtain ⟨h₂, hslot, hsize, hguards⟩ :=
      Changes.guard h₁.table h₁.typed hi₁ (ha.mono hm₁.later) hop hadmits hlength rfl
    have hsame := congrArg Array.size hm₁.instrs
    exact ⟨h₁.trans h₂, .inr ⟨_, rfl, hslot.trans hsame, hsize.trans (congrArg (· + 1) hsame),
      i, a.slot, a.index, { hguards with instr := hi }⟩⟩

/-- An index that is there may be asked whether it is a modulo. -/
theorem isModuloBy_answers {length : EntryId} {v : Value}
    (hv : ∀ d, v = .instr d → ∃ j, m.instrs[d.index]? = some j) :
    ∃ answer, isModuloBy m length v = .ok answer := by
  cases v with
  | entry => exact ⟨false, rfl⟩
  | instr d =>
    obtain ⟨j, hj⟩ := hv d rfl
    simp only [isModuloBy, Module.instr_eq_ok.mpr hj, bind, Except.bind]
    exact ⟨_, rfl⟩

/-- The answer is yes where it is a modulo by that constant. -/
theorem isModuloBy_eq_true {length : EntryId} {v : Value} :
    isModuloBy m length v = .ok true ↔ ∃ d j, v = .instr d ∧ m.instrs[d.index]? = some j ∧
      (j.opcode = .sMod ∨ j.opcode = .uMod) ∧ j.operands[1]? = some (.entry length) := by
  cases v with
  | entry id => simp [isModuloBy, pure, Except.pure]
  | instr d =>
    simp only [isModuloBy, bind_eq_ok, Module.instr_eq_ok, pure_eq_ok, Value.instr.injEq,
      Bool.and_eq_true, Bool.or_eq_true, beq_iff_eq]
    constructor
    · rintro ⟨j, hj, hop, hlength⟩
      exact ⟨d, j, rfl, hj, hop, hlength⟩
    · rintro ⟨d, j, rfl, hj, hop, hlength⟩
      exact ⟨j, hj, hop, hlength⟩

/-- Among typed instructions every access can be bounded. -/
theorem bound_answers (hwf : m.table.WellFormed c)
    (htyped : ∀ {k : Nat} {i : Instr}, m.instrs[k]? = some i → m.Typed i) {id : InstrId}
    (hid : id.index < m.instrs.size) : ∃ inserted m', bound m id = .ok (inserted, m') := by
  obtain ⟨i, hi⟩ : ∃ i, m.instrs[id.index]? = some i := ⟨_, Array.getElem?_eq_getElem hid⟩
  rcases access?_of_typed hwf (htyped hi) with ⟨_, hnone⟩ | ⟨a, hsome, ha⟩
  · exact ⟨none, m, by simp [bound, Module.instr_eq_ok.mpr hi, hnone, bind, Except.bind, pure,
      Except.pure]⟩
  obtain ⟨width, hwidth⟩ := ha.indexTy
  obtain ⟨⟨length, m₁⟩, hconst⟩ := Module.intConstant_answers hwidth a.count
  obtain ⟨hm₁, -⟩ := Module.intConstant_interns hwf hwidth ha.count hconst
  obtain ⟨already, hmodulo⟩ : ∃ already, isModuloBy m₁ length a.index = .ok already := by
    refine isModuloBy_answers fun d hd => ?_
    obtain ⟨j, hj, -⟩ := Module.has_instr.mp (hd ▸ ha.has)
    exact ⟨j, hm₁.instrs ▸ hj⟩
  simp only [bound, Module.instr_eq_ok.mpr hi, hsome, hconst, hmodulo, bind, Except.bind, pure,
    Except.pure]
  cases already with
  | true => exact ⟨_, _, rfl⟩
  | false => exact ⟨_, _, rfl⟩

end DynamicIndex

end ShaderGen
