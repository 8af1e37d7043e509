import Mathlib.Data.List.Infix
import ShaderGen.Proofs.Entries
import ShaderGen.Proofs.IndexRange
import ShaderGen.Proofs.Interning

/-!
Bounding conserves a shader. Nothing is asked of the shader but that its ids are in range
and that the types of its values are types: the stream may name an instruction twice, an
access may be the index of another, and some indices may be modulos already. The modulos
are all there is in the new stream that was not in the old one, each right in front of the
access that uses it, and of the arena only these accesses change, in the index. What makes
the pass idempotent is that an access which it has passed by stays one: the length it was
looked at with is found in the same slot of every later table, and a modulo is no access,
so it is never changed.
-/

namespace ShaderGen

namespace Module

/-- A value is an entry of the table or an instruction of the arena. -/
def Knows (m : Module) : Value → Prop
  | .entry id => id.index < m.table.size
  | .instr id => id.index < m.instrs.size

instance (m : Module) : DecidablePred m.Knows
  | .entry _ => inferInstanceAs (Decidable (_ < _))
  | .instr _ => inferInstanceAs (Decidable (_ < _))

/-- The ids a module mentions are in range and the types of its values are types. -/
structure Closed (m : Module) : Prop where
  reads : ∀ i ∈ m.instrs, ∀ v ∈ i.usedValues, m.Knows v
  results : ∀ i ∈ m.instrs, ∀ ty, i.resultType = some ty → ∃ t, m.table.IsType ty t
  constants : ∀ id k, m.table.IsConst id k → ∃ t, m.table.IsType k.ty t
  vars : ∀ id v, m.table.get? id = some (.var v) → ∃ t, m.table.IsType v.ty t
  lengths : ∀ id element length, m.table.IsType id (.array element length) →
    length.index < m.table.size

variable {m m' m₁ : Module} {v : Value} {id ty : EntryId}

theorem Knows.mono (hle : m ≤ m') (h : m.Knows v) : m'.Knows v := by
  cases v with
  | entry id => exact Nat.lt_of_lt_of_le h (Table.size_le hle.table)
  | instr id =>
    obtain ⟨i, hi, -⟩ := hle.instr (Array.getElem?_eq_getElem h)
    exact (Array.getElem?_eq_some_iff.mp hi).1

theorem Knows.exists_entity (h : m.Knows (.entry id)) : ∃ e, m.table.get? id = some e :=
  ⟨_, Array.getElem?_eq_getElem h⟩

/-! ### Questions about types -/

theorem entity_of_le (hle : m ≤ m') {e : Entity} (h : m.entity id = .ok e) :
    m'.entity id = .ok e :=
  entity_eq_ok.mpr (hle.table (entity_eq_ok.mp h))

theorem typeAt_of_le (hle : m ≤ m') {t : Ty} (h : m.typeAt id = .ok t) : m'.typeAt id = .ok t :=
  typeAt_eq_ok.mpr (hle.table (typeAt_eq_ok.mp h))

theorem typeOf?_of_le (hle : m ≤ m') {o : Option EntryId} (h : m.typeOf? v = .ok o) :
    m'.typeOf? v = .ok o := by
  cases v with
  | entry id =>
    simp only [typeOf?, bind_eq_ok, pure_eq_ok] at h ⊢
    obtain ⟨e, he, rfl⟩ := h
    exact ⟨e, entity_of_le hle he, rfl⟩
  | instr id =>
    simp only [typeOf?, map_eq_ok, instr_eq_ok] at h ⊢
    obtain ⟨i, hi, rfl⟩ := h
    obtain ⟨i', hi', -, hty⟩ := hle.instr hi
    exact ⟨i', hi', hty⟩

theorem componentCount_of_le (hle : m ≤ m') {n : Nat} (h : m.componentCount id = .ok n) :
    m'.componentCount id = .ok n := by
  simp only [componentCount, bind_eq_ok] at h ⊢
  obtain ⟨t, ht, h⟩ := h
  refine ⟨t, typeAt_of_le hle ht, ?_⟩
  cases t with
  | array element length =>
    simp only [constantNat?, constantAt?, bind_eq_ok, pure_eq_ok, map_eq_ok] at h ⊢
    obtain ⟨k, ⟨k', ⟨e, he, rfl⟩, rfl⟩, rfl⟩ := h
    exact ⟨_, ⟨_, ⟨e, entity_of_le hle he, rfl⟩, rfl⟩, rfl⟩
  | _ => exact h

/-- What an instruction reads is known. -/
theorem Closed.knows (hm : m.Closed) {i : Instr} (hi : i ∈ m.instrs) {slot : Nat}
    (h : i.operands[slot]? = some (.value v)) : m.Knows v :=
  hm.reads i hi v (Instr.mem_usedValues.mpr (List.mem_of_getElem? h))

/-- A known value may be asked for its type, which is a type. -/
theorem Closed.typeOf?_answers (hm : m.Closed) (hv : m.Knows v) :
    ∃ o, m.typeOf? v = .ok o ∧ ∀ ty, o = some ty → ∃ t, m.table.IsType ty t := by
  cases v with
  | entry id =>
    obtain ⟨e, he⟩ := hv.exists_entity
    simp only [typeOf?, entity, he, bind, Except.bind, pure, Except.pure]
    cases e with
    | type t => exact ⟨_, rfl, fun ty h => by cases h⟩
    | const k =>
      refine ⟨_, rfl, fun ty h => ?_⟩
      cases h
      exact hm.constants id k he
    | var x =>
      refine ⟨_, rfl, fun ty h => ?_⟩
      cases h
      exact hm.vars id x he
  | instr id =>
    have hi := Array.getElem?_eq_getElem (show id.index < m.instrs.size from hv)
    refine ⟨_, map_eq_ok.mpr ⟨_, instr_eq_ok.mpr hi, rfl⟩, ?_⟩
    exact hm.results _ (Array.mem_of_getElem? hi)

theorem Closed.componentCount_answers (hm : m.Closed) {t : Ty} (hty : m.table.IsType id t) :
    ∃ n, m.componentCount id = .ok n := by
  simp only [componentCount, typeAt_eq_ok.mpr hty, bind, Except.bind]
  cases t with
  | array element length =>
    obtain ⟨e, he⟩ := Knows.exists_entity (hm.lengths id element length hty)
    simp only [constantNat?, constantAt?, entity, he, bind, Except.bind, pure, Except.pure,
      Functor.map, Except.map]
    exact ⟨_, rfl⟩
  | _ => exact ⟨_, rfl⟩

/-! ### Lengths -/

/-- What was interned once is found in the same slot from then on, and nothing changes. -/
theorem internConst_again {k : Const} (h : m.internConst k = (id, m₁)) (hle : m₁ ≤ m') :
    m'.internConst k = (id, m') := by
  have hfind : m₁.table.find? (.const k) = some id := by
    obtain ⟨rfl, rfl⟩ := Prod.mk.inj h
    exact m.table.find?_intern _
  simp only [internConst, intern, Table.intern_of_find?_eq_some (Table.find?_of_le hle.table hfind)]

/-- A constant in a slot of the table was there. -/
theorem internConst_eq_self {k : Const} (h : m.internConst k = (id, m₁))
    (hid : id.index < m.table.size) : m₁ = m := by
  cases hfind : m.table.find? (.const k) with
  | some id' =>
    simp only [internConst, intern, Table.intern_of_find?_eq_some hfind] at h
    exact (congrArg Prod.snd h).symm
  | none =>
    simp only [internConst, intern, Table.intern_of_find?_eq_none hfind] at h
    have hslot : ⟨m.table.size⟩ = id := congrArg Prod.fst h
    rw [← hslot] at hid
    exact absurd hid (Nat.lt_irrefl _)

theorem intConstant_again {value : Nat} (h : m.intConstant ty value = .ok (id, m₁))
    (hle : m ≤ m₁) (hle' : m₁ ≤ m') : m'.intConstant ty value = .ok (id, m') := by
  simp only [intConstant, bind_eq_ok, pure_eq_ok] at h ⊢
  obtain ⟨t, ht, h⟩ := h
  refine ⟨t, typeAt_of_le (hle.trans hle') ht, ?_⟩
  split at h
  · exact internConst_again h hle'
  · exact internConst_again h hle'

theorem le_of_internConst {k : Const} (h : m.internConst k = (id, m₁)) : m ≤ m₁ := by
  obtain rfl : (m.internConst k).2 = m₁ := congrArg Prod.snd h
  exact ⟨m.table.le_intern _, fun hi => ⟨_, hi, rfl, rfl⟩, fun hn => hn⟩

/-- A constant of a type may be interned. -/
theorem Closed.internConst (hm : m.Closed) {k : Const} (h : m.internConst k = (id, m₁))
    (hk : ∃ t, m.table.IsType k.ty t) : m₁.Closed := by
  have hle := le_of_internConst h
  have hget {d : EntryId} {e : Entity} (hd : m₁.table.get? d = some e) :
      m.table.get? d = some e ∨ e = .const k := by
    obtain rfl : (m.internConst k).2 = m₁ := congrArg Prod.snd h
    exact (Table.get?_intern_cases hd).imp_right And.left
  have hinstrs : m₁.instrs = m.instrs := by
    obtain rfl : (m.internConst k).2 = m₁ := congrArg Prod.snd h
    rfl
  have hlater {ty : EntryId} (hty : ∃ t, m.table.IsType ty t) : ∃ t, m₁.table.IsType ty t :=
    hty.imp fun _ ht => hle.table ht
  exact {
    reads := fun i hi v hv => (hm.reads i (hinstrs ▸ hi) v hv).mono hle
    results := fun i hi ty hty => hlater (hm.results i (hinstrs ▸ hi) ty hty)
    constants := fun d k' hd => by
      rcases hget hd with hold | heq
      · exact hlater (hm.constants d k' hold)
      · cases heq
        exact hlater hk
    vars := fun d v hd => by
      rcases hget hd with hold | heq
      · exact hlater (hm.vars d v hold)
      · cases heq
    lengths := fun d element length hd => by
      rcases hget hd with hold | heq
      · exact Nat.lt_of_lt_of_le (hm.lengths d element length hold) (Table.size_le hle.table)
      · cases heq }

end Module

namespace DynamicIndex

variable {m m' : Module} {i : Instr} {id : InstrId}

/-! ### Accesses -/

theorem bind_value?_eq_some {o : Option Operand} {v : Value} :
    o.bind Operand.value? = some v ↔ o = some (.value v) := by
  rcases o with _ | _ | _ | _ | _ | _ | _ <;> simp [Operand.value?]

/-- What an instruction is that makes an access. -/
theorem access?_eq_some {a : Access} : access? m i = .ok (some a) ↔
    slot? i.opcode = some a.slot ∧
      (∃ v, i.operands.head? = some (.value v) ∧ i.operands[a.slot]? = some (.value a.index) ∧
        m.typeOf? a.index = .ok (some a.indexTy) ∧
        ∃ ty, m.typeOf? v = .ok (some ty) ∧ m.componentCount ty = .ok a.count) ∧
      ∃ t, m.typeAt a.indexTy = .ok t ∧ t.signed? = some a.signed := by
  constructor
  · intro h
    unfold access? at h
    cases hslot : slot? i.opcode with
    | none =>
      simp only [hslot, pure_eq_ok] at h
      cases h
    | some slot =>
    cases hvector : i.operands.head?.bind Operand.value? with
    | none =>
      simp only [hslot, hvector, pure_eq_ok] at h
      cases h
    | some vector =>
    cases hindex : i.operands[slot]?.bind Operand.value? with
    | none =>
      simp only [hslot, hvector, hindex, pure_eq_ok] at h
      cases h
    | some index =>
    simp only [hslot, hvector, hindex, bind_eq_ok] at h
    obtain ⟨_ | indexTy, hindexTy, h⟩ := h
    · cases h
    simp only [bind_eq_ok] at h
    obtain ⟨_ | vectorTy, hvectorTy, h⟩ := h
    · cases h
    simp only [bind_eq_ok] at h
    obtain ⟨count, hcount, t, ht, h⟩ := h
    cases hsigned : t.signed? with
    | none =>
      rw [hsigned] at h
      cases h
    | some signed =>
      rw [hsigned] at h
      cases h
      exact ⟨rfl, ⟨vector, bind_value?_eq_some.mp hvector, bind_value?_eq_some.mp hindex,
        hindexTy, vectorTy, hvectorTy, hcount⟩, t, ht, hsigned⟩
  · rintro ⟨hslot, ⟨v, hv, hindex, hindexTy, ty, hty, hcount⟩, t, ht, hsigned⟩
    simp [access?, hslot, hv, hindex, hindexTy, hty, hcount, ht, hsigned, Operand.value?, bind,
      Except.bind, pure, Except.pure]

/-- What an access is does not change with the module, nor what is none. -/
theorem access?_of_le (hle : m ≤ m') {o : Option Access} (h : access? m i = .ok o) :
    access? m' i = .ok o := by
  cases o with
  | some a =>
    obtain ⟨hslot, ⟨v, hv, hindex, hindexTy, ty, hty, hcount⟩, t, ht, hsigned⟩ :=
      access?_eq_some.mp h
    exact access?_eq_some.mpr ⟨hslot, ⟨v, hv, hindex, Module.typeOf?_of_le hle hindexTy, ty,
      Module.typeOf?_of_le hle hty, Module.componentCount_of_le hle hcount⟩, t,
      Module.typeAt_of_le hle ht, hsigned⟩
  | none =>
    unfold access? at h ⊢
    cases hslot : slot? i.opcode with
    | none => rfl
    | some slot =>
    cases hvector : i.operands.head?.bind Operand.value? with
    | none => rfl
    | some vector =>
    cases hindex : i.operands[slot]?.bind Operand.value? with
    | none =>
      simp only [hindex]
      rfl
    | some index =>
    simp only [hslot, hvector, hindex, bind_eq_ok] at h ⊢
    obtain ⟨indexTy?, hindexTy, h⟩ := h
    refine ⟨indexTy?, Module.typeOf?_of_le hle hindexTy, ?_⟩
    cases indexTy? with
    | none => rfl
    | some indexTy =>
    simp only [bind_eq_ok] at h ⊢
    obtain ⟨vectorTy?, hvectorTy, h⟩ := h
    refine ⟨vectorTy?, Module.typeOf?_of_le hle hvectorTy, ?_⟩
    cases vectorTy? with
    | none => rfl
    | some vectorTy =>
    simp only [bind_eq_ok] at h ⊢
    obtain ⟨count, hcount, t, ht, h⟩ := h
    exact ⟨count, Module.componentCount_of_le hle hcount, t, Module.typeAt_of_le hle ht, h⟩

/-- In a closed module every instruction may be asked for its access. -/
theorem access?_answers (hm : m.Closed) (hi : i ∈ m.instrs) : ∃ o, access? m i = .ok o := by
  have hasked {v : Value} {k : Nat} (h : i.operands[k]?.bind Operand.value? = some v) :
      ∃ o, m.typeOf? v = .ok o ∧ ∀ ty, o = some ty → ∃ t, m.table.IsType ty t :=
    hm.typeOf?_answers (hm.knows hi (bind_value?_eq_some.mp h))
  unfold access?
  cases hslot : slot? i.opcode with
  | none => exact ⟨none, rfl⟩
  | some slot =>
  cases hvector : i.operands.head?.bind Operand.value? with
  | none => exact ⟨none, rfl⟩
  | some vector =>
  cases hindex : i.operands[slot]?.bind Operand.value? with
  | none =>
    simp only [hindex]
    exact ⟨none, rfl⟩
  | some index =>
  obtain ⟨indexTy?, hindexTy, hindexTy'⟩ := hasked hindex
  obtain ⟨vectorTy?, hvectorTy, hvectorTy'⟩ := hasked (v := vector) (k := 0)
    (by rw [← List.head?_eq_getElem?]; exact hvector)
  simp only [hindex, hindexTy, bind, Except.bind]
  cases indexTy? with
  | none => exact ⟨none, rfl⟩
  | some indexTy =>
  simp only [hvectorTy]
  cases vectorTy? with
  | none => exact ⟨none, rfl⟩
  | some vectorTy =>
  obtain ⟨t, ht⟩ := hindexTy' indexTy rfl
  obtain ⟨t', ht'⟩ := hvectorTy' vectorTy rfl
  obtain ⟨count, hcount⟩ := hm.componentCount_answers ht'
  simp only [hcount, Module.typeAt_eq_ok.mpr ht]
  cases t.signed? with
  | none => exact ⟨none, rfl⟩
  | some signed => exact ⟨_, rfl⟩

/-! ### One instruction -/

/-- Bounding passes an instruction by. -/
def Settled (m : Module) (id : InstrId) : Prop := bound m id = .ok (none, m)

/-- An instruction is passed by if it makes no access, and if it makes one at a modulo
by its length. -/
theorem settled_iff (hi : m.instrs[id.index]? = some i) : Settled m id ↔
    access? m i = .ok none ∨ ∃ a length, access? m i = .ok (some a) ∧
      m.intConstant a.indexTy a.count = .ok (length, m) ∧
        isModuloBy m length a.index = .ok true := by
  unfold Settled bound
  rw [Module.instr_eq_ok.mpr hi]
  simp only [bind_eq_ok, Except.ok.injEq, exists_eq_left']
  constructor
  · rintro ⟨_ | a, ha, h⟩
    · exact .inl ha
    · right
      simp only [bind_eq_ok] at h
      obtain ⟨⟨length, m₁⟩, hlength, answer, hanswer, h⟩ := h
      cases answer with
      | true =>
        simp only [if_true, pure_eq_ok, Prod.mk.injEq, true_and] at h
        obtain rfl := h
        exact ⟨a, length, ha, hlength, hanswer⟩
      | false =>
        simp [pure, Except.pure] at h
  · rintro (ha | ⟨a, length, ha, hlength, hanswer⟩)
    · exact ⟨none, ha, rfl⟩
    · refine ⟨some a, ha, ?_⟩
      simp only [hlength, hanswer, bind, Except.bind]
      rfl

theorem Settled.exists_instr (h : Settled m id) : ∃ i, m.instrs[id.index]? = some i := by
  simp only [Settled, bound, bind_eq_ok, Module.instr_eq_ok] at h
  exact h.imp fun _ hi => hi.1

/-- What is passed by once is passed by for good, as long as it stays and so do the
instructions that make no access. -/
theorem Settled.later (hle : m ≤ m') (h : Settled m id) (hi : m.instrs[id.index]? = some i)
    (hi' : m'.instrs[id.index]? = some i)
    (hframe : ∀ (k : Nat) (j : Instr), m.instrs[k]? = some j → slot? j.opcode = none →
      m'.instrs[k]? = some j) :
    Settled m' id := by
  rcases (settled_iff hi).mp h with ha | ⟨a, length, ha, hlength, hmodulo⟩
  · exact (settled_iff hi').mpr (.inl (access?_of_le hle ha))
  · obtain ⟨d, j, hd, hj, hop, hoperand⟩ := isModuloBy_eq_true.mp hmodulo
    have hslot : slot? j.opcode = none := by rcases hop with hop | hop <;> rw [hop] <;> rfl
    exact (settled_iff hi').mpr (.inr ⟨a, length, access?_of_le hle ha,
      Module.intConstant_again hlength (le_refl m) hle,
      isModuloBy_eq_true.mpr ⟨d, j, hd, hframe _ j hj hslot, hop, hoperand⟩⟩)

/-- The modulo in front of an access. -/
def Access.modulo (a : Access) (length : EntryId) : Instr :=
  ⟨if a.signed then .sMod else .uMod, some a.indexTy, [.value a.index, .entry length]⟩

theorem Access.opcode_modulo (a : Access) (length : EntryId) :
    (a.modulo length).opcode = .sMod ∨ (a.modulo length).opcode = .uMod := by
  unfold modulo
  cases a.signed <;> simp

theorem Access.mem_usedValues_modulo {a : Access} {length : EntryId} {v : Value} :
    v ∈ (a.modulo length).usedValues ↔ v = a.index ∨ v = .entry length := by
  simp [modulo, Instr.mem_usedValues, Operand.entry]

/-- An instruction is passed by, or it makes an access that gets a modulo. -/
theorem bound_cases (hm : m.Closed) (hi : m.instrs[id.index]? = some i) : Settled m id ∨
    ∃ a length m₁, access? m i = .ok (some a) ∧
      m.intConstant a.indexTy a.count = .ok (length, m₁) ∧
      bound m id =
        .ok (some ⟨m.instrs.size⟩, withModulo m₁ id a.slot (a.modulo length)) := by
  obtain ⟨_ | a, ha⟩ := access?_answers hm (Array.mem_of_getElem? hi)
  · exact .inl ((settled_iff hi).mpr (.inl ha))
  obtain ⟨hslot, ⟨v, hv, hindex, hindexTy, -⟩, t, ht, hsigned⟩ := access?_eq_some.mp ha
  obtain ⟨⟨length, m₁⟩, hlength⟩ := Module.intConstant_answers (Module.typeAt_eq_ok.mp ht) a.count
  obtain ⟨literal, hliteral⟩ := Module.exists_internConst hlength
  have hinstrs : m₁.instrs = m.instrs := by
    obtain ⟨-, rfl⟩ := Prod.mk.inj hliteral
    rfl
  obtain ⟨answer, hanswer⟩ : ∃ answer, isModuloBy m₁ length a.index = .ok answer := by
    refine isModuloBy_answers fun d hd => ?_
    have hknown : m.Knows (.instr d) := hd ▸ hm.knows (Array.mem_of_getElem? hi) hindex
    rw [hinstrs]
    exact ⟨_, Array.getElem?_eq_getElem hknown⟩
  cases answer with
  | true =>
    -- A modulo that is there mentions the length, so the length was there too.
    left
    obtain ⟨d, j, hd, hj, hop, hoperand⟩ := isModuloBy_eq_true.mp hanswer
    rw [hinstrs] at hj
    have hthere : length.index < m.table.size := hm.knows (Array.mem_of_getElem? hj) hoperand
    obtain rfl := Module.internConst_eq_self hliteral hthere
    exact (settled_iff hi).mpr (.inr ⟨a, length, ha, hlength, hanswer⟩)
  | false =>
    right
    refine ⟨a, length, m₁, ha, hlength, ?_⟩
    simp only [bound, Module.instr_eq_ok.mpr hi, ha, hlength, hanswer, bind, Except.bind]
    rw [← hinstrs]
    rfl

/-- A modulo may be put in front of an access. -/
theorem closed_withModulo (hm : m.Closed) (hi : m.instrs[id.index]? = some i) (slot : Nat)
    {j : Instr} (hreads : ∀ v ∈ j.usedValues, m.Knows v)
    (hresult : ∀ ty, j.resultType = some ty → ∃ t, m.table.IsType ty t) :
    (withModulo m id slot j).Closed := by
  have hle := le_withModulo hi slot j
  have hmodulo : (withModulo m id slot j).Knows (.instr ⟨m.instrs.size⟩) := by
    rw [Module.Knows, size_withModulo]
    exact Nat.lt_succ_self _
  have hcases {i' : Instr} (hi' : i' ∈ (withModulo m id slot j).instrs) :
      i' = i.setOperand slot (.instr ⟨m.instrs.size⟩) ∨ i' = j ∨ i' ∈ m.instrs := by
    obtain ⟨k, hk⟩ := Array.mem_iff_getElem?.mp hi'
    rw [getElem?_withModulo hi] at hk
    split_ifs at hk
    · exact .inl (Option.some.inj hk).symm
    · exact .inr (.inl (Option.some.inj hk).symm)
    · exact .inr (.inr (Array.mem_of_getElem? hk))
  have hiarena := Array.mem_of_getElem? hi
  exact {
    reads := fun i' hi' v hv => by
      rcases hcases hi' with rfl | rfl | hold
      · rcases mem_usedValues_setOperand hv with rfl | hv
        · exact hmodulo
        · exact (hm.reads i hiarena v hv).mono hle
      · exact (hreads v hv).mono hle
      · exact (hm.reads i' hold v hv).mono hle
    results := fun i' hi' ty hty => by
      rcases hcases hi' with rfl | rfl | hold
      · exact hm.results i hiarena ty hty
      · exact hresult ty hty
      · exact hm.results i' hold ty hty
    constants := hm.constants
    vars := hm.vars
    lengths := hm.lengths }

/-- What bounding keeps of a module. The table gains constants at its end, and what was
passed by stays what it was and is passed by again. -/
structure Keeps (m m' : Module) : Prop where
  closed : m'.Closed
  later : m ≤ m'
  table : ∃ ks : List Const,
    m'.table.entries.toList = m.table.entries.toList ++ ks.map Entity.const
  annotations : m'.annotations = m.annotations
  imports : m'.imports = m.imports
  settled : ∀ id, Settled m id → Settled m' id ∧ m'.instrs[id.index]? = m.instrs[id.index]?

theorem Keeps.refl (hm : m.Closed) : Keeps m m where
  closed := hm
  later := le_refl m
  table := ⟨[], by simp⟩
  annotations := rfl
  imports := rfl
  settled _ h := ⟨h, rfl⟩

theorem Keeps.trans {m'' : Module} (h : Keeps m m') (h' : Keeps m' m'') : Keeps m m'' where
  closed := h'.closed
  later := h.later.trans h'.later
  table := by
    obtain ⟨ks, hks⟩ := h.table
    obtain ⟨ks', hks'⟩ := h'.table
    exact ⟨ks ++ ks', by rw [hks', hks, List.map_append, List.append_assoc]⟩
  annotations := h'.annotations.trans h.annotations
  imports := h'.imports.trans h.imports
  settled id hid := by
    obtain ⟨hid', heq⟩ := h.settled id hid
    obtain ⟨hid'', heq'⟩ := h'.settled id hid'
    exact ⟨hid'', heq'.trans heq⟩

/-- What bounding does to an instruction that it does not pass by. -/
structure Inserts (m : Module) (id : InstrId) (i : Instr) (slot : Nat) (index : Value)
    (m' : Module) : Prop where
  bound : bound m id = .ok (some ⟨m.instrs.size⟩, m')
  keeps : Keeps m m'
  settled : Settled m' id
  size : m'.instrs.size = m.instrs.size + 1
  guards : Guards m m' id ⟨m.instrs.size⟩ i slot index
  frame : ∀ (k : Nat) (j : Instr), k ≠ id.index → m.instrs[k]? = some j → m'.instrs[k]? = some j

/-- An access that is not settled after a modulo was put in was there before. -/
theorem Inserts.access_before {slot slot' : Nat} {index : Value} (h : Inserts m id i slot index m')
    {d : InstrId} {j : Instr} (hd : ¬ Settled m' d) (hj : m'.instrs[d.index]? = some j)
    (hslot : slot? j.opcode = some slot') : m.instrs[d.index]? = some j := by
  have hne : d.index ≠ id.index := fun heq => by
    obtain rfl : d = id := congrArg InstrId.mk heq
    exact hd h.settled
  have hnew : d.index ≠ m.instrs.size := fun heq => by
    obtain ⟨j', hmodulo, hnone⟩ := h.guards.exists_modulo
    rw [heq] at hj
    cases hmodulo.symm.trans hj
    cases hnone.symm.trans hslot
  have hlt := (Array.getElem?_eq_some_iff.mp hj).1
  rw [h.size] at hlt
  have hget := Array.getElem?_eq_getElem (show d.index < m.instrs.size by omega)
  rw [hget, ← hj, h.frame _ _ hne hget]

/-- With the modulo in its place, an access has another index of the same type. -/
theorem access?_setOperand {a : Access} {v : Value} (hle : m ≤ m')
    (h : access? m i = .ok (some a)) (hv : m'.Has v a.indexTy) :
    access? m' (i.setOperand a.slot v) = .ok (some { a with index := v }) := by
  obtain ⟨hslot, ⟨w, hw, hindex, -, ty, hty, hcount⟩, t, ht, hsigned⟩ := access?_eq_some.mp h
  exact access?_eq_some.mpr ⟨hslot, ⟨w, (head?_setOperand hslot v).trans hw,
    getElem?_setOperand hindex v, hv, ty, Module.typeOf?_of_le hle hty,
    Module.componentCount_of_le hle hcount⟩, t, Module.typeAt_of_le hle ht, hsigned⟩

theorem bound_spec (hm : m.Closed) (hi : m.instrs[id.index]? = some i) :
    Settled m id ∨ ∃ slot index m', Inserts m id i slot index m' := by
  rcases bound_cases hm hi with h | ⟨a, length, m₁, ha, hlength, hbound⟩
  · exact .inl h
  right
  obtain ⟨hslot, ⟨-, -, hindex, -⟩, t, ht, hsigned⟩ := access?_eq_some.mp ha
  obtain ⟨literal, hliteral⟩ := Module.exists_internConst hlength
  have hty : ∃ t, m.table.IsType a.indexTy t := ⟨t, Module.typeAt_eq_ok.mp ht⟩
  have hle₁ := Module.le_of_internConst hliteral
  obtain rfl : (m.internConst _).2 = m₁ := congrArg Prod.snd hliteral
  set m₁ := (m.internConst (.scalar a.indexTy literal)).2
  have hlength₁ : m₁.Knows (.entry length) := by
    obtain rfl : (m.internConst _).1 = length := congrArg Prod.fst hliteral
    exact Table.lt_size_of_get? (m.table.get?_intern _)
  have hclosed₁ := hm.internConst hliteral hty
  -- the module with the modulo
  set m' := withModulo m₁ id a.slot (a.modulo length)
  have hle : m₁ ≤ m' := le_withModulo (m := m₁) hi a.slot (a.modulo length)
  have haccess : m'.instrs[id.index]? = some (i.setOperand a.slot (.instr ⟨m.instrs.size⟩)) :=
    withModulo_access hi a.slot (a.modulo length)
  have hmodulo : m'.instrs[m.instrs.size]? = some (a.modulo length) :=
    withModulo_modulo hi a.slot (a.modulo length)
  have hop := a.opcode_modulo length
  have hframe (k : Nat) (j : Instr) (hk : k ≠ id.index) (hj : m.instrs[k]? = some j) :
      m'.instrs[k]? = some j :=
    (withModulo_other hi a.slot (a.modulo length) hk
      (Array.getElem?_eq_some_iff.mp hj).1).trans hj
  have hstatic (k : Nat) (j : Instr) (hj : m.instrs[k]? = some j) (hnone : slot? j.opcode = none) :
      m'.instrs[k]? = some j :=
    withModulo_frame hi (by rw [hslot]; rfl) a.slot (a.modulo length) hj hnone
  have hclosed : m'.Closed := by
    refine closed_withModulo hclosed₁ hi a.slot (fun v hv => ?_) fun ty h => ?_
    · rcases Access.mem_usedValues_modulo.mp hv with rfl | rfl
      · exact (hm.knows (Array.mem_of_getElem? hi) hindex).mono hle₁
      · exact hlength₁
    · cases h
      exact hty.imp fun _ ht => hle₁.table ht
  refine ⟨a.slot, a.index, m', hbound, ?_, ?_, size_withModulo m₁ id a.slot _,
    ⟨hi, hslot, hindex, haccess, _, _, length, hop, hmodulo⟩, hframe⟩
  · exact {
      closed := hclosed
      later := hle₁.trans hle
      table := by
        have hentries := m.table.entries_intern (.const (.scalar a.indexTy literal))
        split_ifs at hentries
        · exact ⟨[], by rw [List.map_nil, List.append_nil]; exact hentries⟩
        · exact ⟨[_], hentries⟩
      annotations := rfl
      imports := rfl
      settled := fun d hd => by
        obtain ⟨j, hj⟩ := hd.exists_instr
        have hne : d.index ≠ id.index := fun heq => by
          obtain rfl : d = id := congrArg InstrId.mk heq
          cases hd.symm.trans hbound
        have hj' := hframe d.index j hne hj
        exact ⟨hd.later (hle₁.trans hle) hj hj' hstatic, hj'.trans hj.symm⟩ }
  · have hhas : m'.Has (.instr ⟨m.instrs.size⟩) a.indexTy := Module.has_instr.mpr ⟨_, hmodulo, rfl⟩
    exact (settled_iff haccess).mpr (.inr ⟨_, length,
      access?_setOperand (hle₁.trans hle) ha hhas, Module.intConstant_again hlength hle₁ hle,
      isModuloBy_eq_true.mpr ⟨_, _, rfl, hmodulo, hop, rfl⟩⟩)

/-! ### Streams -/

/-- A stream with modulos put in. They are the instructions of the arena from the slot
`old` on. -/
structure Woven (old : Nat) (m m' : Module) (ids ids' : List InstrId) (count : Nat) : Prop where
  /-- Without the modulos the stream is what it was. -/
  before : ids'.filter (·.index < old) = ids
  /-- The modulos stand in the stream as in the arena, each once. -/
  inserted : ids'.filter (old ≤ ·.index) = (List.range' m.instrs.size count).map InstrId.mk
  size : m'.instrs.size = m.instrs.size + count
  /-- A modulo stands right in front of an access that would not have been passed by. Its
  first operand is the index of the access, and the access uses the modulo instead. -/
  guards : ∀ modulo ∈ ids', old ≤ modulo.index → ∃ id i slot index,
    [modulo, id] <:+: ids' ∧ ¬ Settled m id ∧ Guards m m' id modulo i slot index
  /-- Of the instructions that were there only such accesses change, in the index. -/
  frame : ∀ id i, m.instrs[id.index]? = some i → m'.instrs[id.index]? = some i ∨
    ∃ modulo slot index, old ≤ modulo.index ∧ [modulo, id] <:+: ids' ∧
      Guards m m' id modulo i slot index

section Run

variable {old count : Nat} {ids ids' : List InstrId}

theorem Woven.nil (old : Nat) (m : Module) : Woven old m m [] [] 0 where
  before := rfl
  inserted := rfl
  size := rfl
  guards _ h := by cases h
  frame _ _ hi := .inl hi

/-- An instruction that is passed by stays in front of the rest. -/
theorem Woven.keep (h : Woven old m m' ids ids' count) (hid : id.index < old) :
    Woven old m m' (id :: ids) (id :: ids') count where
  before := by rw [List.filter_cons_of_pos (by simpa using hid), h.before]
  inserted := by rw [List.filter_cons_of_neg (by simpa using hid), h.inserted]
  size := h.size
  guards modulo hmodulo hold := by
    rcases List.mem_cons.mp hmodulo with rfl | hmodulo
    · exact absurd hid (Nat.not_lt.mpr hold)
    · obtain ⟨d, i, slot, index, hinfix, hrest⟩ := h.guards modulo hmodulo hold
      exact ⟨d, i, slot, index, hinfix.trans (List.suffix_cons _ _).isInfix, hrest⟩
  frame d i hi := by
    refine (h.frame d i hi).imp_right ?_
    rintro ⟨modulo, slot, index, hold, hinfix, hguards⟩
    exact ⟨modulo, slot, index, hold, hinfix.trans (List.suffix_cons _ _).isInfix, hguards⟩

/-- An access gets its modulo and the rest is bounded after that. What is put in for the
rest leaves the access alone, for it is settled. -/
theorem Woven.guard {slot : Nat} {index : Value} {m'' : Module}
    (hinserts : Inserts m id i slot index m') (hunsettled : ¬ Settled m id)
    (hkeeps : Keeps m' m'') (h : Woven old m' m'' ids ids' count) (hid : id.index < old)
    (hold : old ≤ m.instrs.size) :
    Woven old m m'' (id :: ids) (⟨m.instrs.size⟩ :: id :: ids') (count + 1) := by
  obtain ⟨-, hstays⟩ := hkeeps.settled id hinserts.settled
  -- a modulo is no access, so it stays too
  have hstatic {d : InstrId} {j : Instr} (hj : m'.instrs[d.index]? = some j)
      (hnone : slot? j.opcode = none) : m''.instrs[d.index]? = some j := by
    rcases h.frame d j hj with hj' | ⟨_, slot', _, _, _, hguards⟩
    · exact hj'
    · rw [hguards.access] at hnone
      cases hnone
  have hguards : Guards m m'' id ⟨m.instrs.size⟩ i slot index := by
    obtain ⟨op, ty, length, hop, hmodulo⟩ := hinserts.guards.modulo
    have hnone : slot? op = none := by rcases hop with rfl | rfl <;> rfl
    exact { hinserts.guards with
      bounded := hstays.trans hinserts.guards.bounded
      modulo := ⟨op, ty, length, hop, hstatic hmodulo hnone⟩ }
  have hfirst : [⟨m.instrs.size⟩, id] <:+: ⟨m.instrs.size⟩ :: id :: ids' :=
    ⟨[], ids', by simp⟩
  have hrest : ids' <:+: ⟨m.instrs.size⟩ :: id :: ids' := ⟨[⟨m.instrs.size⟩, id], [], by simp⟩
  exact {
    before := by
      rw [List.filter_cons_of_neg (by simpa using hold),
        List.filter_cons_of_pos (by simpa using hid), h.before]
    inserted := by
      rw [List.filter_cons_of_pos (by simpa using hold),
        List.filter_cons_of_neg (by simpa using hid), h.inserted, hinserts.size, List.range'_succ,
        List.map_cons]
    size := by
      rw [h.size, hinserts.size]
      omega
    guards := fun modulo hmodulo hmodold => by
      rcases List.mem_cons.mp hmodulo with rfl | hmodulo
      · exact ⟨id, i, slot, index, hfirst, hunsettled, hguards⟩
      rcases List.mem_cons.mp hmodulo with rfl | hmodulo
      · exact absurd hid (Nat.not_lt.mpr hmodold)
      obtain ⟨d, j, slot', index', hinfix, hd, hguards'⟩ := h.guards modulo hmodulo hmodold
      exact ⟨d, j, slot', index', hinfix.trans hrest,
        fun hsettled => hd (hinserts.keeps.settled d hsettled).1,
        { hguards' with instr := hinserts.access_before hd hguards'.instr hguards'.access }⟩
    frame := fun d j hj => by
      by_cases hd : d.index = id.index
      · obtain rfl : d = id := congrArg InstrId.mk hd
        cases hinserts.guards.instr.symm.trans hj
        exact .inr ⟨_, slot, index, hold, hfirst, hguards⟩
      · refine (h.frame d j (hinserts.frame _ _ hd hj)).imp_right ?_
        rintro ⟨modulo, slot', index', hmodold, hinfix, hguards'⟩
        exact ⟨modulo, slot', index', hmodold, hinfix.trans hrest, { hguards' with instr := hj }⟩ }

/-- Bounding a stream of a closed module answers the stream with modulos put in, and
passes by everything that is in it then. -/
theorem boundAll_weaves (hm : m.Closed) (hold : old ≤ m.instrs.size)
    (hids : ∀ id ∈ ids, id.index < old) : ∃ ids' count m',
      boundAll m ids = .ok (ids', count, m') ∧ Keeps m m' ∧ Woven old m m' ids ids' count ∧
        ∀ id ∈ ids', Settled m' id := by
  induction ids generalizing m with
  | nil => exact ⟨[], 0, m, rfl, .refl hm, .nil old m, by simp⟩
  | cons id ids ih =>
    have hid := hids id List.mem_cons_self
    have hrestIds : ∀ d ∈ ids, d.index < old := fun d hd => hids d (List.mem_cons_of_mem _ hd)
    have hi := Array.getElem?_eq_getElem (Nat.lt_of_lt_of_le hid hold)
    rcases bound_spec hm hi with hsettled | ⟨slot, index, m₁, hinserts⟩
    · obtain ⟨rest, count, m', hrest, hkeeps, hwoven, hall⟩ := ih hm hold hrestIds
      refine ⟨id :: rest, count, m', ?_, hkeeps, hwoven.keep hid, ?_⟩
      · rw [boundAll, show bound m id = .ok (none, m) from hsettled]
        simp only [hrest, bind, Except.bind]
        rfl
      · simpa using ⟨(hkeeps.settled id hsettled).1, hall⟩
    · have hunsettled : ¬ Settled m id := fun h => by cases h.symm.trans hinserts.bound
      have hsize : m.instrs.size ≤ m₁.instrs.size := by
        rw [hinserts.size]
        exact Nat.le_succ _
      obtain ⟨rest, count, m', hrest, hkeeps, hwoven, hall⟩ :=
        ih hinserts.keeps.closed (hold.trans hsize) hrestIds
      have hwoven' := hwoven.guard hinserts hunsettled hkeeps hid hold
      refine ⟨⟨m.instrs.size⟩ :: id :: rest, count + 1, m', ?_, hinserts.keeps.trans hkeeps,
        hwoven', ?_⟩
      · rw [boundAll, hinserts.bound]
        simp only [hrest, bind, Except.bind]
        rfl
      · obtain ⟨_, hmodulo, hnone⟩ := hinserts.guards.exists_modulo
        have hpassed : Settled m₁ ⟨m.instrs.size⟩ := bound_of_slot?_eq_none hmodulo hnone
        simpa using ⟨(hkeeps.settled _ hpassed).1, (hkeeps.settled id hinserts.settled).1, hall⟩

/-- Nothing happens to a stream whose instructions are all passed by. -/
theorem boundAll_of_settled (h : ∀ id ∈ ids, Settled m id) : boundAll m ids = .ok (ids, 0, m) := by
  induction ids with
  | nil => rfl
  | cons id ids ih =>
    obtain ⟨hid, hrest⟩ := List.forall_mem_cons.mp h
    rw [boundAll, show bound m id = .ok (none, m) from hid]
    simp only [ih hrest, bind, Except.bind]
    rfl

end Run

end DynamicIndex

/-! ### Shaders -/

namespace Shader

open DynamicIndex

/-- The ids a shader mentions are in range and the types of its values are types. -/
structure Closed (s : Shader) : Prop where
  code : s.code.Closed
  body : ∀ id ∈ s.body, id.index < s.code.instrs.size

/-- Two accesses of which the second has the first as its index, each named twice, one
at a modulo that is there already, and a write to a shorter vector. -/
def tangled : Shader where
  code := {
    table := .ofList
      [.type (.int 32 true), .type (.vector ⟨0⟩ 4), .type (.vector ⟨0⟩ 3),
        .const (.scalar ⟨0⟩ (.int 4))]
    instrs := #[
      ⟨.functionParameter, some ⟨1⟩, []⟩,
      ⟨.functionParameter, some ⟨2⟩, []⟩,
      ⟨.functionParameter, some ⟨0⟩, []⟩,
      ⟨.sMod, some ⟨0⟩, [.instr ⟨2⟩, .entry ⟨3⟩]⟩,
      ⟨.vectorExtractDynamic, some ⟨0⟩, [.instr ⟨0⟩, .instr ⟨3⟩]⟩,
      ⟨.vectorExtractDynamic, some ⟨0⟩, [.instr ⟨0⟩, .instr ⟨2⟩]⟩,
      ⟨.vectorExtractDynamic, some ⟨0⟩, [.instr ⟨0⟩, .instr ⟨5⟩]⟩,
      ⟨.vectorInsertDynamic, some ⟨2⟩, [.instr ⟨1⟩, .instr ⟨6⟩, .instr ⟨6⟩]⟩] }
  body := #[⟨0⟩, ⟨1⟩, ⟨2⟩, ⟨3⟩, ⟨4⟩, ⟨5⟩, ⟨6⟩, ⟨5⟩, ⟨6⟩, ⟨7⟩]
  entryPoint := ⟨0⟩

theorem tangled_closed : tangled.Closed := by
  have hentry {id : EntryId} {e : Entity} (h : tangled.code.table.get? id = some e) :
      e ∈ tangled.code.table.entries.toList := Array.mem_toList_iff.mpr (Array.mem_of_getElem? h)
  have hentries : tangled.code.table.entries.toList =
      [.type (.int 32 true), .type (.vector ⟨0⟩ 4), .type (.vector ⟨0⟩ 3),
        .const (.scalar ⟨0⟩ (.int 4))] := by decide +kernel
  have htype : ∀ ty : EntryId, ty.index < 3 → ∃ t, tangled.code.table.IsType ty t := by
    rintro ⟨_ | _ | _ | n⟩ h
    · exact ⟨_, rfl⟩
    · exact ⟨_, rfl⟩
    · exact ⟨_, rfl⟩
    · exact absurd h (by simp)
  have hresults : ∀ i ∈ tangled.code.instrs, ∀ ty ∈ i.resultType, ty.index < 3 := by decide
  refine ⟨⟨by decide, fun i hi ty hty => htype ty (hresults i hi ty hty),
    fun id k h => ?_, fun id v h => ?_, fun id element length h => ?_⟩, by decide⟩
  · have := hentry h
    rw [hentries] at this
    simp at this
    subst this
    exact htype ⟨0⟩ (by decide)
  · have := hentry h
    rw [hentries] at this
    simp at this
  · have := hentry h
    rw [hentries] at this
    simp at this

/-- What bounding makes of the stream. -/
example : (fun x => (x.1, x.2.body.toList.map InstrId.index)) <$> tangled.boundIndices.toOption =
    some (3, [0, 1, 2, 3, 4, 8, 5, 9, 6, 5, 6, 10, 7]) := by
  decide +kernel

end Shader

end ShaderGen
