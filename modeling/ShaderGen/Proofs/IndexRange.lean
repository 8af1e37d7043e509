import Mathlib.Tactic.NormNum
import ShaderGen.Proofs.Bounding

/-!
Bounded accesses stay in range. This holds of every shader, generated or not: a
vector may have any number of components that its index type can hold, the body
may name an instruction twice, and some indices may be modulos already. After the
pass every access reads an earlier modulo by the number of components. On bits,
that modulo answers a component whatever its other operand is, with one
exception: a signed modulo at an unsigned type reads a length of the upper half as
a negative number. The pass puts no such modulo in, but it takes one that is
there for good.
-/

namespace ShaderGen

/-! ### Modulos on bits -/

/-- The result of a modulo on the bits of its operands: the signed one has the sign
of the divisor, the unsigned one takes all bits for the number. -/
def Opcode.modulo? {w : Nat} (op : Opcode) (a b : BitVec w) : Option (BitVec w) :=
  match op with
  | .sMod => some (a.smod b)
  | .uMod => some (a.umod b)
  | _ => none

namespace DynamicIndex

/-- The number an index of a signedness stands for. -/
def indexValue {w : Nat} (signed : Bool) (bits : BitVec w) : Int :=
  match signed with
  | true => bits.toInt
  | false => bits.toNat

section Bits

variable {w n : Nat}

theorem indexValue_eq_toNat {signed : Bool} {bits : BitVec w}
    (h : signed = true → 2 * bits.toNat < 2 ^ w) : indexValue signed bits = bits.toNat := by
  cases signed with
  | false => rfl
  | true => rw [indexValue, BitVec.toInt_eq_toNat_cond, if_pos (h rfl)]

theorem two_mul_lt_of_inRange (hn : 1 ≤ n) (h : InRange w true n) : 2 * n < 2 ^ w := by
  have hlt : n < 2 ^ (w - 1) := by exact_mod_cast h.2
  cases w with
  | zero =>
    rw [Nat.zero_sub, pow_zero] at hlt
    omega
  | succ w =>
    rw [Nat.add_sub_cancel] at hlt
    rw [pow_succ]
    omega

theorem lt_of_inRange {signed : Bool} (hn : 1 ≤ n) (h : InRange w signed n) : n < 2 ^ w := by
  cases signed with
  | false => exact_mod_cast h.2
  | true =>
    have := two_mul_lt_of_inRange hn h
    omega

/-- The unsigned modulo is in range, also where the index is read as signed. -/
theorem umod_mem {signed : Bool} (hn : 1 ≤ n) (h : InRange w signed n) (raw : BitVec w) :
    0 ≤ indexValue signed (raw.umod (.ofNat w n)) ∧
      indexValue signed (raw.umod (.ofNat w n)) < n := by
  have hnat : (raw.umod (.ofNat w n)).toNat = raw.toNat % n := by
    rw [BitVec.umod_eq, BitVec.toNat_umod, BitVec.toNat_ofNat,
      Nat.mod_eq_of_lt (lt_of_inRange hn h)]
  have hmod : raw.toNat % n < n := Nat.mod_lt _ hn
  rw [indexValue_eq_toNat, hnat]
  · omega
  · rintro rfl
    have := two_mul_lt_of_inRange hn h
    omega

theorem toInt_ofNat_of_lt (h : 2 * n < 2 ^ w) : (BitVec.ofNat w n).toInt = n := by
  rw [BitVec.toInt_eq_toNat_cond, BitVec.toNat_ofNat, Nat.mod_eq_of_lt (by omega), if_pos h]

/-- The signed modulo by a length of the lower half is in range, also where the index
is read as unsigned. -/
theorem smod_mem (signed : Bool) (hn : 1 ≤ n) (h : 2 * n < 2 ^ w) (raw : BitVec w) :
    0 ≤ indexValue signed (raw.smod (.ofNat w n)) ∧
      indexValue signed (raw.smod (.ofNat w n)) < n := by
  have hdivisor := toInt_ofNat_of_lt h
  have hmem : 0 ≤ (raw.smod (.ofNat w n)).toInt ∧ (raw.smod (.ofNat w n)).toInt < n := by
    rw [BitVec.toInt_smod, hdivisor]
    exact ⟨Int.fmod_nonneg_of_pos _ (by omega), Int.fmod_lt_of_pos _ (by omega)⟩
  cases signed with
  | true => exact hmem
  | false =>
    have heq := BitVec.toInt_eq_toNat_cond (raw.smod (.ofNat w n))
    have hlt := (raw.smod (.ofNat w n)).isLt
    simp only [indexValue]
    split at heq <;> omega

theorem neg_one_fmod {b : Int} (hb : b < -1) : Int.fmod (-1) b = -1 := by
  rw [show b = -(-b) by omega, Int.neg_fmod_neg, Int.fmod_eq_of_lt (by decide) (by omega)]

/-- By a length of the upper half the signed modulo is out of range for some index,
unless the length is minus one as a signed number. -/
theorem smod_lt_iff (hn : 1 ≤ n) (hlt : n < 2 ^ w) (hbig : 2 ^ w ≤ 2 * n) :
    (∀ raw : BitVec w, (raw.smod (.ofNat w n)).toNat < n) ↔ n + 1 = 2 ^ w := by
  have hdivisor : (BitVec.ofNat w n).toInt = (n : Int) - (2 ^ w : Nat) := by
    rw [BitVec.toInt_eq_toNat_cond, BitVec.toNat_ofNat, Nat.mod_eq_of_lt hlt, if_neg (by omega)]
  constructor
  · intro hall
    by_contra hne
    have hw : 0 < w := by
      rcases Nat.eq_zero_or_pos w with rfl | hw
      · rw [pow_zero] at hlt
        omega
      · exact hw
    -- minus one keeps its value, for the divisor is below it
    have hr : ((BitVec.allOnes w).smod (.ofNat w n)).toInt = -1 := by
      rw [BitVec.toInt_smod, hdivisor, BitVec.toInt_allOnes, if_pos hw, neg_one_fmod (by omega)]
    have hlast := hall (.allOnes w)
    rw [BitVec.toInt_eq_toNat_cond] at hr
    split at hr <;> omega
  · intro heq raw
    have hone : (n : Int) - (2 ^ w : Nat) = -1 := by omega
    have hzero : (raw.smod (.ofNat w n)).toInt = 0 := by
      rw [BitVec.toInt_smod, hdivisor, hone]
      exact Int.fmod_eq_zero_of_dvd (by simp)
    have hz : raw.smod (.ofNat w n) = 0#w := BitVec.eq_of_toInt_eq (by simpa using hzero)
    rw [hz, BitVec.toNat_ofNat, Nat.zero_mod]
    exact hn

/-- When the result of a modulo by a length is in range for every index. -/
theorem modulo_mem_iff {signed : Bool} {op : Opcode} (hop : op = .sMod ∨ op = .uMod) (hn : 1 ≤ n)
    (h : InRange w signed n) :
    (∀ raw r : BitVec w, op.modulo? raw (.ofNat w n) = some r →
      0 ≤ indexValue signed r ∧ indexValue signed r < n) ↔
    (op = .sMod → 2 * n < 2 ^ w ∨ n + 1 = 2 ^ w) := by
  rcases hop with rfl | rfl
  · simp only [Opcode.modulo?, Option.some.injEq, forall_eq', forall_const]
    by_cases hhalf : 2 * n < 2 ^ w
    · simp only [hhalf, true_or, iff_true]
      exact smod_mem signed hn hhalf
    · obtain rfl : signed = false := by
        cases signed with
        | false => rfl
        | true => exact absurd (two_mul_lt_of_inRange hn h) hhalf
      rw [← smod_lt_iff hn (lt_of_inRange hn h) (by omega)]
      simp [hhalf, indexValue]
  · simp only [Opcode.modulo?, Option.some.injEq, forall_eq', reduceCtorEq, false_implies, iff_true]
    exact umod_mem hn h

end Bits

/-! ### Lengths -/

/-- The literal of a natural number, in the form a signedness asks for. -/
def lengthLiteral (signed : Bool) (n : Nat) : Literal :=
  match signed with
  | true => .int n
  | false => .uint n

end DynamicIndex

namespace Table

variable {t t' : Table} {e : Entity} {id : EntryId}

/-- An entity is found in the same slot of every later table. -/
theorem find?_of_le (hle : t ≤ t') (h : t.find? e = some id) : t'.find? e = some id :=
  find?_eq_some_iff.mpr (hle (find?_eq_some h))

/-- An entity is found in the slot that interning it answered. -/
theorem find?_intern (t : Table) (e : Entity) :
    (t.intern e).2.find? e = some (t.intern e).1.id :=
  find?_eq_some_iff.mpr (t.get?_intern e)

end Table

/-- The constant of a small number goes to the slot of its literal. -/
theorem Module.intConstant_eq {m : Module} {ty : EntryId} {width : Nat} {signed : Bool}
    (hty : m.table.IsType ty (.int width signed)) {n : Nat} (hn : n < UInt32.size) :
    m.intConstant ty n =
      .ok (m.internConst (.scalar ty (DynamicIndex.lengthLiteral signed n))) := by
  have hsize : UInt32.size = 2 ^ 32 := rfl
  have hmin : min n (UInt64.size / 2 - 1) = n := by
    have : UInt64.size / 2 - 1 = 2 ^ 63 - 1 := rfl
    omega
  simp only [intConstant, Module.typeAt_eq_ok.mpr hty, bind, Except.bind]
  cases signed with
  | true =>
    simp only [hmin]
    rfl
  | false => rfl

namespace DynamicIndex

/-! ### Accesses -/

/-- An instruction accesses a vector of `n` components, a number that the type of the
index holds. A count is a word of 32 bits. -/
structure Accesses (m : Module) (i : Instr) (slot : Nat) (index : Value) (ty : EntryId)
    (width : Nat) (signed : Bool) (n : Nat) : Prop where
  access : slot? i.opcode = some slot
  vector : ∃ v vectorTy element, i.operands.head? = some (.value v) ∧ m.Has v vectorTy ∧
    m.table.IsType vectorTy (.vector element n)
  operand : i.operands[slot]? = some (.value index)
  has : m.Has index ty
  isInt : m.table.IsType ty (.int width signed)
  nonempty : 1 ≤ n
  count : n < UInt32.size
  holds : InRange width signed n

/-- An instruction is a modulo by `n`, a constant of the modulo's own type. -/
structure IsModulo (m : Module) (j : Instr) (ty : EntryId) (signed : Bool) (n : Nat) : Prop where
  opcode : j.opcode = .sMod ∨ j.opcode = .uMod
  type : j.resultType = some ty
  length : ∃ length, j.operands[1]? = some (.entry length) ∧
    m.table.find? (.const (.scalar ty (lengthLiteral signed n))) = some length

/-- The index of an access is an earlier modulo by the number of components. -/
def Guarded (m : Module) (earlier : List InstrId) (i : Instr) : Prop :=
  ∃ d ∈ earlier, ∃ slot ty width signed n j, Accesses m i slot (.instr d) ty width signed n ∧
    m.instrs[d.index]? = some j ∧ IsModulo m j ty signed n

section Later

variable {m m' : Module} {i j : Instr} {slot n width : Nat} {index : Value} {ty : EntryId}
  {signed : Bool}

theorem Accesses.mono (hle : m ≤ m') (h : Accesses m i slot index ty width signed n) :
    Accesses m' i slot index ty width signed n where
  access := h.access
  vector := by
    obtain ⟨v, vectorTy, element, hhead, hv, hty⟩ := h.vector
    exact ⟨v, vectorTy, element, hhead, hv.mono hle, hle.table hty⟩
  operand := h.operand
  has := h.has.mono hle
  isInt := hle.table h.isInt
  nonempty := h.nonempty
  count := h.count
  holds := h.holds

theorem IsModulo.mono (hle : m ≤ m') (h : IsModulo m j ty signed n) : IsModulo m' j ty signed n :=
  ⟨h.opcode, h.type, h.length.imp fun _ hl => ⟨hl.1, Table.find?_of_le hle.table hl.2⟩⟩

/-- An access is no modulo. -/
theorem slot?_of_isModulo (h : IsModulo m j ty signed n) : slot? j.opcode = none := by
  rcases h.opcode with hop | hop <;> rw [hop] <;> rfl

/-- Another index of the same type may take the place of the index. -/
theorem Accesses.setOperand (h : Accesses m i slot index ty width signed n) {v : Value}
    (hv : m.Has v ty) : Accesses m (i.setOperand slot v) slot v ty width signed n where
  access := h.access
  vector := by
    obtain ⟨w, vectorTy, element, hhead, hw, hty⟩ := h.vector
    exact ⟨w, vectorTy, element, (head?_setOperand h.access v).trans hhead, hw, hty⟩
  operand := getElem?_setOperand h.operand v
  has := hv
  isInt := h.isInt
  nonempty := h.nonempty
  count := h.count
  holds := h.holds

theorem access?_of_accesses (h : Accesses m i slot index ty width signed n) :
    access? m i = .ok (some ⟨slot, index, ty, signed, n⟩) := by
  obtain ⟨v, vectorTy, element, hhead, hv, hvector⟩ := h.vector
  simp [access?, h.access, hhead, h.operand, Operand.value?, show m.typeOf? _ = _ from h.has,
    show m.typeOf? _ = _ from hv, Module.componentCount, Module.typeAt_eq_ok.mpr hvector,
    Module.typeAt_eq_ok.mpr h.isInt, Ty.signed?, bind, Except.bind, pure, Except.pure]

/-- An instruction makes one access. -/
theorem Accesses.unique {slot' n' width' : Nat} {index' : Value} {ty' : EntryId} {signed' : Bool}
    (h : Accesses m i slot index ty width signed n)
    (h' : Accesses m i slot' index' ty' width' signed' n') :
    slot = slot' ∧ index = index' ∧ ty = ty' ∧ width = width' ∧ signed = signed' ∧ n = n' := by
  obtain ⟨v, vectorTy, element, hhead, hv, hvector⟩ := h.vector
  obtain ⟨v', vectorTy', element', hhead', hv', hvector'⟩ := h'.vector
  cases hhead.symm.trans hhead'
  cases hv.unique hv'
  cases hvector.unique hvector'
  cases h.access.symm.trans h'.access
  cases h.operand.symm.trans h'.operand
  cases h.has.unique h'.has
  cases h.isInt.unique h'.isInt
  exact ⟨rfl, rfl, rfl, rfl, rfl, rfl⟩

/-- The index of a guarded access is a modulo by the length of the vector. -/
theorem Guarded.isModulo {earlier : List InstrId} (h : Guarded m earlier i)
    (hacc : Accesses m i slot index ty width signed n) :
    ∃ d j, index = .instr d ∧ m.instrs[d.index]? = some j ∧ IsModulo m j ty signed n := by
  obtain ⟨d, _, slot', ty', width', signed', n', j, hacc', hj, hmod⟩ := h
  obtain ⟨rfl, rfl, rfl, rfl, rfl, rfl⟩ := hacc.unique hacc'
  exact ⟨d, j, rfl, hj, hmod⟩

end Later

/-! ### One instruction -/

section Step

variable {m : Module} {id : InstrId} {i : Instr} {slot n width : Nat} {index : Value}
  {ty : EntryId} {signed : Bool}

/-- Whatever is no access is passed by. -/
theorem bound_of_slot?_eq_none (hi : m.instrs[id.index]? = some i) (h : slot? i.opcode = none) :
    bound m id = .ok (none, m) := by
  have haccess : access? m i = .ok none := by
    simp only [access?, h]
    rfl
  simp [bound, Module.instr_eq_ok.mpr hi, haccess, bind, Except.bind, pure, Except.pure]

/-- The module with the length of an access. -/
def withLength (m : Module) (ty : EntryId) (signed : Bool) (n : Nat) : Module :=
  (m.internConst (.scalar ty (lengthLiteral signed n))).2

theorem le_withLength (m : Module) (ty : EntryId) (signed : Bool) (n : Nat) :
    m ≤ withLength m ty signed n :=
  ⟨m.table.le_intern _, fun hi => ⟨_, hi, rfl, rfl⟩, fun hn => hn⟩

/-- Asked by its length, the index of an access is a modulo where the answer is yes. -/
theorem isModuloBy_iff {length : EntryId} (hindex : m.Has index ty)
    (hfind : m.table.find? (.const (.scalar ty (lengthLiteral signed n))) = some length) :
    isModuloBy m length index = .ok true ↔ ∃ d j, index = .instr d ∧
      m.instrs[d.index]? = some j ∧ IsModulo m j ty signed n := by
  rw [isModuloBy_eq_true]
  constructor
  · rintro ⟨d, j, rfl, hj, hop, hoperand⟩
    obtain ⟨j', hj', hty⟩ := Module.has_instr.mp hindex
    cases hj.symm.trans hj'
    exact ⟨d, j, rfl, hj, hop, hty, length, hoperand, hfind⟩
  · rintro ⟨d, j, rfl, hj, hmod⟩
    obtain ⟨length', hoperand, hfind'⟩ := hmod.length
    cases hfind.symm.trans hfind'
    exact ⟨d, j, rfl, hj, hmod.opcode, hoperand⟩

/-- An access keeps an index that is a modulo by its length, and any other index gets
one. -/
theorem bound_of_accesses (hi : m.instrs[id.index]? = some i)
    (h : Accesses m i slot index ty width signed n)
    (hindex : ∀ d, index = .instr d → d.index < m.instrs.size) :
    (∃ d j, index = .instr d ∧ m.instrs[d.index]? = some j ∧
      IsModulo (withLength m ty signed n) j ty signed n ∧
      bound m id = .ok (none, withLength m ty signed n)) ∨
    (∀ d j, index = .instr d → m.instrs[d.index]? = some j →
      ¬ IsModulo (withLength m ty signed n) j ty signed n) ∧
    ∃ j : Instr, j.opcode = (if signed then .sMod else .uMod) ∧
      IsModulo (withLength m ty signed n) j ty signed n ∧
      bound m id =
        .ok (some ⟨m.instrs.size⟩, withModulo (withLength m ty signed n) id slot j) := by
  obtain ⟨length, hlength⟩ : ∃ length,
      m.internConst (.scalar ty (lengthLiteral signed n)) = (length, withLength m ty signed n) :=
    ⟨_, rfl⟩
  have hfind : (withLength m ty signed n).table.find?
      (.const (.scalar ty (lengthLiteral signed n))) = some length := by
    rw [show length = (m.internConst (.scalar ty (lengthLiteral signed n))).1 by rw [hlength]]
    exact m.table.find?_intern _
  let modulo : Instr := ⟨if signed then .sMod else .uMod, some ty, [.value index, .entry length]⟩
  have hinsert : IsModulo (withLength m ty signed n) modulo ty signed n :=
    ⟨by cases signed <;> simp [modulo], rfl, length, rfl, hfind⟩
  have hbound : bound m id = (do
      if ← isModuloBy (withLength m ty signed n) length index then
        return (none, withLength m ty signed n)
      return (some ⟨m.instrs.size⟩, withModulo (withLength m ty signed n) id slot modulo)) := by
    simp only [bound, Module.instr_eq_ok.mpr hi, access?_of_accesses h,
      Module.intConstant_eq h.isInt h.count, hlength, bind, Except.bind]
    rfl
  have hiff := isModuloBy_iff (h.has.mono (le_withLength m ty signed n)) hfind
  obtain ⟨answer, hanswer⟩ : ∃ answer,
      isModuloBy (withLength m ty signed n) length index = .ok answer :=
    isModuloBy_answers fun d hd => ⟨_, Array.getElem?_eq_getElem (hindex d hd)⟩
  rw [hanswer] at hbound
  cases answer with
  | true =>
    obtain ⟨d, j, hd, hj, hmod⟩ := hiff.mp hanswer
    exact .inl ⟨d, j, hd, hj, hmod, hbound⟩
  | false =>
    refine .inr ⟨fun d j hd hj hmod => ?_, modulo, rfl, hinsert, hbound⟩
    cases hanswer.symm.trans (hiff.mpr ⟨d, j, hd, hj, hmod⟩)

/-- The access is one still, at the modulo. -/
theorem accesses_withModulo {j : Instr} (hi : m.instrs[id.index]? = some i)
    (h : Accesses m i slot index ty width signed n) (hmod : IsModulo m j ty signed n) :
    Accesses (withModulo m id slot j) (i.setOperand slot (.instr ⟨m.instrs.size⟩)) slot
      (.instr ⟨m.instrs.size⟩) ty width signed n :=
  (h.mono (le_withModulo hi slot j)).setOperand
    (Module.has_instr.mpr ⟨j, withModulo_modulo hi slot j, hmod.type⟩)

end Step

/-! ### Streams -/

/-- A modulo of the signedness of its type. -/
def Matches (m : Module) (j : Instr) : Prop :=
  ∃ ty width signed, j.resultType = some ty ∧ m.table.IsType ty (.int width signed) ∧
    j.opcode = if signed then .sMod else .uMod

/-- Every access of a stream can be bounded: its index is there before it. Some
instructions are known from before the stream. -/
def Ready (m : Module) (known stream : List InstrId) : Prop :=
  ∀ pre id post, stream = pre ++ id :: post → ∀ i, m.instrs[id.index]? = some i →
    (slot? i.opcode).isSome → ∃ slot index ty width signed n,
      Accesses m i slot index ty width signed n ∧ ∀ d, index = .instr d → d ∈ known ++ pre

/-- Every access of a stream is guarded by an instruction of the stream. -/
def AllGuarded (m : Module) (stream : List InstrId) : Prop :=
  ∀ pre id post, stream = pre ++ id :: post → ∀ i, m.instrs[id.index]? = some i →
    (slot? i.opcode).isSome → Guarded m pre i

/-- A stream is bounded up to a place. The slots from `old` on hold the modulos that
were put in. -/
structure Halfway (old : Nat) (m : Module) (done todo : List InstrId) : Prop where
  known : ∀ id ∈ done ++ todo, id.index < m.instrs.size
  ready : Ready m done todo
  guarded : AllGuarded m done
  fresh : ∀ k j, old ≤ k → m.instrs[k]? = some j → Matches m j

section Run

variable {m m' : Module} {old : Nat} {done todo : List InstrId} {id : InstrId}

theorem split_concat {α : Type} {l pre post : List α} {a x : α} (h : l ++ [a] = pre ++ x :: post) :
    (pre = l ∧ x = a) ∨ ∃ post', l = pre ++ x :: post' := by
  rcases List.eq_nil_or_concat post with rfl | ⟨post', b, rfl⟩
  · obtain ⟨rfl, hx⟩ := List.append_inj' h rfl
    exact .inl ⟨rfl, (List.singleton_inj.mp hx).symm⟩
  · rw [List.concat_eq_append, ← List.cons_append, ← List.append_assoc] at h
    exact .inr ⟨post', (List.append_inj' h rfl).1⟩

theorem AllGuarded.concat (h : AllGuarded m done)
    (hid : ∀ i, m.instrs[id.index]? = some i → (slot? i.opcode).isSome → Guarded m done i) :
    AllGuarded m (done ++ [id]) := by
  intro pre x post hsplit i hi hslot
  rcases split_concat hsplit with ⟨rfl, rfl⟩ | ⟨post', hdone⟩
  · exact hid i hi hslot
  · exact h pre x post' hdone i hi hslot

/-- What guards an access is no access, so it stays as it is. -/
theorem Guarded.mono (hle : m ≤ m') (hframe : ∀ {k : Nat} {j : Instr}, m.instrs[k]? = some j →
      slot? j.opcode = none → m'.instrs[k]? = some j) {earlier : List InstrId} {i : Instr}
    (h : Guarded m earlier i) : Guarded m' earlier i := by
  obtain ⟨d, hd, slot, ty, width, signed, n, j, hacc, hj, hmod⟩ := h
  exact ⟨d, hd, slot, ty, width, signed, n, j, hacc.mono hle, hframe hj (slot?_of_isModulo hmod),
    hmod.mono hle⟩

theorem Matches.mono (hle : m ≤ m') {j : Instr} (h : Matches m j) : Matches m' j := by
  obtain ⟨ty, width, signed, hty, hint, hop⟩ := h
  exact ⟨ty, width, signed, hty, hle.table hint, hop⟩

theorem slot?_of_matches {j : Instr} (h : Matches m j) : slot? j.opcode = none := by
  obtain ⟨_, _, signed, _, _, hop⟩ := h
  rw [hop]
  cases signed <;> rfl

/-- The same instructions may have a later table. -/
theorem Halfway.mono (h : Halfway old m done todo) (hle : m ≤ m') (hinstrs : m'.instrs = m.instrs) :
    Halfway old m' done todo where
  known := by
    rw [hinstrs]
    exact h.known
  ready := by
    intro pre x post hsplit i hi hslot
    rw [hinstrs] at hi
    obtain ⟨slot, index, ty, width, signed, n, hacc, hindex⟩ := h.ready pre x post hsplit i hi hslot
    exact ⟨slot, index, ty, width, signed, n, hacc.mono hle, hindex⟩
  guarded := by
    intro pre x post hsplit i hi hslot
    rw [hinstrs] at hi
    exact (h.guarded pre x post hsplit i hi hslot).mono hle fun hj _ => by rwa [hinstrs]
  fresh := fun k j hk hj => (h.fresh k j hk (by rwa [← hinstrs])).mono hle

/-- An instruction that is no access, or that is guarded already, is passed by. -/
theorem Halfway.keep (h : Halfway old m done (id :: todo))
    (hid : ∀ i, m.instrs[id.index]? = some i → (slot? i.opcode).isSome → Guarded m done i) :
    Halfway old m (done ++ [id]) todo where
  known := by simpa using h.known
  ready := by
    intro pre x post hsplit i hi hslot
    obtain ⟨slot, index, ty, width, signed, n, hacc, hindex⟩ :=
      h.ready (id :: pre) x post (by rw [hsplit, List.cons_append]) i hi hslot
    exact ⟨slot, index, ty, width, signed, n, hacc, by simpa using hindex⟩
  guarded := h.guarded.concat hid
  fresh := h.fresh

section Insert

variable {i j : Instr} {slot n width : Nat} {index : Value} {ty : EntryId} {signed : Bool}

/-- What comes behind an access can be bounded behind its modulo. -/
theorem Ready.insert (h : Ready m done (id :: todo))
    (hknown : ∀ x ∈ todo, x.index < m.instrs.size) (hi : m.instrs[id.index]? = some i)
    (hacc : Accesses m i slot index ty width signed n) (hmod : IsModulo m j ty signed n) :
    Ready (withModulo m id slot j) (done ++ [⟨m.instrs.size⟩] ++ [id]) todo := by
  intro pre x post hsplit i' hi' hslot
  by_cases hx : x = id
  · -- the access once more: now its index is the modulo
    subst hx
    cases (withModulo_access hi slot j).symm.trans hi'
    exact ⟨slot, _, ty, width, signed, n, accesses_withModulo hi hacc hmod,
      fun d hd => by cases hd; simp⟩
  · have hold := withModulo_of_ne hi slot j hx (hknown x (by simp [hsplit])) hi'
    obtain ⟨slot', index', ty', width', signed', n', hacc', hindex⟩ :=
      h (id :: pre) x post (by rw [hsplit, List.cons_append]) i' hold hslot
    refine ⟨slot', index', ty', width', signed', n', hacc'.mono (le_withModulo hi slot j),
      fun d hd => ?_⟩
    have := hindex d hd
    simp only [List.append_assoc, List.cons_append, List.nil_append, List.mem_append,
      List.mem_cons] at this ⊢
    tauto

/-- The modulo guards its access, and the accesses in front of it are not changed. -/
theorem AllGuarded.insert (h : AllGuarded m done) (hknown : ∀ x ∈ done, x.index < m.instrs.size)
    (hid : id ∉ done) (hi : m.instrs[id.index]? = some i)
    (hacc : Accesses m i slot index ty width signed n) (hmod : IsModulo m j ty signed n) :
    AllGuarded (withModulo m id slot j) (done ++ [⟨m.instrs.size⟩] ++ [id]) := by
  have hmodulo := withModulo_modulo hi slot j
  have hslot : (slot? i.opcode).isSome := by rw [hacc.access]; rfl
  refine AllGuarded.concat (AllGuarded.concat ?_ ?_) ?_
  · intro pre x post hsplit i' hi' hslot'
    have hx : x ≠ id := fun hx => hid (by simp [hsplit, hx])
    have hold := withModulo_of_ne hi slot j hx (hknown x (by simp [hsplit])) hi'
    exact (h pre x post hsplit i' hold hslot').mono (le_withModulo hi slot j)
      (withModulo_frame hi hslot slot j)
  · intro i' hi' hslot'
    cases hmodulo.symm.trans hi'
    rw [slot?_of_isModulo hmod] at hslot'
    cases hslot'
  · intro i' hi' _
    cases (withModulo_access hi slot j).symm.trans hi'
    exact ⟨_, by simp, slot, ty, width, signed, n, j, accesses_withModulo hi hacc hmod, hmodulo,
      hmod.mono (le_withModulo hi slot j)⟩

/-- The modulo joins those that were put in before. -/
theorem matches_withModulo (h : ∀ k j, old ≤ k → m.instrs[k]? = some j → Matches m j)
    (hi : m.instrs[id.index]? = some i) (hacc : Accesses m i slot index ty width signed n)
    (hop : j.opcode = if signed then .sMod else .uMod) (hmod : IsModulo m j ty signed n)
    {k : Nat} {j' : Instr} (hk : old ≤ k)
    (hj' : (withModulo m id slot j).instrs[k]? = some j') :
    Matches (withModulo m id slot j) j' := by
  have hle := le_withModulo hi slot j
  rw [getElem?_withModulo hi] at hj'
  split at hj'
  · -- what was put in is no access
    rename_i heq
    subst heq
    have := slot?_of_matches (h _ i hk hi)
    rw [hacc.access] at this
    cases this
  · split at hj'
    · cases hj'
      exact ⟨ty, width, signed, hmod.type, hle.table hacc.isInt, hop⟩
    · exact (h k j' hk hj').mono hle

/-- An access that is not guarded yet gets a modulo. -/
theorem Halfway.insert (h : Halfway old m done (id :: todo)) (hi : m.instrs[id.index]? = some i)
    (hacc : Accesses m i slot index ty width signed n) (hid : id ∉ done)
    (hop : j.opcode = if signed then .sMod else .uMod) (hmod : IsModulo m j ty signed n) :
    Halfway old (withModulo m id slot j) (done ++ [⟨m.instrs.size⟩] ++ [id]) todo where
  known := by
    intro x hx
    rw [size_withModulo]
    simp only [List.append_assoc, List.cons_append, List.nil_append, List.mem_append,
      List.mem_cons] at hx
    have hknown (hx : x ∈ done ++ id :: todo) : x.index < m.instrs.size + 1 :=
      Nat.lt_succ_of_lt (h.known x hx)
    rcases hx with hx | rfl | hx | hx
    · exact hknown (by simp [hx])
    · exact Nat.lt_succ_self _
    · exact hknown (by simp [hx])
    · exact hknown (by simp [hx])
  ready := h.ready.insert (fun x hx => h.known x (by simp [hx])) hi hacc hmod
  guarded := h.guarded.insert (fun x hx => h.known x (by simp [hx])) hid hi hacc hmod
  fresh := fun _ _ => matches_withModulo h.fresh hi hacc hop hmod

end Insert

/-- The next instruction of a stream is bounded. -/
theorem Halfway.step (h : Halfway old m done (id :: todo)) : ∃ inserted m',
    bound m id = .ok (inserted, m') ∧
      Halfway old m' (done ++ inserted.toList ++ [id]) todo := by
  obtain ⟨i, hi⟩ : ∃ i, m.instrs[id.index]? = some i :=
    ⟨_, Array.getElem?_eq_getElem (h.known id (by simp))⟩
  have hsame {i' : Instr} (hi' : m.instrs[id.index]? = some i') : i' = i :=
    Option.some.inj (hi'.symm.trans hi)
  cases hslot : slot? i.opcode with
  | none =>
    refine ⟨none, m, bound_of_slot?_eq_none hi hslot, ?_⟩
    rw [Option.toList_none, List.append_nil]
    refine h.keep fun i' hi' hsome => ?_
    rw [hsame hi', hslot] at hsome
    cases hsome
  | some _ =>
    have hsome : (slot? i.opcode).isSome := by rw [hslot]; rfl
    obtain ⟨slot, index, ty, width, signed, n, hacc, hindex⟩ := h.ready [] id todo rfl i hi hsome
    rw [List.append_nil] at hindex
    have hle := le_withLength m ty signed n
    have hlater : Halfway old (withLength m ty signed n) done (id :: todo) := h.mono hle rfl
    rcases bound_of_accesses hi hacc fun d hd =>
        h.known d (List.mem_append_left _ (hindex d hd)) with
      ⟨d, j, rfl, hj, hmod, hbound⟩ | ⟨hno, j, hop, hmod, hbound⟩
    · refine ⟨none, _, hbound, ?_⟩
      rw [Option.toList_none, List.append_nil]
      refine hlater.keep fun i' hi' _ => ?_
      obtain rfl := hsame hi'
      exact ⟨d, hindex d rfl, slot, ty, width, signed, n, j, hacc.mono hle, hj, hmod⟩
    · refine ⟨some _, _, hbound, ?_⟩
      -- Had the instruction been passed before, its index would be a modulo by now.
      have hid : id ∉ done := by
        intro hmem
        obtain ⟨pre, post, hsplit⟩ := List.append_of_mem hmem
        obtain ⟨d, j', hd, hj', hmod'⟩ := (h.guarded pre id post hsplit i hi hsome).isModulo hacc
        exact hno d j' hd hj' (hmod'.mono hle)
      exact hlater.insert hi (hacc.mono hle) hid hop hmod

/-- All of a stream is bounded. -/
theorem Halfway.run (h : Halfway old m done todo) : ∃ stream count m',
    boundAll m todo = .ok (stream, count, m') ∧ Halfway old m' (done ++ stream) [] := by
  induction todo generalizing m done with
  | nil => exact ⟨[], 0, m, rfl, by simpa using h⟩
  | cons id todo ih =>
    obtain ⟨inserted, m₁, hbound, h₁⟩ := h.step
    obtain ⟨stream, count, m₂, hrest, h₂⟩ := ih h₁
    cases inserted with
    | none =>
      refine ⟨id :: stream, count, m₂, ?_, by simpa using h₂⟩
      simp only [boundAll, hbound, hrest, bind, Except.bind]
      rfl
    | some modulo =>
      refine ⟨modulo :: id :: stream, count + 1, m₂, ?_, by simpa using h₂⟩
      simp only [boundAll, hbound, hrest, bind, Except.bind]
      rfl

end Run

end DynamicIndex

/-! ### Shaders -/

namespace Shader

open DynamicIndex

/-- The accesses of a shader can be bounded: its body names instructions of the
arena, and each access has a vector of a length that its index type holds and an
index that comes before it. -/
structure Boundable (s : Shader) : Prop where
  body : ∀ id ∈ s.body, id.index < s.code.instrs.size
  ready : Ready s.code [] s.body.toList

/-- The index of every access is an earlier modulo by the number of components, a
constant of the index's own type. A modulo from slot `old` on has the signedness of
that type. The value used as index is in range whatever the bits of the other operand
are, unless the modulo is a signed one at an unsigned type, by a length of the upper
half that is not the last. -/
def IndicesBounded (old : Nat) (s : Shader) : Prop :=
  ∀ pre id post, s.body.toList = pre ++ id :: post →
    ∀ i, s.code.instrs[id.index]? = some i → (slot? i.opcode).isSome →
      ∃ d ∈ pre, ∃ slot ty width signed n j length,
        Accesses s.code i slot (.instr d) ty width signed n ∧
        s.code.instrs[d.index]? = some j ∧ (j.opcode = .sMod ∨ j.opcode = .uMod) ∧
        j.resultType = some ty ∧ j.operands[1]? = some (.entry length) ∧
        s.code.table.IsConst length (.scalar ty (lengthLiteral signed n)) ∧
        (old ≤ d.index → j.opcode = if signed then .sMod else .uMod) ∧
        ((∀ raw r : BitVec width, j.opcode.modulo? raw (.ofNat width n) = some r →
            0 ≤ indexValue signed r ∧ indexValue signed r < n) ↔
          (j.opcode = .sMod → signed = false → 2 * n < 2 ^ width ∨ n + 1 = 2 ^ width))

/-- Bounding the accesses of a shader comes to an end and leaves every index bounded. -/
theorem boundIndices_bounded {s : Shader} (hs : s.Boundable) :
    ∃ count s', s.boundIndices = .ok (count, s') ∧ s'.IndicesBounded s.code.instrs.size := by
  have hstart : Halfway s.code.instrs.size s.code [] s.body.toList := {
    known := fun id hid => hs.body id (by simpa using hid)
    ready := hs.ready
    guarded := fun pre id post hsplit => by simp at hsplit
    fresh := fun k j hk hj => absurd (Array.getElem?_eq_some_iff.mp hj).1 (Nat.not_lt.mpr hk) }
  obtain ⟨stream, count, m, hbound, h⟩ := hstart.run
  refine ⟨count, { s with code := m, body := stream.toArray, numbering := none }, ?_, ?_⟩
  · simp only [boundIndices, hbound, bind, Except.bind]
    rfl
  intro pre id post hsplit i hi hslot
  obtain ⟨d, hd, slot, ty, width, signed, n, j, hacc, hj, hmod⟩ :=
    h.guarded pre id post (by simpa using hsplit) i hi hslot
  obtain ⟨length, hoperand, hfind⟩ := hmod.length
  refine ⟨d, hd, slot, ty, width, signed, n, j, length, hacc, hj, hmod.opcode, hmod.type, hoperand,
    Table.find?_eq_some hfind, fun hold => ?_, ?_⟩
  · obtain ⟨ty', width', signed', hty', hint, hop⟩ := h.fresh _ j hold hj
    cases hmod.type.symm.trans hty'
    cases hint.unique hacc.isInt
    exact hop
  · rw [modulo_mem_iff hmod.opcode hacc.nonempty hacc.holds]
    refine imp_congr_right fun _ => ⟨fun h _ => h, fun h => ?_⟩
    cases signed with
    | false => exact h rfl
    | true => exact .inl (two_mul_lt_of_inRange hacc.nonempty hacc.holds)

/-- A long vector, read at a signed modulo of an unsigned byte and written at the
byte itself. -/
def longVector : Shader where
  code := {
    table := .ofList
      [.type (.int 8 false), .type (.vector ⟨0⟩ 200), .const (.scalar ⟨0⟩ (.uint 200))]
    instrs := #[
      ⟨.functionParameter, some ⟨1⟩, []⟩,
      ⟨.functionParameter, some ⟨0⟩, []⟩,
      ⟨.sMod, some ⟨0⟩, [.instr ⟨1⟩, .entry ⟨2⟩]⟩,
      ⟨.vectorExtractDynamic, some ⟨0⟩, [.instr ⟨0⟩, .instr ⟨2⟩]⟩,
      ⟨.vectorInsertDynamic, some ⟨1⟩, [.instr ⟨0⟩, .instr ⟨3⟩, .instr ⟨1⟩]⟩] }
  body := #[⟨0⟩, ⟨1⟩, ⟨2⟩, ⟨3⟩, ⟨4⟩]
  entryPoint := ⟨0⟩

theorem longVector_boundable : longVector.Boundable where
  body := by decide
  ready := by
    have hinRange : InRange 8 false (200 : Nat) := ⟨by norm_num, by norm_num⟩
    -- The instruction is known by the number of those before it.
    rintro (_ | ⟨_, _ | ⟨_, _ | ⟨_, _ | ⟨_, _ | ⟨_, pre⟩⟩⟩⟩⟩) id post hsplit i hi hslot
    · cases hsplit
      cases hi
      cases hslot
    · cases hsplit
      cases hi
      cases hslot
    · cases hsplit
      cases hi
      cases hslot
    · cases hsplit
      cases hi
      refine ⟨1, .instr ⟨2⟩, ⟨0⟩, 8, false, 200, ?_, fun d hd => by cases hd; simp⟩
      exact ⟨rfl, ⟨.instr ⟨0⟩, ⟨1⟩, ⟨0⟩, rfl, rfl, rfl⟩, rfl, rfl, rfl, by decide, by decide,
        hinRange⟩
    · cases hsplit
      cases hi
      refine ⟨2, .instr ⟨1⟩, ⟨0⟩, 8, false, 200, ?_, fun d hd => by cases hd; simp⟩
      exact ⟨rfl, ⟨.instr ⟨0⟩, ⟨1⟩, ⟨0⟩, rfl, rfl, rfl⟩, rfl, rfl, rfl, by decide, by decide,
        hinRange⟩
    · simp [longVector] at hsplit

theorem longVector_bounded : longVector.Boundable ∧ ∃ count s',
    longVector.boundIndices = .ok (count, s') ∧ s'.IndicesBounded 5 :=
  ⟨longVector_boundable, boundIndices_bounded longVector_boundable⟩

/-- A modulo put in front of the write is the only one that is new. -/
example : (fun x => (x.1, x.2.opcodes)) <$> longVector.boundIndices.toOption =
    some (1, [.functionParameter, .functionParameter, .sMod, .vectorExtractDynamic, .uMod,
      .vectorInsertDynamic]) := by
  decide +kernel

/-- The signed modulo of the last byte by the length is that byte, which is no
component. -/
example : Opcode.modulo? .sMod (255#8) (.ofNat 8 200) = some 255#8 := by
  decide

end Shader

end ShaderGen
