import ShaderGen.Proofs.Typing
import ShaderGen.Statement.Composite
import ShaderGen.Statement.Conversion
import ShaderGen.Statement.Extended
import ShaderGen.Statement.Linear

/-!
What questions about types answer in a well-formed table, and what a type is that
passes a test. The searches of the generator only ever see these answers, so a
statement is followed from the shapes its operands are known to have.
-/

namespace ShaderGen

/-! ### Fallible computations -/

section Steps

variable {α β ε : Type}

/-- Two steps succeed exactly if each of them does. -/
theorem bind_eq_ok {x : Except ε α} {f : α → Except ε β} {b : β} :
    x >>= f = .ok b ↔ ∃ a, x = .ok a ∧ f a = .ok b := by
  cases x <;> simp [bind, Except.bind]

theorem pure_eq_ok {a b : α} : (pure a : Except ε α) = .ok b ↔ a = b := by
  simp [pure, Except.pure]

theorem map_eq_ok {x : Except ε α} {f : α → β} {b : β} :
    f <$> x = .ok b ↔ ∃ a, x = .ok a ∧ f a = b := by
  cases x <;> simp [Functor.map, Except.map]

theorem toOption_eq_some {x : Except ε α} {a : α} : x.toOption = some a ↔ x = .ok a := by
  cases x <;> simp [Except.toOption]

/-- A number that fits its word is answered. -/
theorem Fault.checkWord_eq_ok {bits n k : Nat} :
    checkWord bits n = .ok k ↔ n < 2 ^ bits ∧ n = k := by
  change (if n < 2 ^ bits then Except.ok n else .error Fault.overflow) = .ok k ↔ _
  split_ifs with hfit
  · simp [hfit]
  · simp [hfit]

end Steps

theorem Ty.isScalar_of_mem {ty : Ty} (h : ty.opcode ∈ Category.scalarType.members) :
    ty.isScalar = true := by
  cases ty <;> first | rfl | (revert h; simp [Ty.opcode, Category.members])

namespace Module

variable {c : Config} {m : Module}

/-! ### Slots -/

theorem typeAt_eq_ok {id : EntryId} {ty : Ty} :
    m.typeAt id = .ok ty ↔ m.table.IsType id ty := by
  simp only [typeAt, Table.IsType]
  rcases m.table.get? id with _ | _ | _ | _ <;> simp

theorem instr_eq_ok {id : InstrId} {i : Instr} :
    m.instr id = .ok i ↔ m.instrs[id.index]? = some i := by
  simp only [Module.instr]
  rcases m.instrs[id.index]? with _ | _ <;> simp

theorem constantNat?_of_isIndex {id : EntryId} {n : Nat} (h : m.table.IsIndex id n) :
    m.constantNat? id = .ok (some n) := by
  obtain ⟨ty, hk, _⟩ := h
  simp only [constantNat?, constantAt?, entity, hk]
  rfl

/-! ### Base types -/

/-- The search for the base type ends at once at a type without parts of its own
kind. -/
theorem baseTypeWithin_of_isType {fuel : Nat} {id : EntryId} {ty : Ty}
    (h : m.table.IsType id ty) (hv : ty.isVector = false) (hm : ty.isMatrix = false) :
    m.baseTypeWithin (fuel + 1) id = .ok id := by
  simp only [baseTypeWithin, typeAt_eq_ok.mpr h]
  cases ty with
  | vector => simp [Ty.isVector] at hv
  | matrix => simp [Ty.isMatrix] at hm
  | _ => rfl

theorem baseTypeWithin_of_vector {fuel : Nat} {id element : EntryId} {n : Nat}
    (h : m.table.IsType id (.vector element n)) :
    m.baseTypeWithin (fuel + 1) id = m.baseTypeWithin fuel element := by
  simp only [baseTypeWithin, typeAt_eq_ok.mpr h]
  rfl

theorem baseTypeWithin_of_matrix {fuel : Nat} {id column : EntryId} {n : Nat}
    (h : m.table.IsType id (.matrix column n)) :
    m.baseTypeWithin (fuel + 1) id = m.baseTypeWithin fuel column := by
  simp only [baseTypeWithin, typeAt_eq_ok.mpr h]
  rfl

theorem not_vector_of_isScalar {ty : Ty} (h : ty.isScalar = true) :
    ty.isVector = false ∧ ty.isMatrix = false := by
  cases ty <;> first | exact ⟨rfl, rfl⟩ | (simp [Ty.isScalar] at h)

theorem baseTypeWithin_of_lanes {fuel : Nat} {id scalar : EntryId} {n : Nat}
    (h : m.table.Lanes id scalar n) : m.baseTypeWithin (fuel + 2) id = .ok scalar := by
  cases h with
  | scalar h hs =>
    obtain ⟨hv, hm⟩ := not_vector_of_isScalar hs
    exact baseTypeWithin_of_isType h hv hm
  | vector h h' hs =>
    obtain ⟨hv, hm⟩ := not_vector_of_isScalar hs
    rw [baseTypeWithin_of_vector h]
    exact baseTypeWithin_of_isType h' hv hm

theorem baseType_of_lanes {id scalar : EntryId} {n : Nat} (h : m.table.Lanes id scalar n) :
    m.baseType id = .ok scalar := by
  obtain ⟨_, hty, _⟩ := h.isScalar
  have hsize := Table.lt_size_of_get? hty
  obtain ⟨fuel, hfuel⟩ : ∃ fuel, m.table.size + 1 = fuel + 2 := ⟨m.table.size - 1, by omega⟩
  rw [baseType, hfuel]
  exact baseTypeWithin_of_lanes h

theorem baseType_of_isMatrix {id column scalar : EntryId} {columns rows : Nat}
    (h : m.table.IsMatrix id column scalar columns rows) : m.baseType id = .ok scalar := by
  obtain ⟨hid, hcol⟩ := h
  have hid' := Table.lt_size_of_get? hid
  have hcol' := Table.lt_size_of_get? hcol.1
  -- the matrix and its column are two entries, which is room for the three steps
  have hne : id.index ≠ column.index := by
    intro heq
    have : id = column := by cases id; cases column; simpa using heq
    subst this
    simpa using hid.unique hcol.1
  obtain ⟨fuel, hfuel⟩ : ∃ fuel, m.table.size + 1 = fuel + 3 := ⟨m.table.size - 2, by omega⟩
  rw [baseType, hfuel, baseTypeWithin_of_matrix hid]
  exact baseTypeWithin_of_lanes hcol.lanes

theorem baseTy_eq_ok {id : EntryId} {ty : Ty} :
    m.baseTy id = .ok ty ↔ ∃ base, m.baseType id = .ok base ∧ m.table.IsType base ty := by
  simp only [baseTy, bind_eq_ok, typeAt_eq_ok]

/-! ### Parts -/

theorem componentCount_of_arity (hwf : m.table.WellFormed c) {id : EntryId} {n : Nat}
    (h : m.table.Arity id n) : m.componentCount id = .ok n := by
  cases h with
  | vector h | matrix h =>
    simp only [componentCount, typeAt_eq_ok.mpr h]
    rfl
  | array h hl =>
    obtain ⟨_, n', hn', _, hle⟩ := hwf.entry h
    have heq : n' = n := by
      obtain ⟨_, hk, _⟩ := hn'
      cases hk.unique hl
      rfl
    subst heq
    have hlt : n' < UInt32.size := by
      have : UInt32.size = 4294967296 := rfl
      omega
    simp only [componentCount, typeAt_eq_ok.mpr h, bind, Except.bind, constantNat?_of_isIndex hn']
    rw [Option.filter_some_pos (by simpa using hlt)]
    rfl
  | struct h =>
    simp only [componentCount, typeAt_eq_ok.mpr h]
    rfl

theorem componentCount_of_lanes {id scalar : EntryId} {n : Nat} (h : m.table.Lanes id scalar n) :
    m.componentCount id = .ok n := by
  cases h with
  | scalar h hs =>
    simp only [componentCount, typeAt_eq_ok.mpr h]
    rename_i ty
    cases ty <;> first | rfl | (simp [Ty.isScalar] at hs)
  | vector h _ _ =>
    simp only [componentCount, typeAt_eq_ok.mpr h]
    rfl

theorem elementType?_eq_ok {id element : EntryId} (h : m.elementType? id = .ok (some element)) :
    (∃ n, m.table.IsType id (.vector element n)) ∨ (∃ n, m.table.IsType id (.matrix element n)) ∨
      ∃ length, m.table.IsType id (.array element length) := by
  simp only [elementType?, bind_eq_ok, typeAt_eq_ok, pure_eq_ok] at h
  obtain ⟨ty, hty, h⟩ := h
  cases ty <;> cases h
  · exact .inl ⟨_, hty⟩
  · exact .inr (.inl ⟨_, hty⟩)
  · exact .inr (.inr ⟨_, hty⟩)

/-- A part that is found is a part of the type. -/
theorem part_of_memberType? (hwf : m.table.WellFormed c) {id part : EntryId} {i : Nat}
    (h : m.memberType? id i = .ok (some part)) : m.table.Part id i part := by
  simp only [memberType?, bind_eq_ok, typeAt_eq_ok] at h
  obtain ⟨ty, hty, h⟩ := h
  by_cases hs : ∃ members, ty = .struct members
  · obtain ⟨members, rfl⟩ := hs
    exact .struct hty (pure_eq_ok.mp h)
  · -- all other types are asked for their count first
    have h' : ∃ count, m.componentCount id = .ok count ∧
        (if i < count then m.elementType? id else pure none) = .ok (some part) := by
      cases ty <;> first | exact bind_eq_ok.mp h | exact absurd ⟨_, rfl⟩ hs
    obtain ⟨count, hcount, h'⟩ := h'
    split at h'
    · rename_i hi
      rcases elementType?_eq_ok h' with ⟨n, hv⟩ | ⟨n, hm⟩ | ⟨length, ha⟩
      · rw [componentCount_of_arity hwf (.vector hv)] at hcount
        exact .vector hv (by simp at hcount; omega)
      · rw [componentCount_of_arity hwf (.matrix hm)] at hcount
        exact .matrix hm (by simp at hcount; omega)
      · obtain ⟨_, n, ⟨ty, hk, _⟩, _⟩ := hwf.entry ha
        rw [componentCount_of_arity hwf (.array ha hk)] at hcount
        exact .array ha hk (by simp at hcount; omega)
    · cases h'

/-- A composite has at least one part and at most eight. -/
theorem arity_of_isComposite (hwf : m.table.WellFormed c) {id : EntryId} {ty : Ty}
    (h : m.table.IsType id ty) (hc : ty.isComposite = true) :
    ∃ n, m.table.Arity id n ∧ 1 ≤ n ∧ n ≤ 8 := by
  have hty := hwf.entry h
  cases ty with
  | vector element n =>
    obtain ⟨⟨h2, h4⟩, _⟩ := hty
    exact ⟨n, .vector h, by omega, by omega⟩
  | matrix column n =>
    obtain ⟨⟨h2, h4⟩, _⟩ := hty
    exact ⟨n, .matrix h, by omega, by omega⟩
  | array element length =>
    obtain ⟨_, n, ⟨_, hk, _⟩, hn⟩ := hty
    exact ⟨n, .array h hk, hn⟩
  | struct members =>
    obtain ⟨⟨h1, h4⟩, _⟩ := hty
    exact ⟨members.length, .struct h, h1, by omega⟩
  | void | bool | int | float | pointer | function => simp [Ty.isComposite] at hc

theorem arity_of_componentCount (hwf : m.table.WellFormed c) {id : EntryId} {ty : Ty} {n : Nat}
    (h : m.table.IsType id ty) (hc : ty.isComposite = true) (hn : m.componentCount id = .ok n) :
    m.table.Arity id n := by
  obtain ⟨n', hn', _⟩ := arity_of_isComposite hwf h hc
  rw [componentCount_of_arity hwf hn'] at hn
  exact Except.ok.inj hn ▸ hn'

theorem pointee?_eq_ok {id pointee : EntryId} {storage : StorageClass}
    (h : m.pointee? id = .ok (some (storage, pointee))) :
    m.table.IsType id (.pointer storage pointee) := by
  simp only [pointee?, bind_eq_ok, typeAt_eq_ok, pure_eq_ok] at h
  obtain ⟨ty, hty, h⟩ := h
  cases ty <;> cases h
  exact hty

end Module

/-! ### Tests -/

section FilterM

variable {α : Type} {p : α → Except Fault Bool}

theorem mem_of_filterAuxM {xs acc ys : List α} (h : xs.filterAuxM p acc = .ok ys) {a : α}
    (ha : a ∈ ys) : (a ∈ xs ∧ p a = .ok true) ∨ a ∈ acc := by
  induction xs generalizing acc with
  | nil =>
    cases h
    exact .inr ha
  | cons x xs ih =>
    rw [List.filterAuxM] at h
    rcases hx : p x with _ | _ | _ <;> rw [hx] at h
    · cases h
    · rcases ih h with ⟨hmem, hp⟩ | hacc
      · exact .inl ⟨List.mem_cons_of_mem x hmem, hp⟩
      · exact .inr hacc
    · rcases ih h with ⟨hmem, hp⟩ | hacc
      · exact .inl ⟨List.mem_cons_of_mem x hmem, hp⟩
      · rcases List.mem_cons.mp hacc with rfl | hacc
        · exact .inl ⟨List.mem_cons_self, hx⟩
        · exact .inr hacc

/-- What a test lets through is a member of the list that passes it. -/
theorem mem_of_filterM {xs ys : List α} (h : xs.filterM p = .ok ys) {a : α} (ha : a ∈ ys) :
    a ∈ xs ∧ p a = .ok true := by
  rw [List.filterM] at h
  rcases haux : xs.filterAuxM p [] with _ | zs <;> rw [haux] at h
  · cases h
  · cases h
    rcases mem_of_filterAuxM haux (List.mem_reverse.mp ha) with hm | hm
    · exact hm
    · cases hm

end FilterM

namespace Predicate

variable {c : Config} {m : Module} {id : EntryId}

theorem and_eq_true {p q : Predicate} :
    (p.and q) m id = .ok true ↔ p m id = .ok true ∧ q m id = .ok true := by
  simp only [Predicate.and]
  rcases p m id with _ | _ | _ <;> simp [bind, Except.bind, pure, Except.pure]

theorem or_eq_true {p q : Predicate} (h : (p.or q) m id = .ok true) :
    p m id = .ok true ∨ q m id = .ok true := by
  simp only [Predicate.or] at h
  rcases hp : p m id with _ | _ | _ <;> simp_all [bind, Except.bind, pure, Except.pure]

theorem ofTy_eq_true {test : Ty → Bool} :
    ofTy test m id = .ok true ↔ ∃ ty, m.table.IsType id ty ∧ test ty = true := by
  simp only [ofTy, ← Module.typeAt_eq_ok]
  rcases m.typeAt id with _ | _ <;> simp [Functor.map, Except.map]

theorem base_eq_true {test : Ty → Bool} : base test m id = .ok true ↔
    ∃ b ty, m.baseType id = .ok b ∧ m.table.IsType b ty ∧ test ty = true := by
  simp only [base]
  rcases h : m.baseTy id with _ | ty
  · simp only [Functor.map, Except.map, reduceCtorEq, false_iff]
    rintro ⟨b, ty, hb, hty, _⟩
    rw [Module.baseTy_eq_ok.mpr ⟨b, hb, hty⟩] at h
    cases h
  · obtain ⟨b, hb, hty⟩ := Module.baseTy_eq_ok.mp h
    simp only [Functor.map, Except.map, Except.ok.injEq]
    constructor
    · exact fun ht => ⟨b, ty, hb, hty, ht⟩
    · rintro ⟨b', ty', hb', hty', ht⟩
      rw [hb] at hb'
      cases hb'
      rwa [hty.unique hty']

theorem exactly_eq_true {ty : EntryId} : exactly ty m id = .ok true ↔ id = ty := by
  simp [exactly, pure, Except.pure]

theorem base_of_lanes {test : Ty → Bool} {scalar : EntryId} {n : Nat}
    (hl : m.table.Lanes id scalar n) (h : base test m id = .ok true) :
    ∃ ty, m.table.IsType scalar ty ∧ test ty = true := by
  obtain ⟨b, ty, hb, hty, ht⟩ := base_eq_true.mp h
  rw [Module.baseType_of_lanes hl] at hb
  cases hb
  exact ⟨ty, hty, ht⟩

/-- A test that counts components. -/
theorem componentCount_eq_true {n : Nat}
    (h : (do return decide ((← m.componentCount id) = n) : Except Fault Bool) = .ok true) :
    m.componentCount id = .ok n := by
  simp only [bind_eq_ok, pure_eq_ok, decide_eq_true_eq] at h
  obtain ⟨k, hk, rfl⟩ := h
  exact hk

/-- Lanes of one shape agree in number and in the width of their scalars. -/
theorem lanes_of_sameShape {a b sa sb : EntryId} {n k : Nat} {ta tb : Ty}
    (ha : m.table.Lanes a sa n) (hta : m.table.IsType sa ta) (hb : m.table.Lanes b sb k)
    (htb : m.table.IsType sb tb) (h : m.sameShape a b = .ok true) :
    n = k ∧ ta.scalarWidth? = tb.scalarWidth? := by
  simp only [Module.sameShape] at h
  rw [bind_eq_ok] at h
  obtain ⟨x, _, h⟩ := h
  rw [bind_eq_ok] at h
  obtain ⟨y, _, h⟩ := h
  simp only [Module.componentCount_of_lanes ha, Module.componentCount_of_lanes hb,
    Module.baseType_of_lanes ha, Module.baseType_of_lanes hb, Module.typeAt_eq_ok.mpr hta,
    Module.typeAt_eq_ok.mpr htb, bind, Except.bind, pure, Except.pure] at h
  split_ifs at h with _ hne
  · cases h
  · cases h
  · exact ⟨not_not.mp hne, by simpa using h⟩

section Scalars

variable (hwf : m.table.WellFormed c)
include hwf

theorem lanes_of_vector {element : EntryId} {n : Nat}
    (h : m.table.IsType id (.vector element n)) : m.table.Lanes id element n := by
  obtain ⟨_, ty, hty, hmem⟩ := hwf.entry h
  exact .vector h hty (Ty.isScalar_of_mem hmem)

theorem lanes_of_scalarOrVector (h : scalarOrVector m id = .ok true) :
    ∃ scalar n, m.table.Lanes id scalar n := by
  obtain ⟨ty, hty, ht⟩ := ofTy_eq_true.mp h
  rcases Bool.or_eq_true_iff.mp ht with hs | hv
  · exact ⟨id, 1, .scalar hty hs⟩
  · cases ty <;> first | exact ⟨_, _, lanes_of_vector hwf hty⟩ | (simp [Ty.isVector] at hv)

theorem intLanes_of_intLike (h : intLike m id = .ok true) :
    ∃ n width signed, m.table.IntLanes id n width signed := by
  obtain ⟨hlike, hbase⟩ := and_eq_true.mp h
  obtain ⟨scalar, n, hl⟩ := lanes_of_scalarOrVector hwf hlike
  obtain ⟨ty, hty, ht⟩ := base_of_lanes hl hbase
  cases ty <;> first | exact ⟨_, _, _, scalar, hl, hty⟩ | (simp [Ty.opcode] at ht)

theorem floatLanes_of_floatLike (h : floatLike m id = .ok true) :
    ∃ n width, m.table.FloatLanes id n width := by
  obtain ⟨hlike, hbase⟩ := and_eq_true.mp h
  obtain ⟨scalar, n, hl⟩ := lanes_of_scalarOrVector hwf hlike
  obtain ⟨ty, hty, ht⟩ := base_of_lanes hl hbase
  cases ty <;> first | exact ⟨_, _, scalar, hl, hty⟩ | (simp [Ty.opcode] at ht)

theorem boolLanes_of_boolLike (h : boolLike m id = .ok true) :
    ∃ n, m.table.BoolLanes id n := by
  obtain ⟨hlike, hbase⟩ := and_eq_true.mp h
  obtain ⟨scalar, n, hl⟩ := lanes_of_scalarOrVector hwf hlike
  obtain ⟨ty, hty, ht⟩ := base_of_lanes hl hbase
  obtain rfl := beq_iff_eq.mp ht
  exact ⟨n, scalar, hl, hty⟩

theorem intLanes_of_intLikeFor {op : Opcode} (h : intLikeFor op m id = .ok true) :
    ∃ n width signed, m.table.IntLanes id n width signed ∧ op.Admits signed := by
  unfold intLikeFor at h
  cases hop : op.signedness with
  | none =>
    rw [hop] at h
    obtain ⟨n, width, signed, hi⟩ := intLanes_of_intLike hwf h
    exact ⟨n, width, signed, hi, fun _ hs => by rw [hop] at hs; cases hs⟩
  | some asked =>
    rw [hop] at h
    obtain ⟨hlike, hbase⟩ := and_eq_true.mp h
    obtain ⟨n, width, signed, scalar, hl, hs⟩ := intLanes_of_intLike hwf hlike
    obtain ⟨ty, hty, ht⟩ := base_of_lanes hl hbase
    obtain rfl := hs.unique hty
    refine ⟨n, width, signed, ⟨scalar, hl, hs⟩, fun a ha => ?_⟩
    rw [hop] at ha
    cases ha
    exact (Option.some.inj (beq_iff_eq.mp ht)).symm

theorem isFloatVector_of_floatVector (h : floatVector m id = .ok true) :
    ∃ scalar n, m.table.IsFloatVector id scalar n := by
  obtain ⟨hv, hlike⟩ := and_eq_true.mp h
  obtain ⟨ty, hty, ht⟩ := ofTy_eq_true.mp hv
  obtain ⟨n, width, scalar, hl, hs⟩ := floatLanes_of_floatLike hwf hlike
  cases hl with
  | scalar h' hs' =>
    obtain rfl := hty.unique h'
    simp [(Module.not_vector_of_isScalar hs').1] at ht
  | vector h' _ _ => exact ⟨_, _, h', width, hs⟩

theorem vector_of_boolVector (h : boolVector m id = .ok true) :
    ∃ scalar n, m.table.IsType id (.vector scalar n) ∧ m.table.IsType scalar .bool := by
  obtain ⟨hv, hlike⟩ := and_eq_true.mp h
  obtain ⟨ty, hty, ht⟩ := ofTy_eq_true.mp hv
  obtain ⟨n, scalar, hl, hs⟩ := boolLanes_of_boolLike hwf hlike
  cases hl with
  | scalar h' hs' =>
    obtain rfl := hty.unique h'
    simp [(Module.not_vector_of_isScalar hs').1] at ht
  | vector h' _ _ => exact ⟨_, _, h', hs⟩

theorem isMatrix_of_isType {column : EntryId} {n : Nat}
    (h : m.table.IsType id (.matrix column n)) :
    ∃ scalar rows, m.table.IsMatrix id column scalar n rows := by
  obtain ⟨_, scalar, rows, hcol⟩ := hwf.entry h
  exact ⟨scalar, rows, h, hcol⟩

theorem isMatrix_of_matrix (h : matrix m id = .ok true) :
    ∃ column scalar columns rows, m.table.IsMatrix id column scalar columns rows := by
  obtain ⟨ty, hty, ht⟩ := ofTy_eq_true.mp h
  cases ty with
  | matrix column n =>
    obtain ⟨scalar, rows, hm⟩ := isMatrix_of_isType hwf hty
    exact ⟨column, scalar, n, rows, hm⟩
  | _ => simp [Ty.isMatrix] at ht

end Scalars

theorem width_of_lanes {bits : Nat} {scalar : EntryId} {n : Nat} {ty : Ty}
    (hl : m.table.Lanes id scalar n) (hs : m.table.IsType scalar ty)
    (h : width bits m id = .ok true) : ty.scalarWidth? = some bits := by
  obtain ⟨ty', hty, ht⟩ := base_of_lanes hl h
  obtain rfl := hs.unique hty
  exact beq_iff_eq.mp ht

theorem isType_of_int (h : int m id = .ok true) :
    ∃ width signed, m.table.IsType id (.int width signed) := by
  obtain ⟨ty, hty, ht⟩ := ofTy_eq_true.mp h
  cases ty <;> first | exact ⟨_, _, hty⟩ | (simp [Ty.opcode] at ht)

theorem isType_of_bool (h : bool m id = .ok true) : m.table.IsType id .bool := by
  obtain ⟨ty, hty, ht⟩ := ofTy_eq_true.mp h
  obtain rfl := beq_iff_eq.mp ht
  exact hty

theorem isType_of_vector (h : vector m id = .ok true) :
    ∃ element n, m.table.IsType id (.vector element n) := by
  obtain ⟨ty, hty, ht⟩ := ofTy_eq_true.mp h
  cases ty <;> first | exact ⟨_, _, hty⟩ | (simp [Ty.isVector] at ht)

theorem isData_of_data (h : data m id = .ok true) : m.table.IsData id := ofTy_eq_true.mp h

theorem isType_of_pointerTo {test : Predicate} (h : pointerTo test m id = .ok true) :
    ∃ storage pointee, m.table.IsType id (.pointer storage pointee) ∧
      test m pointee = .ok true := by
  simp only [pointerTo, bind_eq_ok] at h
  obtain ⟨_ | ⟨storage, pointee⟩, hp, h⟩ := h
  · cases h
  · exact ⟨storage, pointee, Module.pointee?_eq_ok hp, h⟩

end Predicate

end ShaderGen
