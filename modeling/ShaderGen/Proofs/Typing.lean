import Mathlib.Data.List.Forall2
import ShaderGen.Proofs.WellFormed

/-!
Typing rules. `Table.Yields` relates the types of the values an operation reads to
the type of its result, one rule for each group of opcodes that work alike.
`Module.Typed` says that an instruction keeps the rule of its opcode, operands that
are no values included. Nothing in a rule is lost when the module grows or when
an operand of another instruction is replaced.
-/

namespace ShaderGen

/-- An opcode does not ask for the other signedness. -/
def Opcode.Admits (op : Opcode) (signed : Bool) : Prop :=
  ∀ asked, op.signedness = some asked → asked = signed

/-- The comparisons of integers. -/
def Opcode.intComparisons : List Opcode :=
  [iEqual, iNotEqual, uGreaterThan, sGreaterThan, uGreaterThanEqual, sGreaterThanEqual, uLessThan,
    sLessThan, uLessThanEqual, sLessThanEqual]

/-- The comparisons of floats. -/
def Opcode.floatComparisons : List Opcode :=
  [fOrdEqual, fOrdNotEqual, fOrdLessThan, fOrdGreaterThan, fOrdLessThanEqual, fOrdGreaterThanEqual]

/-- What a conversion makes of a scalar type. -/
inductive Opcode.Converts : Opcode → Ty → Ty → Prop
  | floatToInt {op : Opcode} {width width' : Nat} {signed : Bool}
      (hop : op ∈ [.convertFToU, .convertFToS]) (hs : op.signedness = some signed) :
      Converts op (.float width) (.int width' signed)
  | intToFloat {op : Opcode} {width width' : Nat} {signed : Bool}
      (hop : op ∈ [.convertSToF, .convertUToF]) (hs : op.signedness = some signed) :
      Converts op (.int width signed) (.float width')
  | intResize {op : Opcode} {width width' : Nat} {signed : Bool}
      (hop : op ∈ [.uConvert, .sConvert]) (hs : op.signedness = some signed)
      (hw : width' ≠ width) : Converts op (.int width signed) (.int width' signed)
  | floatResize {width width' : Nat} (hw : width' ≠ width) :
      Converts .fConvert (.float width) (.float width')
  /-- Another kind of number of the same width. -/
  | bitcast {ty ty' : Ty} {width : Nat} (hw : ty.scalarWidth? = some width)
      (hw' : ty'.scalarWidth? = some width) (hne : ty ≠ ty') : Converts .bitcast ty ty'

namespace Table

/-! ### Operations on values -/

/-- The type of the result of an operation on values of the given types. -/
inductive Yields (t : Table) : Opcode → List EntryId → EntryId → Prop
  | intUnary {op : Opcode} {a : EntryId} {n width : Nat} {signed : Bool}
      (hop : op ∈ [.sNegate, .not]) (ha : t.IntLanes a n width signed) : Yields t op [a] a
  | floatUnary {a : EntryId} {n width : Nat} (ha : t.FloatLanes a n width) :
      Yields t .fNegate [a] a
  | boolUnary {a : EntryId} {n : Nat} (ha : t.BoolLanes a n) : Yields t .logicalNot [a] a
  | bitUnary {op : Opcode} {a : EntryId} {n : Nat} {signed : Bool}
      (hop : op ∈ [.bitCount, .bitReverse]) (ha : t.IntLanes a n 32 signed) : Yields t op [a] a
  | copy {a : EntryId} (ha : t.IsData a) : Yields t .copyObject [a] a
  | intBinary {op : Opcode} {a : EntryId} {n width : Nat} {signed : Bool}
      (hop : op ∈ [.iAdd, .iSub, .iMul, .uDiv, .sDiv, .uMod, .sRem, .sMod, .bitwiseOr,
        .bitwiseXor, .bitwiseAnd])
      (ha : t.IntLanes a n width signed) (hs : op.Admits signed) : Yields t op [a, a] a
  | floatBinary {op : Opcode} {a : EntryId} {n width : Nat}
      (hop : op ∈ [.fAdd, .fSub, .fMul, .fDiv, .fRem, .fMod]) (ha : t.FloatLanes a n width) :
      Yields t op [a, a] a
  | boolBinary {op : Opcode} {a : EntryId} {n : Nat}
      (hop : op ∈ [.logicalEqual, .logicalNotEqual, .logicalOr, .logicalAnd])
      (ha : t.BoolLanes a n) : Yields t op [a, a] a
  /-- The amount has as many components as the base. -/
  | shift {op : Opcode} {a b : EntryId} {n width width' : Nat} {signed signed' : Bool}
      (hop : op ∈ [.shiftRightLogical, .shiftRightArithmetic, .shiftLeftLogical])
      (ha : t.IntLanes a n width signed) (hb : t.IntLanes b n width' signed') :
      Yields t op [a, b] a
  | reduceBool {op : Opcode} {a scalar r : EntryId} {n : Nat} (hop : op ∈ [.any, .all])
      (ha : t.IsType a (.vector scalar n)) (hs : t.IsType scalar .bool) (hr : t.IsType r .bool) :
      Yields t op [a] r
  | floatTest {op : Opcode} {a r : EntryId} {n width : Nat} (hop : op ∈ [.isNan, .isInf])
      (ha : t.FloatLanes a n width) (hr : t.BoolLanes r n) : Yields t op [a] r
  /-- Both operands are integers of one width, and of the signedness asked for. -/
  | intCompare {op : Opcode} {a b r : EntryId} {n width : Nat} {signed signed' : Bool}
      (hop : op ∈ Opcode.intComparisons)
      (ha : t.IntLanes a n width signed) (hb : t.IntLanes b n width signed')
      (hs : op.Admits signed) (hs' : op.Admits signed') (hr : t.BoolLanes r n) :
      Yields t op [a, b] r
  | floatCompare {op : Opcode} {a b r : EntryId} {n width : Nat}
      (hop : op ∈ Opcode.floatComparisons) (ha : t.FloatLanes a n width)
      (hb : t.FloatLanes b n width) (hr : t.BoolLanes r n) :
      Yields t op [a, b] r
  | select {condition a scalar : EntryId} {n : Nat} (hc : t.BoolLanes condition n)
      (ha : t.Lanes a scalar n) : Yields t .select [condition, a, a] a
  | vectorTimesScalar {a scalar : EntryId} {n : Nat} (ha : t.IsFloatVector a scalar n) :
      Yields t .vectorTimesScalar [a, scalar] a
  | matrixTimesScalar {a column scalar : EntryId} {columns rows : Nat}
      (ha : t.IsMatrix a column scalar columns rows) : Yields t .matrixTimesScalar [a, scalar] a
  | vectorTimesMatrix {a column scalar r : EntryId} {columns rows : Nat}
      (ha : t.IsMatrix a column scalar columns rows) (hr : t.IsFloatVector r scalar columns) :
      Yields t .vectorTimesMatrix [column, a] r
  | matrixTimesVector {a column scalar b : EntryId} {columns rows : Nat}
      (ha : t.IsMatrix a column scalar columns rows) (hb : t.IsFloatVector b scalar columns) :
      Yields t .matrixTimesVector [a, b] column
  /-- The second has as many rows as the first has columns. -/
  | matrixTimesMatrix {a b column column' scalar r : EntryId} {columns rows columns' : Nat}
      (ha : t.IsMatrix a column scalar columns rows)
      (hb : t.IsMatrix b column' scalar columns' columns)
      (hr : t.IsMatrix r column scalar columns' rows) : Yields t .matrixTimesMatrix [a, b] r
  | outerProduct {a b scalar r : EntryId} {rows columns : Nat}
      (ha : t.IsFloatVector a scalar rows) (hb : t.IsFloatVector b scalar columns)
      (hr : t.IsMatrix r a scalar columns rows) : Yields t .outerProduct [a, b] r
  | dot {a scalar : EntryId} {n : Nat} (ha : t.IsFloatVector a scalar n) :
      Yields t .dot [a, a] scalar
  /-- The scalar type is converted and the number of components stays. -/
  | convert {op : Opcode} {a r scalar scalar' : EntryId} {ty ty' : Ty} {n : Nat}
      (ha : t.Lanes a scalar n) (hs : t.IsType scalar ty) (hr : t.Lanes r scalar' n)
      (hs' : t.IsType scalar' ty') (h : op.Converts ty ty') : Yields t op [a] r
  | extractDynamic {a element index : EntryId} {n width : Nat} {signed : Bool}
      (ha : t.IsType a (.vector element n)) (hi : t.IsType index (.int width signed)) :
      Yields t .vectorExtractDynamic [a, index] element
  | insertDynamic {a element index : EntryId} {n width : Nat} {signed : Bool}
      (ha : t.IsType a (.vector element n)) (hi : t.IsType index (.int width signed)) :
      Yields t .vectorInsertDynamic [a, element, index] a
  | construct {parts : List EntryId} {r : EntryId} (hn : t.Arity r parts.length)
      (hp : ∀ i part, parts[i]? = some part → t.Part r i part) :
      Yields t .compositeConstruct parts r
  /-- Rows and columns are exchanged. -/
  | transpose {a column column' scalar r : EntryId} {columns rows : Nat}
      (ha : t.IsMatrix a column scalar columns rows)
      (hr : t.IsMatrix r column' scalar rows columns) : Yields t .transpose [a] r
  | load {a r : EntryId} {storage : StorageClass} (ha : t.IsType a (.pointer storage r))
      (hr : t.IsData r) : Yields t .load [a] r

/-- The type of the result of an extended instruction on values of the given
types. All of them have 32 bits. -/
inductive ExtendedYields (t : Table) : ExtendedOp → List EntryId → EntryId → Prop
  | float {op : ExtendedOp} {r : EntryId} {arity n : Nat} (hop : op.shape = .float arity)
      (hr : t.FloatLanes r n 32) : ExtendedYields t op (List.replicate arity r) r
  | signedInt {op : ExtendedOp} {r : EntryId} {arity n : Nat} (hop : op.shape = .signedInt arity)
      (hr : t.IntLanes r n 32 true) : ExtendedYields t op (List.replicate arity r) r
  | unsignedInt {op : ExtendedOp} {r : EntryId} {arity n : Nat}
      (hop : op.shape = .unsignedInt arity) (hr : t.IntLanes r n 32 false) :
      ExtendedYields t op (List.replicate arity r) r
  | floatReduce {op : ExtendedOp} {a r : EntryId} {arity n : Nat}
      (hop : op.shape = .floatReduce arity) (ha : t.Lanes a r n) (hr : t.IsType r (.float 32)) :
      ExtendedYields t op (List.replicate arity a) r
  | cross {op : ExtendedOp} {a scalar : EntryId} (hop : op.shape = .cross)
      (ha : t.IsType a (.vector scalar 3)) (hs : t.IsType scalar (.float 32)) :
      ExtendedYields t op [a, a] a

section Later

variable {t t' : Table} (hle : t ≤ t')
include hle

theorem Yields.mono {op : Opcode} {args : List EntryId} {r : EntryId} (h : t.Yields op args r) :
    t'.Yields op args r := by
  cases h with
  | intUnary hop ha => exact .intUnary hop (ha.mono hle)
  | floatUnary ha => exact .floatUnary (ha.mono hle)
  | boolUnary ha => exact .boolUnary (ha.mono hle)
  | bitUnary hop ha => exact .bitUnary hop (ha.mono hle)
  | copy ha => exact .copy (ha.mono hle)
  | intBinary hop ha hs => exact .intBinary hop (ha.mono hle) hs
  | floatBinary hop ha => exact .floatBinary hop (ha.mono hle)
  | boolBinary hop ha => exact .boolBinary hop (ha.mono hle)
  | shift hop ha hb => exact .shift hop (ha.mono hle) (hb.mono hle)
  | reduceBool hop ha hs hr => exact .reduceBool hop (hle ha) (hle hs) (hle hr)
  | floatTest hop ha hr => exact .floatTest hop (ha.mono hle) (hr.mono hle)
  | intCompare hop ha hb hs hs' hr =>
    exact .intCompare hop (ha.mono hle) (hb.mono hle) hs hs' (hr.mono hle)
  | floatCompare hop ha hb hr =>
    exact .floatCompare hop (ha.mono hle) (hb.mono hle) (hr.mono hle)
  | select hc ha => exact .select (hc.mono hle) (ha.mono hle)
  | vectorTimesScalar ha => exact .vectorTimesScalar (ha.mono hle)
  | matrixTimesScalar ha => exact .matrixTimesScalar (ha.mono hle)
  | vectorTimesMatrix ha hr => exact .vectorTimesMatrix (ha.mono hle) (hr.mono hle)
  | matrixTimesVector ha hb => exact .matrixTimesVector (ha.mono hle) (hb.mono hle)
  | matrixTimesMatrix ha hb hr =>
    exact .matrixTimesMatrix (ha.mono hle) (hb.mono hle) (hr.mono hle)
  | outerProduct ha hb hr => exact .outerProduct (ha.mono hle) (hb.mono hle) (hr.mono hle)
  | dot ha => exact .dot (ha.mono hle)
  | convert ha hs hr hs' h =>
    exact .convert (ha.mono hle) (hle hs) (hr.mono hle) (hle hs') h
  | extractDynamic ha hi => exact .extractDynamic (hle ha) (hle hi)
  | insertDynamic ha hi => exact .insertDynamic (hle ha) (hle hi)
  | construct hn hp => exact .construct (hn.mono hle) fun i part h => (hp i part h).mono hle
  | transpose ha hr => exact .transpose (ha.mono hle) (hr.mono hle)
  | load ha hr => exact .load (hle ha) (hr.mono hle)

theorem ExtendedYields.mono {op : ExtendedOp} {args : List EntryId} {r : EntryId}
    (h : t.ExtendedYields op args r) : t'.ExtendedYields op args r := by
  cases h with
  | float hop hr => exact .float hop (hr.mono hle)
  | signedInt hop hr => exact .signedInt hop (hr.mono hle)
  | unsignedInt hop hr => exact .unsignedInt hop (hr.mono hle)
  | floatReduce hop ha hr => exact .floatReduce hop (ha.mono hle) (hle hr)
  | cross hop ha hs => exact .cross hop (hle ha) (hle hs)

end Later

end Table

namespace Module

/-! ### Growth -/

/-- A later module has a later table and the same imports in their slots, and
keeps the opcode and the result type of every instruction. -/
structure Later (m m' : Module) : Prop where
  table : m.table ≤ m'.table
  instr : ∀ {k : Nat} {i : Instr}, m.instrs[k]? = some i →
    ∃ i', m'.instrs[k]? = some i' ∧ i'.opcode = i.opcode ∧ i'.resultType = i.resultType
  imported : ∀ {k : Nat} {name : String}, m.imports[k]? = some name → m'.imports[k]? = some name

instance : Preorder Module where
  le := Later
  le_refl _ := ⟨le_refl _, fun h => ⟨_, h, rfl, rfl⟩, fun h => h⟩
  le_trans _ _ _ h h' := by
    refine ⟨h.table.trans h'.table, fun hi => ?_, fun hn => h'.imported (h.imported hn)⟩
    obtain ⟨i', hi', hop, hty⟩ := h.instr hi
    obtain ⟨i'', hi'', hop', hty'⟩ := h'.instr hi'
    exact ⟨i'', hi'', hop'.trans hop, hty'.trans hty⟩

variable {m m' : Module}

/-! ### Types of values -/

/-- A value has a type. -/
def Has (m : Module) (v : Value) (ty : EntryId) : Prop := m.typeOf? v = .ok (some ty)

theorem has_instr {id : InstrId} {ty : EntryId} :
    m.Has (.instr id) ty ↔ ∃ i, m.instrs[id.index]? = some i ∧ i.resultType = some ty := by
  simp only [Has, typeOf?, Module.instr]
  rcases m.instrs[id.index]? with _ | i <;> simp [Functor.map, Except.map]

theorem has_entry {id ty : EntryId} : m.Has (.entry id) ty ↔
    m.table.HasConst id ty ∨ ∃ v, m.table.get? id = some (.var v) ∧ v.ty = ty := by
  simp only [Has, typeOf?, entity, Table.HasConst, Table.IsConst]
  rcases m.table.get? id with _ | _ | _ | _ <;> simp [bind, Except.bind, pure, Except.pure]

theorem Has.unique {v : Value} {a b : EntryId} (ha : m.Has v a) (hb : m.Has v b) : a = b := by
  unfold Has at ha hb
  rw [ha] at hb
  simpa using hb

theorem Has.mono (hle : m ≤ m') {v : Value} {ty : EntryId} (h : m.Has v ty) : m'.Has v ty := by
  cases v with
  | entry id =>
    rw [has_entry] at h ⊢
    rcases h with h | ⟨v, hv, hty⟩
    · exact .inl (h.mono hle.table)
    · exact .inr ⟨v, hle.table hv, hty⟩
  | instr id =>
    rw [has_instr] at h ⊢
    obtain ⟨i, hi, hty⟩ := h
    obtain ⟨i', hi', _, hty'⟩ := hle.instr hi
    exact ⟨i', hi', hty'.trans hty⟩

/-- An instruction of the arena is a label. -/
def IsLabel (m : Module) (id : InstrId) : Prop :=
  ∃ i, m.instrs[id.index]? = some i ∧ i.opcode = .label

/-- An instruction of the arena is a variable. -/
def IsVariable (m : Module) (id : InstrId) : Prop :=
  ∃ i, m.instrs[id.index]? = some i ∧ i.opcode = .var

theorem IsLabel.mono (hle : m ≤ m') {id : InstrId} (h : m.IsLabel id) : m'.IsLabel id := by
  obtain ⟨i, hi, hop⟩ := h
  obtain ⟨i', hi', hop', _⟩ := hle.instr hi
  exact ⟨i', hi', hop'.trans hop⟩

/-! ### Instructions -/

/-- An instruction keeps the rule of its opcode. -/
inductive Typed (m : Module) : Instr → Prop
  /-- An operation on values alone. -/
  | apply {op : Opcode} {args : List Value} {tys : List EntryId} {r : EntryId}
      (hargs : List.Forall₂ m.Has args tys) (h : m.table.Yields op tys r) :
      Typed m ⟨op, some r, args.map .value⟩
  /-- Components are counted through both vectors. -/
  | shuffle {a b : Value} {ta tb element r : EntryId} {j k : Nat} {components : List Nat}
      (ha : m.Has a ta) (hb : m.Has b tb) (hta : m.table.IsType ta (.vector element j))
      (htb : m.table.IsType tb (.vector element k))
      (hr : m.table.IsType r (.vector element components.length))
      (hc : ∀ i ∈ components, i < j + k) :
      Typed m ⟨.vectorShuffle, some r, .value a :: .value b :: components.map .literal⟩
  | extract {v : Value} {ty r : EntryId} {path : List Nat} (hv : m.Has v ty) (hne : path ≠ [])
      (hp : m.table.Path ty path r) :
      Typed m ⟨.compositeExtract, some r, .value v :: path.map .literal⟩
  | insert {object v : Value} {ty part : EntryId} {path : List Nat} (ho : m.Has object part)
      (hv : m.Has v ty) (hne : path ≠ []) (hp : m.table.Path ty path part) :
      Typed m ⟨.compositeInsert, some ty, .value object :: .value v :: path.map .literal⟩
  /-- The indices are constants. -/
  | accessChain {v : Value} {pointer ty r target : EntryId} {storage : StorageClass}
      {ids : List EntryId} {path : List Nat} (hv : m.Has v pointer)
      (hpointer : m.table.IsType pointer (.pointer storage ty)) (hne : path ≠ [])
      (hids : List.Forall₂ m.table.IsIndex ids path) (hp : m.table.Path ty path target)
      (hr : m.table.IsType r (.pointer storage target)) :
      Typed m ⟨.accessChain, some r, .value v :: ids.map .entry⟩
  | var {r ty initial : EntryId} (hr : m.table.IsType r (.pointer .function ty))
      (hi : m.table.HasConst initial ty) :
      Typed m ⟨.var, some r, [.storage .function, .entry initial]⟩
  | store {pointer v : Value} {r ty : EntryId} {storage : StorageClass} (hp : m.Has pointer r)
      (hr : m.table.IsType r (.pointer storage ty)) (hv : m.Has v ty) (hd : m.table.IsData ty) :
      Typed m ⟨.store, none, [.value pointer, .value v]⟩
  | extended {set : ImportId} {op : ExtendedOp} {args : List Value} {tys : List EntryId}
      {r : EntryId} (hset : m.imports[set.index]? = some ExtendedOp.setName)
      (hargs : List.Forall₂ m.Has args tys) (h : m.table.ExtendedYields op tys r) :
      Typed m ⟨.extInst, some r, .importSet set :: .extended op :: args.map .value⟩
  | selectionMerge {merge : InstrId} (hm : m.IsLabel merge) :
      Typed m ⟨.selectionMerge, none, [.instr merge, .keyword "None"]⟩
  | branchConditional {condition : Value} {ty : EntryId} {yes no : InstrId}
      (hc : m.Has condition ty) (hty : m.table.IsType ty .bool) (hyes : m.IsLabel yes)
      (hno : m.IsLabel no) :
      Typed m ⟨.branchConditional, none, [.value condition, .instr yes, .instr no]⟩
  | branch {target : InstrId} (h : m.IsLabel target) : Typed m ⟨.branch, none, [.instr target]⟩
  | label : Typed m ⟨.label, none, []⟩
  | ret : Typed m ⟨.ret, none, []⟩
  | function {r ty : EntryId} {params : List EntryId}
      (hty : m.table.IsType ty (.function r params)) (hr : m.table.IsType r .void) :
      Typed m ⟨.function, some r, [.keyword "None", .entry ty]⟩
  | functionParameter {ty : EntryId} (hty : m.table.IsOf ty .arithmeticType) :
      Typed m ⟨.functionParameter, some ty, []⟩
  | functionEnd : Typed m ⟨.functionEnd, none, []⟩

/-- An instruction that keeps its rule keeps it in every later module. -/
theorem Typed.mono (hle : m ≤ m') {i : Instr} (h : m.Typed i) : m'.Typed i := by
  have ht := hle.table
  cases h with
  | apply hargs h => exact .apply (hargs.imp fun _ _ h => h.mono hle) (h.mono ht)
  | shuffle ha hb hta htb hr hc =>
    exact .shuffle (ha.mono hle) (hb.mono hle) (ht hta) (ht htb) (ht hr) hc
  | extract hv hne hp => exact .extract (hv.mono hle) hne (hp.mono ht)
  | insert ho hv hne hp => exact .insert (ho.mono hle) (hv.mono hle) hne (hp.mono ht)
  | accessChain hv hpointer hne hids hp hr =>
    exact .accessChain (hv.mono hle) (ht hpointer) hne (hids.imp fun _ _ h => h.mono ht)
      (hp.mono ht) (ht hr)
  | var hr hi => exact .var (ht hr) (hi.mono ht)
  | store hp hr hv hd => exact .store (hp.mono hle) (ht hr) (hv.mono hle) (hd.mono ht)
  | extended hset hargs h =>
    exact .extended (hle.imported hset) (hargs.imp fun _ _ h => h.mono hle) (h.mono ht)
  | selectionMerge hm => exact .selectionMerge (hm.mono hle)
  | branchConditional hc hty hyes hno =>
    exact .branchConditional (hc.mono hle) (ht hty) (hyes.mono hle) (hno.mono hle)
  | branch h => exact .branch (h.mono hle)
  | label => exact .label
  | ret => exact .ret
  | function hty hr => exact .function (ht hty) (ht hr)
  | functionParameter hty => exact .functionParameter (hty.mono ht)
  | functionEnd => exact .functionEnd

end Module

end ShaderGen
