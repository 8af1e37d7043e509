import ShaderGen.Proofs.Operands
import ShaderGen.Statement.Recipe

/-!
Questions that have an answer. Asked about types of a well-formed table, the
questions of a module never fault: no chain of parts is longer than three, and what
an entry mentions is there. Values of typed instructions have types, so the tests
that searches run have an answer on everything they are run on.
-/

namespace ShaderGen

/-! ### Slots that hold types -/

namespace Table

/-- The slot holds a type. -/
def HoldsType (t : Table) (id : EntryId) : Prop := ∃ ty, t.IsType id ty

variable {t t' : Table} {id : EntryId}

theorem IsType.holdsType {ty : Ty} (h : t.IsType id ty) : t.HoldsType id := ⟨ty, h⟩

theorem HoldsType.mono (hle : t ≤ t') (h : t.HoldsType id) : t'.HoldsType id := by
  obtain ⟨ty, hty⟩ := h
  exact ⟨ty, hle hty⟩

theorem Lanes.holdsType {scalar : EntryId} {n : Nat} (h : t.Lanes id scalar n) :
    t.HoldsType id := by
  cases h with
  | scalar h _ | vector h _ _ => exact ⟨_, h⟩

theorem IntLanes.holdsType {n width : Nat} {signed : Bool} (h : t.IntLanes id n width signed) :
    t.HoldsType id := by
  obtain ⟨_, hl, _⟩ := h
  exact hl.holdsType

theorem FloatLanes.holdsType {n width : Nat} (h : t.FloatLanes id n width) : t.HoldsType id := by
  obtain ⟨_, hl, _⟩ := h
  exact hl.holdsType

theorem BoolLanes.holdsType {n : Nat} (h : t.BoolLanes id n) : t.HoldsType id := by
  obtain ⟨_, hl, _⟩ := h
  exact hl.holdsType

theorem IsOf.holdsType {cat : Category} (h : t.IsOf id cat) : t.HoldsType id := by
  obtain ⟨ty, hty, _⟩ := h
  exact ⟨ty, hty⟩

theorem IsData.holdsType (h : t.IsData id) : t.HoldsType id := by
  obtain ⟨ty, hty, _⟩ := h
  exact ⟨ty, hty⟩

theorem Arity.holdsType {n : Nat} (h : t.Arity id n) : t.HoldsType id := by
  cases h with
  | vector h | matrix h | array h _ | struct h => exact ⟨_, h⟩

theorem Part.source_holdsType {part : EntryId} {i : Nat} (h : t.Part id i part) :
    t.HoldsType id := by
  cases h with
  | vector h _ | matrix h _ | array h _ _ | struct h _ => exact ⟨_, h⟩

variable {c : Config} (hwf : t.WellFormed c)
include hwf

theorem Part.holdsType {part : EntryId} {i : Nat} (h : t.Part id i part) : t.HoldsType part := by
  cases h with
  | vector h _ => exact (hwf.entry h).2.holdsType
  | matrix h _ =>
    obtain ⟨_, _, _, hcol, _⟩ := hwf.entry h
    exact ⟨_, hcol⟩
  | array h _ _ => exact (hwf.entry h).1.holdsType
  | struct h hi => exact ((hwf.entry h).2 part (List.mem_of_getElem? hi)).holdsType

/-- The path starts at a type, so it leads to one. -/
theorem Path.holdsType {target : EntryId} {path : List Nat} (h : t.Path id path target)
    (hid : t.HoldsType id) : t.HoldsType target := by
  induction h with
  | nil => exact hid
  | cons hpart _ ih => exact ih (hpart.holdsType hwf)

theorem IsConst.holdsType {k : Const} (h : t.IsConst id k) : t.HoldsType k.ty := by
  have hk : k.WellFormed t := hwf.entry h
  cases k with
  | bool => exact ⟨_, hk⟩
  | scalar =>
    rcases hk with ⟨_, _, hty, _⟩ | ⟨_, hty, _⟩
    · exact ⟨_, hty⟩
    · exact ⟨_, hty⟩
  | composite => exact hk.1.holdsType

theorem holdsType_of_var {v : GlobalVar} (h : t.get? id = some (.var v)) : t.HoldsType v.ty := by
  obtain ⟨_, hty, _⟩ := hwf.entry h
  exact ⟨_, hty⟩

theorem Yields.holdsType {op : Opcode} {args : List EntryId} (h : t.Yields op args id) :
    t.HoldsType id := by
  cases h with
  | intUnary _ h | bitUnary _ h | intBinary _ h _ | shift _ h _ => exact h.holdsType
  | floatUnary h | floatBinary _ h => exact h.holdsType
  | boolUnary h | boolBinary _ h | floatTest _ _ h | intCompare _ _ _ _ _ h
  | floatCompare _ _ _ h => exact h.holdsType
  | copy h | load _ h => exact h.holdsType
  | select _ h | convert _ _ h _ _ => exact h.holdsType
  | construct h _ => exact h.holdsType
  | reduceBool _ _ _ h | insertDynamic h _ => exact ⟨_, h⟩
  | vectorTimesScalar h | matrixTimesScalar h | vectorTimesMatrix _ h | matrixTimesMatrix _ _ h
  | outerProduct _ _ h | transpose _ h => exact ⟨_, h.1⟩
  | matrixTimesVector h _ => exact ⟨_, h.2.1⟩
  | dot h =>
    obtain ⟨_, _, hs⟩ := h
    exact ⟨_, hs⟩
  | extractDynamic h _ => exact (hwf.entry h).2.holdsType

omit hwf in
theorem ExtendedYields.holdsType {op : ExtendedOp} {args : List EntryId}
    (h : t.ExtendedYields op args id) : t.HoldsType id := by
  cases h with
  | float _ h => exact h.holdsType
  | signedInt _ h | unsignedInt _ h => exact h.holdsType
  | floatReduce _ _ h | cross _ h _ => exact ⟨_, h⟩

end Table

/-! ### Questions about types -/

namespace Module

variable {c : Config} {m : Module} {id : EntryId}

theorem elementType?_answers (h : m.table.HoldsType id) : ∃ o, m.elementType? id = .ok o := by
  obtain ⟨ty, hty⟩ := h
  simp only [elementType?, typeAt_eq_ok.mpr hty]
  exact ⟨_, rfl⟩

theorem pointee?_answers (h : m.table.HoldsType id) : ∃ o, m.pointee? id = .ok o := by
  obtain ⟨ty, hty⟩ := h
  simp only [pointee?, typeAt_eq_ok.mpr hty]
  exact ⟨_, rfl⟩

section WellFormed

variable (hwf : m.table.WellFormed c)
include hwf

theorem baseType_answers (h : m.table.HoldsType id) :
    ∃ base, m.baseType id = .ok base ∧ m.table.HoldsType base := by
  obtain ⟨ty, hty⟩ := h
  cases ty with
  | vector =>
    have hl := Predicate.lanes_of_vector hwf hty
    obtain ⟨bty, hb, _⟩ := hl.isScalar
    exact ⟨_, baseType_of_lanes hl, bty, hb⟩
  | matrix =>
    obtain ⟨scalar, rows, hm⟩ := Predicate.isMatrix_of_isType hwf hty
    obtain ⟨bty, hb, _⟩ := hm.2.lanes.isScalar
    exact ⟨scalar, baseType_of_isMatrix hm, bty, hb⟩
  | _ => exact ⟨id, baseTypeWithin_of_isType hty rfl rfl, _, hty⟩

theorem baseTy_answers (h : m.table.HoldsType id) : ∃ ty, m.baseTy id = .ok ty := by
  obtain ⟨base, hbase, ty, hty⟩ := baseType_answers hwf h
  exact ⟨ty, baseTy_eq_ok.mpr ⟨base, hbase, hty⟩⟩

theorem componentCount_answers (h : m.table.HoldsType id) :
    ∃ n, m.componentCount id = .ok n := by
  obtain ⟨ty, hty⟩ := h
  by_cases hc : ty.isComposite = true
  · obtain ⟨n, hn, _⟩ := arity_of_isComposite hwf hty hc
    exact ⟨n, componentCount_of_arity hwf hn⟩
  · refine ⟨1, ?_⟩
    simp only [componentCount, typeAt_eq_ok.mpr hty]
    cases ty <;> first | rfl | exact absurd rfl hc

theorem memberType?_answers (h : m.table.HoldsType id) (i : Nat) :
    ∃ o, m.memberType? id i = .ok o := by
  obtain ⟨n, hn⟩ := componentCount_answers hwf h
  obtain ⟨o, ho⟩ := elementType?_answers h
  obtain ⟨ty, hty⟩ := h
  simp only [memberType?, typeAt_eq_ok.mpr hty, hn, bind, Except.bind]
  cases ty with
  | struct => exact ⟨_, rfl⟩
  | _ =>
    dsimp only
    split_ifs
    · exact ⟨o, ho⟩
    · exact ⟨none, rfl⟩

/-- A part of a type is found. -/
theorem memberType?_of_part {part : EntryId} {i : Nat} (h : m.table.Part id i part) :
    m.memberType? id i = .ok (some part) := by
  cases h with
  | vector h hi =>
    simp only [memberType?, typeAt_eq_ok.mpr h, componentCount_of_arity hwf (.vector h), hi,
      elementType?, bind, Except.bind, if_true]
    rfl
  | matrix h hi =>
    simp only [memberType?, typeAt_eq_ok.mpr h, componentCount_of_arity hwf (.matrix h), hi,
      elementType?, bind, Except.bind, if_true]
    rfl
  | array h hl hi =>
    simp only [memberType?, typeAt_eq_ok.mpr h, componentCount_of_arity hwf (.array h hl), hi,
      elementType?, bind, Except.bind, if_true]
    rfl
  | struct h hi =>
    rw [← hi]
    simp only [memberType?, typeAt_eq_ok.mpr h]
    rfl

theorem sameShape_answers {a b : EntryId} (ha : m.table.HoldsType a) (hb : m.table.HoldsType b) :
    ∃ r, m.sameShape a b = .ok r := by
  obtain ⟨n, hn⟩ := componentCount_answers hwf ha
  obtain ⟨k, hk⟩ := componentCount_answers hwf hb
  obtain ⟨x, hx, tx, htx⟩ := baseType_answers hwf ha
  obtain ⟨y, hy, ty, hty⟩ := baseType_answers hwf hb
  obtain ⟨ta, hta⟩ := ha
  obtain ⟨tb, htb⟩ := hb
  simp only [sameShape, typeAt_eq_ok.mpr hta, typeAt_eq_ok.mpr htb, hn, hk, hx, hy,
    typeAt_eq_ok.mpr htx, typeAt_eq_ok.mpr hty, bind, Except.bind, pure, Except.pure]
  split_ifs
  · exact ⟨_, rfl⟩
  · exact ⟨_, rfl⟩
  · exact ⟨_, rfl⟩

end WellFormed

/-! ### Types of values -/

/-- The result type of a typed instruction is a type. -/
theorem Typed.holdsType (hwf : m.table.WellFormed c) {i : Instr} (h : m.Typed i) {ty : EntryId}
    (hty : i.resultType = some ty) : m.table.HoldsType ty := by
  cases h with
  | apply _ h =>
    cases hty
    exact h.holdsType hwf
  | shuffle _ _ _ _ hr _ =>
    cases hty
    exact ⟨_, hr⟩
  | extract _ hne hp =>
    cases hty
    cases hp with
    | nil => exact absurd rfl hne
    | cons hpart hp => exact hp.holdsType hwf (hpart.holdsType hwf)
  | insert _ _ hne hp =>
    cases hty
    cases hp with
    | nil => exact absurd rfl hne
    | cons hpart _ => exact hpart.source_holdsType
  | accessChain _ _ _ _ _ hr | var hr _ | function _ hr =>
    cases hty
    exact ⟨_, hr⟩
  | extended _ _ h =>
    cases hty
    exact h.holdsType
  | functionParameter h =>
    cases hty
    exact h.holdsType
  | _ => cases hty

/-- Whatever has a type, in a module with typed instructions, has one of the table. -/
theorem Has.holdsType (hwf : m.table.WellFormed c)
    (htyped : ∀ {k : Nat} {i : Instr}, m.instrs[k]? = some i → m.Typed i) {v : Value}
    {ty : EntryId} (h : m.Has v ty) : m.table.HoldsType ty := by
  cases v with
  | entry id =>
    rcases has_entry.mp h with ⟨k, hk, rfl⟩ | ⟨v, hv, rfl⟩
    · exact Table.IsConst.holdsType hwf hk
    · exact Table.holdsType_of_var hwf hv
  | instr id =>
    obtain ⟨i, hi, hty⟩ := has_instr.mp h
    exact (htyped hi).holdsType hwf hty

end Module

/-! ### Tests -/

theorem filterM_answers {α : Type} {p : α → Except Fault Bool} {xs : List α}
    (h : ∀ a ∈ xs, ∃ b, p a = .ok b) : ∃ ys, xs.filterM p = .ok ys := by
  suffices haux : ∀ acc, ∃ ys, xs.filterAuxM p acc = .ok ys by
    obtain ⟨ys, hys⟩ := haux []
    exact ⟨ys.reverse, by rw [List.filterM, hys]; rfl⟩
  induction xs with
  | nil => exact fun acc => ⟨acc, rfl⟩
  | cons a xs ih =>
    intro acc
    obtain ⟨b, hb⟩ := h a (by simp)
    rw [List.filterAuxM, hb]
    exact ih (fun a ha => h a (by simp [ha])) _

namespace Predicate

/-- A test has an answer on every type. -/
def Total (p : Predicate) (m : Module) : Prop :=
  ∀ ⦃id⦄, m.table.HoldsType id → ∃ b, p m id = .ok b

variable {m : Module} {p q : Predicate}

theorem total_ofTy (test : Ty → Bool) : (ofTy test).Total m := by
  rintro id ⟨ty, hty⟩
  simp only [ofTy, Module.typeAt_eq_ok.mpr hty]
  exact ⟨_, rfl⟩

theorem total_exactly (ty : EntryId) : (exactly ty).Total m := fun _ _ => ⟨_, rfl⟩

theorem Total.and (hp : p.Total m) (hq : q.Total m) : (p.and q).Total m := by
  intro id hid
  obtain ⟨b, hb⟩ := hp hid
  simp only [Predicate.and, hb, bind, Except.bind]
  cases b with
  | false => exact ⟨false, rfl⟩
  | true => exact hq hid

theorem Total.or (hp : p.Total m) (hq : q.Total m) : (p.or q).Total m := by
  intro id hid
  obtain ⟨b, hb⟩ := hp hid
  simp only [Predicate.or, hb, bind, Except.bind]
  cases b with
  | false => exact hq hid
  | true => exact ⟨true, rfl⟩

section WellFormed

variable {c : Config} (hwf : m.table.WellFormed c)
include hwf

theorem total_base (test : Ty → Bool) : (base test).Total m := by
  intro id hid
  obtain ⟨ty, hty⟩ := Module.baseTy_answers hwf hid
  simp only [base, hty]
  exact ⟨_, rfl⟩

theorem Total.pointerTo (hp : p.Total m) : (pointerTo p).Total m := by
  rintro id ⟨ty, hty⟩
  cases ty with
  | pointer storage pointee =>
    obtain ⟨b, hb⟩ := hp (hwf.entry hty : m.table.IsData pointee).holdsType
    exact ⟨b, by simp [Predicate.pointerTo, Module.pointee?, Module.typeAt_eq_ok.mpr hty, hb, bind,
      Except.bind, pure, Except.pure]⟩
  | _ =>
    refine ⟨false, ?_⟩
    simp only [Predicate.pointerTo, Module.pointee?, Module.typeAt_eq_ok.mpr hty]
    rfl

theorem total_intLike : intLike.Total m := (total_ofTy _).and (total_base hwf _)

theorem total_floatLike : floatLike.Total m := (total_ofTy _).and (total_base hwf _)

theorem total_boolLike : boolLike.Total m := (total_ofTy _).and (total_base hwf _)

theorem total_intLikeFor (op : Opcode) : (intLikeFor op).Total m := by
  unfold intLikeFor
  cases op.signedness with
  | none => exact total_intLike hwf
  | some => exact (total_intLike hwf).and (total_base hwf _)

theorem total_floatVector : floatVector.Total m := (total_ofTy _).and (total_floatLike hwf)

/-- A test that compares the number of components. -/
theorem total_componentCount (n : Nat) :
    Predicate.Total (fun m id => return decide ((← m.componentCount id) = n)) m := by
  intro id hid
  obtain ⟨k, hk⟩ := Module.componentCount_answers hwf hid
  exact ⟨decide (k = n), by simp [hk, bind, Except.bind, pure, Except.pure]⟩

theorem total_sameShape {like : EntryId} (hlike : m.table.HoldsType like) :
    Predicate.Total (fun m id => m.sameShape id like) m :=
  fun _ hid => Module.sameShape_answers hwf hid hlike

end WellFormed

end Predicate

/-- The test for the first operand of a recipe that leaves it to the opcode. -/
def Recipe.test? : Recipe → Option Predicate
  | unary test | binary test | compare test | timesScalar test => some test
  | _ => none

/-- The tests of all recipes have answers. -/
theorem Recipe.total_of_test? {m : Module} {c : Config} (hwf : m.table.WellFormed c) {op : Opcode}
    {recipe : Recipe} {test : Predicate} (hop : op.recipe? = some recipe)
    (ht : recipe.test? = some test) : test.Total m := by
  have hint := Predicate.total_intLike hwf
  have hfloat := Predicate.total_floatLike hwf
  have hbool := Predicate.total_boolLike hwf
  cases op <;> cases hop <;> cases ht
  all_goals first
    | exact hint
    | exact hfloat
    | exact hbool
    | exact Predicate.total_intLikeFor hwf _
    | exact Predicate.total_ofTy _
    | exact hint.and (Predicate.total_base hwf _)
    | exact Predicate.total_floatVector hwf

/-! ### Searches -/

variable {ρ : Type} {c : Config} {s : State ρ} {scope : ScopeId} {test : Predicate}

/-- A scope that is there shows instructions that are there. -/
structure State.Shows (s : State ρ) (scope : ScopeId) : Prop where
  present : (s.scopes.get? scope).isSome
  known : ∀ d ∈ s.scopes.visible scope, d.index < s.code.instrs.size

theorem State.Shows.after {s' : State ρ} (h : s.Shows scope) (q : Quiet c s s') :
    s'.Shows scope := by
  refine ⟨by rw [q.scopes]; exact h.present, ?_⟩
  rw [q.scopes, q.instrs]
  exact h.known

section Searches

variable (hs : s.Sound c) (hshows : s.Shows scope) (htest : test.Total s.code)
include hs htest

theorem State.constantsWhere_answers : ∃ vs, s.constantsWhere test = .ok vs := by
  have hfilter : ∃ ks, s.code.table.constants.filterM (fun x => test s.code x.2.ty) = .ok ks :=
    filterM_answers fun x hx => htest ((Table.mem_constants.mp hx).holdsType hs.table)
  obtain ⟨ks, hks⟩ := hfilter
  exact ⟨ks.map fun x => .entry x.1, by simp [constantsWhere, hks, bind, Except.bind, pure,
    Except.pure]⟩

include hshows

theorem State.statementsWhere_answers : ∃ vs, s.statementsWhere scope test = .ok vs := by
  have hfilter : ∃ ids, (s.scopes.visible scope).filterM (s.yields test) = .ok ids := by
    refine filterM_answers fun d hd => ?_
    have hi := Array.getElem?_eq_getElem (hshows.known d hd)
    simp only [State.yields, Module.instr_eq_ok.mpr hi, bind, Except.bind]
    split
    · rename_i ty hty
      split_ifs
      · exact htest ((hs.typed hi).holdsType hs.table hty)
      · exact ⟨false, rfl⟩
    · exact ⟨false, rfl⟩
  obtain ⟨ids, hids⟩ := hfilter
  refine ⟨ids.map .instr, ?_⟩
  simp [statementsWhere, State.visible, hshows.present, hids, bind, Except.bind, pure, Except.pure]

theorem State.operandsWhere_answers : ∃ vs, s.operandsWhere scope test = .ok vs := by
  obtain ⟨as, ha⟩ := statementsWhere_answers hs hshows htest
  obtain ⟨bs, hb⟩ := constantsWhere_answers hs htest
  exact ⟨as ++ bs, by simp [operandsWhere, ha, hb, bind, Except.bind, pure, Except.pure]⟩

theorem Gen.pointersWhere_answers : ∃ vs, pointersWhere s scope test = .ok vs := by
  have hpointer : (Predicate.pointerTo test).Total s.code := htest.pointerTo hs.table
  obtain ⟨as, ha⟩ := State.statementsWhere_answers hs hshows hpointer
  have hfilter : ∃ bs, s.code.table.vars.filterM
      (fun x => Predicate.pointerTo test s.code x.2.ty) = .ok bs :=
    filterM_answers fun x hx =>
      hpointer (Table.holdsType_of_var hs.table (Table.mem_vars.mp hx))
  obtain ⟨bs, hb⟩ := hfilter
  exact ⟨as ++ bs.map fun x => .entry x.1, by
    simp [pointersWhere, ha, hb, bind, Except.bind, pure, Except.pure]⟩

end Searches

end ShaderGen
