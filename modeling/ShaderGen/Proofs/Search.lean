import ShaderGen.Proofs.Answers
import ShaderGen.Proofs.Interning
import ShaderGen.Proofs.Visibility
import ShaderGen.Random.Script

/-!
What a search for operands finds. What it may choose from is listed here on its own: the
results of the statements in sight, those of the innermost scope first, and then the
constants of the table, each with its type. A search lists just those that pass its test. A
draw takes one of them, of the same shape as another type if one is given, and fails only
where there is none.
-/

namespace ShaderGen

/-! ### Shapes -/

/-- What vectors and matrices are made of in the end; any other type is made of itself. -/
inductive Table.BaseOf (t : Table) : EntryId → EntryId → Prop
  | vector {id element base : EntryId} {n : Nat} (h : t.IsType id (.vector element n))
      (hb : t.BaseOf element base) : t.BaseOf id base
  | matrix {id column base : EntryId} {n : Nat} (h : t.IsType id (.matrix column n))
      (hb : t.BaseOf column base) : t.BaseOf id base
  | other {id : EntryId} {ty : Ty} (h : t.IsType id ty) (hv : ty.isVector = false)
      (hm : ty.isMatrix = false) : t.BaseOf id id

theorem Table.BaseOf.unique {t : Table} {id x y : EntryId} (hx : t.BaseOf id x)
    (hy : t.BaseOf id y) : x = y := by
  induction hx with
  | vector h _ ih =>
    cases hy with
    | vector h' hy =>
      cases h.unique h'
      exact ih hy
    | matrix h' => cases h.unique h'
    | other h' hv =>
      cases h.unique h'
      cases hv
  | matrix h _ ih =>
    cases hy with
    | vector h' => cases h.unique h'
    | matrix h' hy =>
      cases h.unique h'
      exact ih hy
    | other h' _ hm =>
      cases h.unique h'
      cases hm
  | other h hv hm =>
    cases hy with
    | vector h' =>
      cases h.unique h'
      cases hv
    | matrix h' =>
      cases h.unique h'
      cases hm
    | other => rfl

namespace Module

variable {m : Module} {a b : EntryId}

theorem baseOf_of_baseTypeWithin {fuel : Nat} {id base : EntryId}
    (h : m.baseTypeWithin fuel id = .ok base) : m.table.BaseOf id base := by
  induction fuel generalizing id with
  | zero => cases h
  | succ fuel ih =>
    simp only [baseTypeWithin, bind_eq_ok, typeAt_eq_ok] at h
    obtain ⟨ty, hty, h⟩ := h
    cases ty with
    | vector => exact .vector hty (ih h)
    | matrix => exact .matrix hty (ih h)
    | _ =>
      cases h
      exact .other hty rfl rfl

/-- Two types have the same constructor, the same number of components and base scalars of
the same width. -/
structure Alike (m : Module) (a b : EntryId) : Prop where
  constructors : ∃ x y, m.table.IsType a x ∧ m.table.IsType b y ∧ x.opcode = y.opcode
  components : ∃ n, m.componentCount a = .ok n ∧ m.componentCount b = .ok n
  widths : ∃ p q x y, m.table.BaseOf a p ∧ m.table.BaseOf b q ∧ m.table.IsType p x ∧
    m.table.IsType q y ∧ x.scalarWidth? = y.scalarWidth?

/-- Where the question for the same shape has an answer, it is the right one. -/
theorem sameShape_eq_true_iff (h : ∃ r, m.sameShape a b = .ok r) :
    m.sameShape a b = .ok true ↔ m.Alike a b := by
  obtain ⟨r, hr⟩ := h
  have hshape := hr
  simp only [sameShape, bind_eq_ok, typeAt_eq_ok] at hr
  obtain ⟨x, hx, y, hy, hr⟩ := hr
  rw [hshape]
  split_ifs at hr with hop
  · cases hr
    refine ⟨fun h => (by cases h), fun h => absurd ?_ hop⟩
    obtain ⟨x', y', hx', hy', heq⟩ := h.constructors
    cases hx.unique hx'
    cases hy.unique hy'
    exact heq
  · simp only [bind_eq_ok] at hr
    obtain ⟨n, hn, k, hk, hr⟩ := hr
    split_ifs at hr with hcount
    · cases hr
      refine ⟨fun h => (by cases h), fun h => absurd ?_ hcount⟩
      obtain ⟨n', hn', hk'⟩ := h.components
      cases hn.symm.trans hn'
      cases hk.symm.trans hk'
      rfl
    · simp only [bind_eq_ok, typeAt_eq_ok, pure_eq_ok] at hr
      obtain ⟨p, hp, q, hq, tp, htp, tq, htq, rfl⟩ := hr
      have hp := baseOf_of_baseTypeWithin hp
      have hq := baseOf_of_baseTypeWithin hq
      rw [Except.ok.injEq, decide_eq_true_eq]
      constructor
      · exact fun hwidth => ⟨⟨x, y, hx, hy, not_not.mp hop⟩, ⟨n, hn, not_not.mp hcount ▸ hk⟩,
          p, q, tp, tq, hp, hq, htp, htq, hwidth⟩
      · intro h
        obtain ⟨p', q', tp', tq', hp', hq', htp', htq', hwidth⟩ := h.widths
        cases hp.unique hp'
        cases hq.unique hq'
        cases htp.unique htp'
        cases htq.unique htq'
        exact hwidth

end Module

/-! ### Tests -/

/-- A test whose answers are all known keeps what it answers yes for. -/
theorem filterM_eq_filter {α : Type} {p : α → Except Fault Bool} {q : α → Bool} {xs : List α}
    (h : ∀ a ∈ xs, p a = .ok (q a)) : xs.filterM p = .ok (xs.filter q) := by
  suffices haux : ∀ acc, xs.filterAuxM p acc = .ok ((xs.filter q).reverse ++ acc) by
    rw [List.filterM, haux []]
    simp [bind, Except.bind, pure, Except.pure]
  induction xs with
  | nil => exact fun acc => rfl
  | cons a xs ih =>
    intro acc
    rw [List.filterAuxM, h a (List.mem_cons_self ..)]
    refine (ih (fun a ha => h a (List.mem_cons_of_mem _ ha)) _).trans ?_
    cases hq : q a <;> simp [hq]

/-- Whether a test says yes to a type. -/
def Predicate.passes (test : Predicate) (m : Module) (ty : EntryId) : Bool :=
  (test m ty).toOption.getD false

namespace Predicate

variable {test : Predicate} {m : Module} {ty : EntryId}

theorem passes_iff : test.passes m ty = true ↔ test m ty = .ok true := by
  rw [passes]
  rcases test m ty with _ | b
  · simp [Except.toOption]
  · simp [Except.toOption]

theorem eq_passes (h : ∃ b, test m ty = .ok b) : test m ty = .ok (test.passes m ty) := by
  obtain ⟨b, hb⟩ := h
  rw [passes, hb]
  rfl

/-- A test, and the same shape as another type if one is given. -/
def shaped (test : Predicate) : Option EntryId → Predicate
  | none => test
  | some like => test.and fun m ty => m.sameShape ty like

variable {like : Option EntryId}

theorem shaped_answers (htest : ∃ b, test m ty = .ok b)
    (hlike : test m ty = .ok true → ∀ l ∈ like, ∃ b, m.sameShape ty l = .ok b) :
    ∃ b, test.shaped like m ty = .ok b := by
  cases like with
  | none => exact htest
  | some l =>
    obtain ⟨b, hb⟩ := htest
    simp only [shaped, Predicate.and, hb, bind, Except.bind]
    cases b with
    | false => exact ⟨false, rfl⟩
    | true => exact hlike hb l rfl

theorem shaped_eq_true (hlike : test m ty = .ok true → ∀ l ∈ like, ∃ b, m.sameShape ty l = .ok b) :
    test.shaped like m ty = .ok true ↔ test m ty = .ok true ∧ ∀ l ∈ like, m.Alike ty l := by
  cases like with
  | none => simp [shaped]
  | some l =>
    simp only [shaped, and_eq_true, Option.mem_some_iff, forall_eq']
    exact and_congr_right fun htest => Module.sameShape_eq_true_iff (hlike htest l rfl)

end Predicate

/-! ### What there is to choose from -/

namespace State

variable {ρ : Type} {c : Config} {s : State ρ} {scope : ScopeId} {test : Predicate}

/-- The type of the result of an instruction, if it has a result and a type. -/
def resultTypeOf (s : State ρ) (id : InstrId) : Option EntryId :=
  s.code.instrs[id.index]?.bind fun i =>
    if i.opcode.isTyped && i.opcode.hasResult then i.resultType else none

/-- Those of some instructions that have a typed result, with the types. -/
def results (s : State ρ) (ids : List InstrId) : List (Value × EntryId) :=
  ids.filterMap fun id => (s.resultTypeOf id).map fun ty => (.instr id, ty)

/-- The results of some instructions and the constants of the table. -/
def offered (s : State ρ) (ids : List InstrId) : List (Value × EntryId) :=
  s.results ids ++ s.code.table.constants.map fun x => (.entry x.1, x.2.ty)

/-- The values whose type passes a test. -/
def passing (s : State ρ) (test : Predicate) (xs : List (Value × EntryId)) : List Value :=
  (xs.filter fun x => test.passes s.code x.2).map Prod.fst

/-- A search among the statements lists the results in sight that pass its test, and keeps
their order. -/
theorem statementsWhere_eq (hscope : (s.scopes.get? scope).isSome)
    (hknown : ∀ id ∈ s.scopes.visible scope, ∃ i, s.code.instrs[id.index]? = some i)
    (htest : ∀ x ∈ s.results (s.scopes.visible scope), ∃ b, test s.code x.2 = .ok b) :
    s.statementsWhere scope test = .ok (s.passing test (s.results (s.scopes.visible scope))) := by
  have hyields : ∀ id ∈ s.scopes.visible scope, s.yields test id =
      .ok ((s.resultTypeOf id).any (test.passes s.code)) := by
    intro id hid
    obtain ⟨i, hi⟩ := hknown id hid
    simp only [yields, Module.instr_eq_ok.mpr hi, bind, Except.bind, resultTypeOf, hi,
      Option.bind_some]
    cases hty : i.resultType with
    | none => split_ifs <;> rfl
    | some ty =>
      simp only
      split_ifs with hresult
      · refine Predicate.eq_passes (htest (.instr id, ty) ?_)
        refine List.mem_filterMap.mpr ⟨id, hid, ?_⟩
        simp only [resultTypeOf, hi, Option.bind_some, hresult, if_true, hty, Option.map_some]
      · rfl
  simp only [statementsWhere, visible, hscope, if_true, filterM_eq_filter hyields, bind,
    Except.bind, pure, Except.pure, passing, results]
  -- the instructions that pass are those whose results do
  generalize s.scopes.visible scope = ids
  induction ids with
  | nil => rfl
  | cons id ids ih =>
    rw [Except.ok.injEq] at ih ⊢
    rw [List.filterMap_cons, List.filter_cons]
    cases hty : s.resultTypeOf id with
    | none => simpa using ih
    | some ty => cases hp : test.passes s.code ty <;> simp [hp, ih]

theorem constantsWhere_eq (htest : ∀ x ∈ s.code.table.constants, ∃ b, test s.code x.2.ty = .ok b) :
    s.constantsWhere test =
      .ok (s.passing test (s.code.table.constants.map fun x => (.entry x.1, x.2.ty))) := by
  have hall : ∀ x ∈ s.code.table.constants, test s.code x.2.ty =
      .ok (test.passes s.code x.2.ty) := fun x hx => Predicate.eq_passes (htest x hx)
  have hfilter := filterM_eq_filter hall
  simp only [constantsWhere, hfilter, bind, Except.bind, pure, Except.pure, passing,
    List.filter_map, List.map_map]
  rfl

/-- A search for operands lists what is offered and passes its test. -/
theorem operandsWhere_eq (hscope : (s.scopes.get? scope).isSome)
    (hknown : ∀ id ∈ s.scopes.visible scope, ∃ i, s.code.instrs[id.index]? = some i)
    (htest : ∀ x ∈ s.offered (s.scopes.visible scope), ∃ b, test s.code x.2 = .ok b) :
    s.operandsWhere scope test = .ok (s.passing test (s.offered (s.scopes.visible scope))) := by
  have hstatements := statementsWhere_eq hscope hknown fun x hx =>
    htest x (List.mem_append_left _ hx)
  have hconstants : s.constantsWhere test = _ := constantsWhere_eq fun x hx =>
    htest (.entry x.1, x.2.ty) (List.mem_append_right _ (List.mem_map_of_mem hx))
  simp only [operandsWhere, hstatements, hconstants, bind, Except.bind, pure, Except.pure, passing,
    offered, List.filter_append, List.map_append]

theorem mem_passing {xs : List (Value × EntryId)} {v : Value} :
    v ∈ s.passing test xs ↔ ∃ ty, (v, ty) ∈ xs ∧ test s.code ty = .ok true := by
  simp [passing, Predicate.passes_iff]

end State

namespace Gen

variable {ρ : Type} [RandomSource ρ] [BoundedRandomSource ρ] {α : Type} {c : Config}
  {s : State ρ}

/-- A draw from a list fails only if the list is empty. -/
theorem pick_ends (items : List α) :
    Ends (pick items) c s (fun a _ => a ∈ items) fun e _ => e = .infeasible ∧ items = [] := by
  refine .bind (.draw ?_)
  cases items with
  | nil => exact ⟨rfl, rfl⟩
  | cons item items =>
    have hlt := BoundedRandomSource.below_lt 1 (item :: items).length s.source (Nat.succ_pos _)
    have hsome : (RandomSource.pick (item :: items) s.source).1 = some _ :=
      List.getElem?_eq_getElem hlt
    rw [hsome]
    exact .pure (List.getElem_mem hlt)

/-- An operand that passes a test, of the same shape as another type if one is given. -/
def operandShaped (scope : ScopeId) (test : Predicate) : Option EntryId → Gen ρ Value
  | none => operand scope test
  | some like => operandLike scope test like

/-- What is drawn as an operand is offered and fits, and there is none only if nothing of what
is offered fits. -/
theorem operandShaped_ends {scope : ScopeId} {test : Predicate} {like : Option EntryId}
    (hscope : (s.scopes.get? scope).isSome)
    (hknown : ∀ id ∈ s.scopes.visible scope, ∃ i, s.code.instrs[id.index]? = some i)
    (htest : ∀ x ∈ s.offered (s.scopes.visible scope), ∃ b, test s.code x.2 = .ok b)
    (hlike : ∀ x ∈ s.offered (s.scopes.visible scope), test s.code x.2 = .ok true →
      ∀ l ∈ like, ∃ b, s.code.sameShape x.2 l = .ok b) :
    Ends (operandShaped scope test like) c s
      (fun v _ => ∃ ty, (v, ty) ∈ s.offered (s.scopes.visible scope) ∧
        test s.code ty = .ok true ∧ ∀ l ∈ like, s.code.Alike ty l)
      fun e _ => e = .infeasible ∧ ¬∃ v ty, (v, ty) ∈ s.offered (s.scopes.visible scope) ∧
        test s.code ty = .ok true ∧ ∀ l ∈ like, s.code.Alike ty l := by
  have hshaped : (operandShaped scope test like : Gen ρ Value) =
      operand scope (test.shaped like) := by cases like <;> rfl
  have hsearch := State.operandsWhere_eq hscope hknown fun x hx =>
    Predicate.shaped_answers (htest x hx) (hlike x hx)
  -- a value is among the hits if and only if it is offered and fits
  have hhit (v : Value) : v ∈ s.passing (test.shaped like) (s.offered (s.scopes.visible scope)) ↔
      ∃ ty, (v, ty) ∈ s.offered (s.scopes.visible scope) ∧
        test s.code ty = .ok true ∧ ∀ l ∈ like, s.code.Alike ty l := by
    rw [State.mem_passing]
    exact exists_congr fun ty => and_congr_right fun hx =>
      Predicate.shaped_eq_true (hlike _ hx)
  rw [hshaped]
  refine .bind (.bind (.get ?_))
  simp only [hsearch]
  refine .pure ((pick_ends _).mono (fun v _ hv => (hhit v).mp hv) ?_)
  rintro e _ ⟨he, hnil⟩
  refine ⟨he, fun ⟨v, hv⟩ => ?_⟩
  have := (hhit v).mpr hv
  rw [hnil] at this
  cases this

end Gen

/-! ### Searches and histories -/

/-- The number of the slot or the instruction that a value is. -/
def Value.number : Value → Nat
  | .entry id => id.index
  | .instr id => id.index

/-- The slots of the table, the instructions and the scopes have numbers of 32 bits. -/
structure State.Addressable {ρ : Type} (s : State ρ) : Prop where
  table : s.code.table.Addressable
  instrs : s.code.instrs.size ≤ UInt32.size
  scopes : s.scopes.Addressable

theorem State.Addressable.number_lt {ρ : Type} {s : State ρ} (hs : s.Addressable)
    {ids : List InstrId} {y : Value × EntryId} (hy : y ∈ s.offered ids) :
    y.1.number < UInt32.size := by
  rcases List.mem_append.mp hy with hy | hy
  · obtain ⟨id, -, hid⟩ := List.mem_filterMap.mp hy
    obtain ⟨ty, hty, rfl⟩ := Option.map_eq_some_iff.mp hid
    obtain ⟨i, hi, -⟩ := Option.bind_eq_some_iff.mp hty
    exact (Array.getElem?_eq_some_iff.mp hi).1.trans_le hs.instrs
  · obtain ⟨x, hx, rfl⟩ := List.mem_map.mp hy
    exact hs.table.index_lt (Table.mem_constants.mp hx)

section History

open ScopeTree

variable {ρ : Type} [RandomSource ρ] [BoundedRandomSource ρ]

/-- After any history of scopes and declarations, as long as numbers of 32 bits are enough, the
way up from a scope ends at the root, is as long as the scope is deep and gives it its
function, and what is in sight was declared on it. A search among the statements lists those
results that pass its test, the innermost scope first. A draw of an operand takes one of them
or a constant, of the shape that is asked for, and fails only if none is left. The tests are
those that have an answer on everything they are asked about. -/
theorem State.finds_of_after? {calls : List Call} {c : Config} {s : State ρ} {scope : ScopeId}
    {x : Scope} {test : Predicate} {like : Option EntryId}
    (hcalls : after? calls = some s.scopes) (hs : s.Addressable)
    (hx : s.scopes.get? scope = some x)
    (hknown : ∀ id ∈ s.scopes.visible scope, ∃ i, s.code.instrs[id.index]? = some i)
    (htest : ∀ y ∈ s.offered (s.scopes.visible scope), ∃ b, test s.code y.2 = .ok b)
    (hlike : ∀ y ∈ s.offered (s.scopes.visible scope), test s.code y.2 = .ok true →
      ∀ l ∈ like, ∃ b, s.code.sameShape y.2 l = .ok b) :
    ∃ path, Call.Path calls scope path ∧ path.getLast? = some root ∧
      (∀ r ∈ path, r.index < UInt32.size) ∧
      (∀ y ∈ s.offered (path.flatMap (Call.declaredIn calls)), y.1.number < UInt32.size) ∧
      x.depth + 1 = path.length ∧ x.function = path.findSome? (Call.functionOf calls) ∧
      List.Forall₂ (fun r y => s.scopes.get? r = some y) path (s.scopes.ancestors scope) ∧
      s.statementsWhere scope test =
        .ok (s.passing test (s.results (path.flatMap (Call.declaredIn calls)))) ∧
      Gen.Ends (Gen.operandShaped scope test like) c s
        (fun v _ => ∃ ty, (v, ty) ∈ s.offered (path.flatMap (Call.declaredIn calls)) ∧
          test s.code ty = .ok true ∧ ∀ l ∈ like, s.code.Alike ty l)
        fun e _ => e = .infeasible ∧
          ¬∃ v ty, (v, ty) ∈ s.offered (path.flatMap (Call.declaredIn calls)) ∧
            test s.code ty = .ok true ∧ ∀ l ∈ like, s.code.Alike ty l := by
  have hrecords := records_of_after? hcalls
  obtain ⟨path, hpath⟩ := hrecords.exists_path hx
  obtain ⟨hdepth, hfunction⟩ := hrecords.depth_function hpath hx
  have hscope : (s.scopes.get? scope).isSome := by rw [hx]; rfl
  have hstatements := State.statementsWhere_eq hscope hknown fun y hy =>
    htest y (List.mem_append_left _ hy)
  have hoperand : Gen.Ends (Gen.operandShaped scope test like) c s _ _ :=
    Gen.operandShaped_ends hscope hknown htest hlike
  rw [hrecords.visible hpath hx] at hstatements hoperand
  exact ⟨path, hpath, hpath.getLast?,
    fun r hr => (hrecords.lt_size_of_mem hpath hx hr).trans_le hs.scopes, fun y => hs.number_lt,
    hdepth, hfunction, hrecords.ancestors hpath hx, hstatements, hoperand⟩

namespace ScopeTree.Call

/-- A function body with two arms, and a statement in each of the three. -/
def arms : List Call :=
  [.child root (some ⟨0⟩), .declare ⟨1⟩ ⟨1⟩, .child ⟨1⟩ none, .declare ⟨2⟩ ⟨2⟩, .child ⟨1⟩ none,
    .declare ⟨3⟩ ⟨3⟩]

end ScopeTree.Call

/-- Four results of a type of integers, in the scopes that `Call.arms` makes. -/
def State.arms : State Script where
  source := {}
  code :=
    { table := (Table.empty.intern (.type (.int 32 true))).2
      instrs := .replicate 4 { opcode := .iAdd, resultType := some ⟨0⟩ } }
  scopes := (after? Call.arms).getD {}

/-- In the second arm, the statement of the other arm is not found. -/
theorem State.finds_arms :
    ∃ path, Call.Path Call.arms ⟨3⟩ path ∧ path.getLast? = some root ∧
      2 + 1 = path.length ∧ some ⟨0⟩ = path.findSome? (Call.functionOf Call.arms) ∧
      State.arms.statementsWhere ⟨3⟩ (.exactly ⟨0⟩) = .ok [.instr ⟨3⟩, .instr ⟨1⟩] := by
  have hbelow : ∀ id ∈ State.arms.scopes.visible ⟨3⟩, id.index < State.arms.code.instrs.size := by
    decide
  have hshape : ∀ y ∈ State.arms.offered (State.arms.scopes.visible ⟨3⟩),
      Predicate.exactly ⟨0⟩ State.arms.code y.2 = .ok true →
        ∀ l ∈ some (⟨0⟩ : EntryId), ∃ b, State.arms.code.sameShape y.2 l = .ok b := by
    rintro ⟨v, ty⟩ - hty l hl
    obtain rfl : ty = ⟨0⟩ := Predicate.exactly_eq_true.mp hty
    cases hl
    exact ⟨true, rfl⟩
  have hwords : State.arms.Addressable := ⟨by decide +kernel, by decide, by decide⟩
  obtain ⟨path, hpath, hlast, -, -, hdepth, hfunction, -, hsearch, -⟩ :=
    @State.finds_of_after? _ _ _ Call.arms {} State.arms ⟨3⟩ ⟨some ⟨1⟩, some ⟨0⟩, 2, #[⟨3⟩]⟩
      (.exactly ⟨0⟩) (some ⟨0⟩) rfl hwords rfl
      (fun id hid => ⟨_, Array.getElem?_eq_getElem (hbelow id hid)⟩) (fun _ _ => ⟨_, rfl⟩) hshape
  have hway : Call.Path Call.arms ⟨3⟩ [⟨3⟩, ⟨1⟩, ⟨0⟩] := .child rfl (.child rfl .root)
  rw [hpath.unique hway] at hsearch
  exact ⟨path, hpath, hlast, hdepth, hfunction, hsearch⟩

end History

end ShaderGen
