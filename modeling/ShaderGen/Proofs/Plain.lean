import ShaderGen.Proofs.Searching

/-!
What routines are made of. A plain step searches, opens scopes and adds instructions that
declare nothing; nearly all of the generator is made of plain steps. What else there is in a
routine is named beside it, so whatever plain steps keep is kept by a routine if it is kept
by those few others.
-/

namespace ShaderGen.Gen

variable {ρ α β : Type} {special : (α : Type) → Gen ρ α → Prop}

/-- The steps of plain routines that leave something behind besides types and constants. -/
inductive Lasting (special : (α : Type) → Gen ρ α → Prop) : (α : Type) → Gen ρ α → Prop
  | but {α : Type} {x : Gen ρ α} (h : special α x) : Lasting special α x
  | alloc (i : Instr) (h : i.opcode ≠ .var) : Lasting special InstrId (Gen.alloc i)
  | rescope (f : ScopeTree → ScopeTree) :
      Lasting special Unit (modify fun s => { s with scopes := f s.scopes })

/-- A step is plain but for steps of a special kind. -/
abbrev Plain (special : (α : Type) → Gen ρ α → Prop) (x : Gen ρ α) : Prop :=
  Searching (Lasting special) x

namespace Plain

theorem but {x : Gen ρ α} (h : special α x) : Plain special x := Searching.but (.but h)

@[grind ←]
theorem alloc (i : Instr) (h : i.opcode ≠ .var) : Plain special (Gen.alloc i) :=
  Searching.but (.alloc i h)

theorem rescope (f : ScopeTree → ScopeTree) :
    Plain special (modify fun s => { s with scopes := f s.scopes }) :=
  Searching.but (.rescope f)

theorem mono {special' : (α : Type) → Gen ρ α → Prop} {x : Gen ρ α} (h : Plain special x)
    (hspecial : ∀ {α : Type} (y : Gen ρ α), special α y → special' α y) : Plain special' x := by
  refine Searching.mono h fun y hy => ?_
  cases hy with
  | but h => exact .but (hspecial _ h)
  | alloc i h => exact .alloc i h
  | rescope f => exact .rescope f

end Plain

/-! ### Statements -/

variable [RandomSource ρ]

omit [RandomSource ρ] in
@[grind ←]
theorem emit_plain (op : Opcode) (ty : EntryId) (operands : List Operand) (h : op ≠ .var) :
    Plain (ρ := ρ) special (emit op ty operands) := by
  grind [emit]

omit [RandomSource ρ] in
/-- What searches and emits is plain. -/
theorem Emits.plain {x : Gen ρ Production} (h : Emits x) : Plain special x := by
  induction h with
  | emit op ty operands hop => exact emit_plain op ty operands hop
  | infeasible => exact .infeasible
  | bind hx _ hg => exact .bind (hx.mono fun _ h => h.elim) hg

/-! ### Imports -/

omit [RandomSource ρ] in
/-- An instruction of the extended set, with the import of the set in front of it. -/
def emitExtended (ty : EntryId) (operands : List Operand) : Gen ρ Production := do
  let set ← build (·.importSet ExtendedOp.setName)
  emit .extInst ty (.importSet set :: operands)

section Imports

variable (h : ∀ ty operands, Plain (ρ := ρ) special (emitExtended ty operands))
include h

theorem extendedWith_plain (scope : ScopeId) (op : ExtendedOp) :
    Plain (ρ := ρ) special (extendedWith scope op) := by
  unfold extendedWith
  refine .bind (typedOperand_searching _ _) fun _ =>
    .bind (.mapM (fun _ => operandOf_searching _ _) _) fun _ => ?_
  dsimp only
  split
  · exact .bind (.query _) fun _ => h _ _
  · exact h _ _

theorem firstExtended_plain (scope : ScopeId) (ops : List ExtendedOp) :
    Plain (ρ := ρ) special (firstExtended scope ops) := by
  induction ops with
  | nil => exact .infeasible
  | cons op ops ih =>
    refine .bind (.attempt (extendedWith_plain h scope op)) fun o => ?_
    cases o with
    | none => exact ih
    | some production => exact .pure production

/-- An instruction of the extended set is plain but for its import. -/
theorem extended_plain (scope : ScopeId) : Plain (ρ := ρ) special (extended scope) := by
  unfold extended
  exact .bind (.draw _) fun _ => firstExtended_plain h _ _

end Imports

/-! ### Scopes and functions -/

omit [RandomSource ρ] in
@[grind ←]
theorem childScope_plain (parent : ScopeId) (function : Option InstrId) :
    Plain (ρ := ρ) special (childScope parent function) := by
  refine .bind .get fun s => ?_
  split
  · exact .fault _
  · exact .bind (Plain.rescope fun _ => _) fun _ => .pure _

omit [RandomSource ρ] in
@[grind ←]
theorem declare_plain (scope : ScopeId) (id : InstrId) :
    Plain (ρ := ρ) special (declare scope id) :=
  .bind (.ask _) fun _ => Plain.rescope fun scopes => scopes.declare scope id

omit [RandomSource ρ] in
@[grind ←]
theorem append_plain (scope : ScopeId) (block : Block) (production : Production) :
    Plain (ρ := ρ) special (append scope block production) := by
  grind [append]

omit [RandomSource ρ] in
@[grind ←]
theorem parameterOf_plain (scope : ScopeId) (ty : EntryId) :
    Plain (ρ := ρ) special (parameterOf scope ty) := by
  grind [parameterOf]

/-! ### Kinds of statements -/

theorem selection_plain {arm : Option (ScopeId → Gen ρ Block)}
    (harm : ∀ f ∈ arm, ∀ scope, Plain special (f scope)) (scope : ScopeId) :
    Plain special (selection arm scope) := by
  refine .bind (.ask _) fun _ => ?_
  cases arm with
  | none => exact .infeasible
  | some f =>
    have hfill : ∀ scope, Plain special (f scope) := harm f rfl
    rw [require, pure_bind]
    refine .bind (operand_searching _ _) fun _ => .bind (childScope_plain _ _) fun _ =>
      .bind (hfill _) fun _ => .bind (childScope_plain _ _) fun _ => .bind (hfill _) fun _ => ?_
    have halloc : ∀ i : Instr, i.opcode ≠ .var → Plain special (alloc i) := .alloc
    exact .bind (halloc _ nofun) fun _ => .bind (halloc _ nofun) fun _ =>
      .bind (halloc _ nofun) fun _ => .bind (halloc _ nofun) fun _ =>
        .bind (halloc _ nofun) fun _ => .bind (halloc _ nofun) fun _ =>
          .bind (halloc _ nofun) fun _ => .pure _

/-- A statement is plain but for the arms of selections, variables and what is imported. -/
theorem variantWith_plain {arm : Option (ScopeId → Gen ρ Block)}
    (harm : ∀ f ∈ arm, ∀ scope, Plain special (f scope)) (hvar : Plain special localVariable)
    (scope : ScopeId) {op : Opcode} (hextended : op = .extInst → Plain special (extended scope)) :
    Plain special (variantWith arm scope op) := by
  cases hrecipe : op.recipe? with
  | none =>
    simp only [variantWith, hrecipe]
    exact .stop nofun
  | some recipe =>
    cases recipe with
    | localVariable =>
      simp only [variantWith, hrecipe]
      exact hvar
    | store =>
      simp only [variantWith, hrecipe]
      grind [store]
    | extended =>
      have heq : op = .extInst := by cases op <;> first | rfl | cases hrecipe
      simp only [variantWith, hrecipe]
      exact hextended heq
    | selection =>
      simp only [variantWith, hrecipe]
      exact selection_plain harm scope
    | _ => exact (variantWith_emits arm scope hrecipe (by simp)).plain

/-! ### Variables -/

/-- The steps that declare and decorate variables are special. -/
structure Declaring (special : (α : Type) → Gen ρ α → Prop) : Prop where
  alloc : ∀ i, Plain special (Gen.alloc i)
  annotate : ∀ a, Plain special (Gen.annotate a)
  moduleVariable : ∀ storage pointer initial,
    Plain special (Gen.moduleVariable storage pointer initial)

section Declaring

variable (h : Declaring special)
include h

theorem newVariable_plain (storage : StorageClass) (ty : EntryId) :
    Plain (ρ := ρ) special (newVariable storage ty) := by
  have halloc := h.alloc
  have hvar := h.moduleVariable
  cases storage <;> grind [newVariable]

theorem localVariable_plain : Plain (ρ := ρ) special localVariable := by
  have hnew := newVariable_plain h
  grind [localVariable]

theorem storageBuffer_plain (binding : Nat) : Plain (ρ := ρ) special (storageBuffer binding) := by
  have hannotate := h.annotate
  have hdecorate : ∀ block offsets, Plain (ρ := ρ) special (decorateBlock block offsets) := by
    grind [decorateBlock]
  refine .bind (range_searching _ _) fun _ =>
    .bind (.mapM (fun _ => bufferMember_searching) _) fun _ => .bind (.query _) fun _ =>
      .bind (.require _) fun _ => .bind (.internType _ nofun) fun _ =>
        .bind (hdecorate _ _) fun _ => .bind (newVariable_plain h _ _) fun v => ?_
  cases v with
  | instr => exact .infeasible
  | entry => exact .bind (hannotate _) fun _ => .bind (hannotate _) fun _ => .pure _

theorem storageBuffers_plain : Plain (ρ := ρ) special storageBuffers := by
  have hfrom : ∀ count binding, Plain (ρ := ρ) special (storageBuffersFrom count binding) := by
    intro count
    induction count with
    | zero => exact fun _ => .pure []
    | succ count ih =>
      exact fun binding => .bind (.attempt (storageBuffer_plain h _)) fun _ =>
        .bind (ih _) fun _ => .pure _
  grind [storageBuffers]

theorem privateVariables_plain : Plain (ρ := ρ) special privateVariables := by
  have hwithin : ∀ count, Plain (ρ := ρ) special (privateVariablesWithin count) := by
    intro count
    induction count with
    | zero => exact .pure []
    | succ count ih =>
      have hnew := newVariable_plain h
      grind [privateVariablesWithin]
  grind [privateVariables]

end Declaring

/-! ### Routines that keep books -/

/-- Whatever leaves the module and the number of its variables alone is special. -/
def Indifferent (special : (α : Type) → Gen ρ α → Prop) : Prop :=
  ∀ {α : Type} (x : Gen ρ α), (∀ c s, (x.run c s).2.code = s.code ∧
    (x.run c s).2.nextSerial = s.nextSerial) → special α x

section Indifferent

variable (h : Indifferent special)
include h

omit [RandomSource ρ] in
theorem modify_plain (f : State ρ → State ρ) (hcode : ∀ s, (f s).code = s.code)
    (hserial : ∀ s, (f s).nextSerial = s.nextSerial) : Plain special (modify f) :=
  .but (h _ fun _ s => ⟨hcode s, hserial s⟩)

omit [RandomSource ρ] in
theorem stop_plain (cause : Stop) : Plain special (stop cause : Gen ρ α) :=
  .but (h _ fun _ _ => ⟨rfl, rfl⟩)

theorem parametrize_plain (cat : Category) : Plain (ρ := ρ) special (parametrize cat) := by
  have hmodify := modify_plain h
  grind [parametrize]

theorem ensureParametrized_plain (cat : Category) :
    Plain (ρ := ρ) special (ensureParametrized cat) := by
  have hparametrize := parametrize_plain h cat
  grind [ensureParametrized]

theorem pinZero_plain (cat : Category) (op : Opcode) :
    Plain (ρ := ρ) special (pinZero cat op) :=
  .bind (ensureParametrized_plain h cat) fun _ =>
    modify_plain h _ (fun _ => rfl) fun _ => rfl

theorem prune_plain (cat : Category) (op : Opcode) : Plain (ρ := ρ) special (prune cat op) :=
  .bind (modify_plain h _ (fun _ => rfl) fun _ => rfl) fun _ => pinZero_plain h cat op

theorem maybeMutate_plain : Plain (ρ := ρ) special maybeMutate := by
  have hparametrize := parametrize_plain h .statement
  grind [maybeMutate]

theorem applyExclusions_plain (cat : Category) :
    Plain (ρ := ρ) special (applyExclusions cat) := by
  have hpin := pinZero_plain h cat
  grind [applyExclusions]

theorem resample_plain (cat : Category) {produce : Opcode → Gen ρ α}
    (hproduce : ∀ op, Plain special (produce op)) (rounds : Nat) :
    Plain special (resample cat produce rounds) := by
  have hprune := prune_plain h cat
  have hstop : ∀ cause, Plain (α := α) special (stop cause) := stop_plain h
  have hcount : Plain (ρ := ρ) special countStatement :=
    .bind .get fun _ => .bind (.checked _) fun _ =>
      modify_plain h _ (fun _ => rfl) fun _ => rfl
  induction rounds with
  | zero => exact .fault _
  | succ rounds ih =>
    refine .bind (sample?_searching cat) fun drawn => ?_
    cases drawn with
    | none => grind
    | some op =>
      refine .bind (.attempt (hproduce op)) fun made => ?_
      cases made with
      | none => exact .bind (hprune op) fun _ => ih
      | some a => grind

omit [RandomSource ρ] in
theorem checkBudget_plain : Plain (ρ := ρ) special checkBudget := by
  have hstop : ∀ cause, Plain (ρ := ρ) (α := Unit) special (stop cause) := stop_plain h
  grind [checkBudget]

theorem dispatch_plain (cat : Category) {produce : Opcode → Gen ρ α}
    (hproduce : ∀ op, Plain special (produce op)) : Plain special (dispatch cat produce) := by
  have hbudget := checkBudget_plain (ρ := ρ) h
  have hensure := ensureParametrized_plain h cat
  have hmutate := maybeMutate_plain h
  have hexclude := applyExclusions_plain h cat
  have hresample := resample_plain h cat hproduce
  grind [dispatch]

theorem addFunctionType_plain (id : EntryId) :
    Plain (ρ := ρ) special (addFunctionType id) := by
  have hmodify := modify_plain h
  have hpin := pinZero_plain h .type .typeFunction
  grind [addFunctionType]

/-- Types are made by plain steps, arrays aside. -/
theorem typeVariant_plain {nested : Category → Gen ρ EntryId}
    (harray : ∀ element length, Plain (ρ := ρ) special (internType (.array element length)))
    (hnested : ∀ cat, Plain special (nested cat)) (op : Opcode) :
    Plain special (typeVariant nested op) :=
  typeVariant_searching op harray (fun _ => addFunctionType_plain h) fun cat _ _ => hnested cat

theorem typeWithin_plain
    (harray : ∀ element length, Plain (ρ := ρ) special (internType (.array element length)))
    (nesting : Nat) (cat : Category) :
    Plain (ρ := ρ) special (typeWithin nesting cat) := by
  induction nesting generalizing cat with
  | zero => exact dispatch_plain h cat (typeVariant_plain h harray fun _ => .fault _)
  | succ nesting ih => exact dispatch_plain h cat (typeVariant_plain h harray ih)

theorem constant_plain
    (harray : ∀ element length, Plain (ρ := ρ) special (internType (.array element length))) :
    Plain (ρ := ρ) special constant := by
  exact dispatch_plain h .constant
    (constantVariant_searching (typeWithin_plain h harray _ .numericType))

theorem entryPointType_plain : Plain (ρ := ρ) special entryPointType :=
  .bind (.internType _ nofun) fun _ => .bind (.internType _ nofun) fun id =>
    addFunctionType_plain h id

omit [RandomSource ρ] h in
theorem fill_plain (isEnough : State ρ → Bool) {produce : Gen ρ EntryId}
    (hproduce : Plain special produce) (attempts : Nat) :
    Plain special (fill isEnough produce attempts) := by
  induction attempts with
  | zero => exact .pure ()
  | succ attempts ih => grind [fill]

variable (hvar : Plain (ρ := ρ) special localVariable)
  (hextended : ∀ scope, Plain (ρ := ρ) special (extended scope))
include hvar hextended

theorem blockWith_plain {arm : Option (ScopeId → Gen ρ Block)}
    (harm : ∀ f ∈ arm, ∀ scope, Plain special (f scope)) (scope : ScopeId) :
    Plain special (blockWith arm scope) := by
  have hstatement : Plain special (statementWith arm scope) :=
    dispatch_plain h .statement fun _ => variantWith_plain harm hvar scope fun _ => hextended scope
  have hfill : ∀ rounds block,
      Plain special (fillBlock (statementWith arm scope) scope rounds block) := by
    intro rounds
    induction rounds with
    | zero => exact fun _ => .fault _
    | succ rounds ih => grind [fillBlock]
  grind [blockWith]

theorem arms_plain (levels : Nat) :
    ∀ f ∈ arms (ρ := ρ) levels, ∀ scope, Plain special (f scope) := by
  induction levels with
  | zero => exact nofun
  | succ levels ih =>
    rintro f hf scope
    obtain rfl := Option.some.inj hf
    exact blockWith_plain h hvar hextended ih scope

theorem function_plain (ty : EntryId) : Plain (ρ := ρ) special (function ty) := by
  have hblock : ∀ scope, Plain (ρ := ρ) special (block scope) := fun scope =>
    .bind (levelsLeft_searching scope) fun levels =>
      blockWith_plain h hvar hextended (arms_plain h hvar hextended levels) scope
  refine .bind (.query _) fun t => ?_
  split
  · grind [label]
  · exact .stop nofun

theorem functions_plain : Plain (ρ := ρ) special functions := by
  have hall : ∀ tys, Plain (ρ := ρ) special (functionsOf tys) := by
    intro tys
    induction tys with
    | nil => exact .pure _
    | cons ty tys ih =>
      exact .bind (function_plain h hvar hextended ty) fun _ => .bind ih fun _ => .pure _
  refine .bind .get fun s => .bind (hall _) fun made => ?_
  split
  · exact .stop nofun
  · exact .pure _

omit hvar in
/-- A whole program is plain but for arrays, variables and what is imported. -/
theorem program_plain (hdeclaring : Declaring special)
    (harray : ∀ element length, Plain (ρ := ρ) special (internType (.array element length))) :
    Plain (ρ := ρ) special program := by
  have htype : Plain (ρ := ρ) special (type .type) := typeWithin_plain h harray _ .type
  have htable : Plain (ρ := ρ) special globalTable :=
    .bind (entryPointType_plain h) fun _ => .bind .read fun _ => .bind (.checked _) fun _ =>
      .bind (fill_plain _ htype _) fun _ => .bind .read fun _ => .bind (.checked _) fun _ =>
        .bind (fill_plain _ (constant_plain h harray) _) fun _ =>
          .bind (storageBuffers_plain hdeclaring) fun _ =>
            .bind (privateVariables_plain hdeclaring) fun _ => .pure _
  exact .bind htable fun _ => .bind (functions_plain h (localVariable_plain hdeclaring)
    hextended) fun _ => .bind .get fun _ => .pure _

end Indifferent

end ShaderGen.Gen
