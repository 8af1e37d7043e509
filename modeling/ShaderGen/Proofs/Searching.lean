import Mathlib.Algebra.Group.Nat.Defs
import ShaderGen.Generator.Program
import ShaderGen.Proofs.Step

/-!
Searching. A searching step reads and draws, and interns types and constants. Whatever a
routine does before it knows that it can go on is searching: operands are looked up, types
are derived from theirs, indices become constants. Such a step may give up and leaves nothing
behind but entries of the table. What else there is in a step is named beside it, so whatever
searching steps keep is kept by a step if it is kept by those few others. Statements of nearly
all kinds are a search with one instruction behind it. The rules below and the lemmas on
routines are tagged for `grind`, so a routine made of others needs its definition only.
-/

namespace ShaderGen.Gen

variable {ρ α β : Type}

/-! ### Parts of routines -/

/-- What drawing weights anew ends in: they are put in place, with nothing for extended
instructions unless the configuration has them. -/
def installWeights (cat : Category) (base : List Float) : Gen ρ Unit := do
  let weights :=
    if (← read).extendedInstructions then base
    else WeightTable.applyPins [.extInst] base cat.members
  let table ← checked ((← get).weights.install cat weights)
  modify fun s => { s with weights := table }

/-- The part of a new constant at an index: one that exists or one that is made. -/
def partConstant [RandomSource ρ] (make : EntryId → Gen ρ EntryId) (ty : EntryId) (index : Nat) :
    Gen ρ EntryId := do
  let part ← require (← query (·.memberType? ty index))
  let existing ← constantsOf part
  if existing.isEmpty then make part
  else if ← chance 0.5 then pick existing
  else make part

/-- A new constant of a type that has parts. -/
def compositeConstant [RandomSource ρ] (make : EntryId → Gen ρ EntryId) (ty : EntryId) :
    Gen ρ EntryId := do
  let count ← query (·.componentCount ty)
  let parts ← (List.range count).mapM (partConstant make ty)
  internConst (.composite ty parts)

/-! ### Rules -/

variable {special : (α : Type) → Gen ρ α → Prop}

/-- A step searches but for steps of a special kind. -/
inductive Searching (special : (α : Type) → Gen ρ α → Prop) : {α : Type} → Gen ρ α → Prop
  | but {α : Type} {x : Gen ρ α} (h : special α x) : Searching special x
  | pure {α : Type} (a : α) : Searching special (Pure.pure a)
  | bind {α β : Type} {x : Gen ρ α} {g : α → Gen ρ β} (hx : Searching special x)
      (hg : ∀ a, Searching special (g a)) : Searching special (x >>= g)
  | attempt {α : Type} {x : Gen ρ α} (hx : Searching special x) :
      Searching special (Gen.attempt x)
  | get : Searching special MonadState.get
  | read : Searching special MonadReader.read
  | infeasible {α : Type} : Searching special (Gen.infeasible : Gen ρ α)
  | stop {α : Type} {cause : Stop} (h : ∀ limit, cause ≠ .overBudget limit) :
      Searching special (Gen.stop cause : Gen ρ α)
  | draw {α : Type} (f : ρ → α × ρ) : Searching special (Gen.draw f)
  | internType (t : Ty) (h : t.opcode ≠ .typeArray) : Searching special (Gen.internType t)
  | internConst (k : Const) : Searching special (Gen.internConst k)

attribute [grind =] Ty.opcode

attribute [grind ←] Searching.pure Searching.bind Searching.attempt Searching.get Searching.read
  Searching.infeasible Searching.draw Searching.internType Searching.internConst

namespace Searching

variable {x : Gen ρ α}

theorem mono {special' : (α : Type) → Gen ρ α → Prop} (h : Searching special x)
    (hspecial : ∀ {α : Type} (y : Gen ρ α), special α y → special' α y) :
    Searching special' x := by
  induction h with
  | but h => exact .but (hspecial _ h)
  | pure a => exact .pure a
  | bind _ _ hx hg => exact .bind hx hg
  | attempt _ hx => exact .attempt hx
  | get => exact .get
  | read => exact .read
  | infeasible => exact .infeasible
  | stop h => exact .stop h
  | draw f => exact .draw f
  | internType t h => exact .internType t h
  | internConst k => exact .internConst k

@[grind ←]
theorem map {g : α → β} (hx : Searching special x) : Searching special (g <$> x) := by
  rw [map_eq_pure_bind]
  exact hx.bind fun _ => .pure _

@[grind ←]
theorem mapM {g : β → Gen ρ α} (hg : ∀ b, Searching special (g b)) (bs : List β) :
    Searching special (bs.mapM g) := by
  induction bs with
  | nil => exact .pure []
  | cons b bs ih =>
    rw [List.mapM_cons]
    exact (hg b).bind fun _ => ih.bind fun _ => .pure _

theorem mapM_replicate {g : β → Gen ρ α} {b : β} (hg : Searching special (g b)) (count : Nat) :
    Searching special ((List.replicate count b).mapM g) := by
  induction count with
  | zero => exact .pure []
  | succ count ih =>
    rw [List.replicate_succ, List.mapM_cons]
    exact hg.bind fun _ => ih.bind fun _ => .pure _

@[grind ←]
theorem forM {g : β → Gen ρ Unit} (hg : ∀ b, Searching special (g b)) (bs : List β) :
    Searching special (bs.forM g) := by
  induction bs with
  | nil => exact .pure ()
  | cons b bs ih => exact (hg b).bind fun _ => ih

@[grind ←]
theorem fault (e : Fault) : Searching special (Gen.fault e : Gen ρ α) := .stop nofun

@[grind ←]
theorem require (o : Option α) : Searching special (Gen.require o : Gen ρ α) := by
  cases o with
  | none => exact .infeasible
  | some a => exact .pure a

@[grind ←]
theorem checked (r : Except Fault α) : Searching special (Gen.checked r : Gen ρ α) := by
  cases r with
  | error e => exact .fault e
  | ok a => exact .pure a

@[grind ←]
theorem query (q : Module → Except Fault α) : Searching special (Gen.query q : Gen ρ α) :=
  .bind .get fun _ => .checked _

@[grind ←]
theorem ask (q : State ρ → Except Fault α) : Searching special (Gen.ask q) :=
  .bind .get fun _ => .checked _

end Searching

/-! ### Types and constants -/

@[grind ←]
theorem withComponents_searching (scalar : EntryId) (count : Nat) :
    Searching (ρ := ρ) special (withComponents scalar count) := by
  grind [withComponents]

@[grind ←]
theorem indexConstant_searching (n : Nat) : Searching (ρ := ρ) special (indexConstant n) := by
  grind [indexConstant, scalarConstant]

@[grind ←]
theorem functionsFull_searching : Searching (ρ := ρ) special functionsFull := by
  grind [functionsFull]

@[grind ←]
theorem constantsOf_searching (ty : EntryId) : Searching (ρ := ρ) special (constantsOf ty) := by
  grind [constantsOf]

@[grind ←]
theorem zeroWithin_searching (nesting : Nat) (ty : EntryId) :
    Searching (ρ := ρ) special (zeroWithin nesting ty) := by
  induction nesting generalizing ty with
  | zero => grind [zeroWithin]
  | succ nesting ih => grind [zeroWithin]

variable [RandomSource ρ]

@[grind ←]
theorem chance_searching (p : Float) : Searching (ρ := ρ) special (chance p) := by grind [chance]

@[grind ←]
theorem range_searching (lo hi : Nat) : Searching (ρ := ρ) special (range lo hi) := by
  grind [range]

@[grind ←]
theorem pick_searching (items : List α) : Searching (ρ := ρ) special (pick items) := by
  grind [pick]

@[grind ←]
theorem intWidth_searching : Searching (ρ := ρ) special intWidth := by grind [intWidth]

@[grind ←]
theorem floatWidth_searching : Searching (ρ := ρ) special floatWidth := by grind [floatWidth]

/-- A matrix is made of its columns. -/
@[grind ←]
theorem matrixType_bind_searching {g : Ty → Gen ρ α}
    (hg : ∀ t, t.opcode ≠ .typeArray → Searching special (g t)) :
    Searching special (matrixType >>= g) := by
  unfold matrixType
  simp only [bind_assoc, pure_bind]
  grind

@[grind ←]
theorem intValue_searching (width : Nat) (signed : Bool) :
    Searching (ρ := ρ) special (intValue width signed) := by
  grind [intValue]

@[grind ←]
theorem floatValue_searching (width : Nat) : Searching (ρ := ρ) special (floatValue width) := by
  grind [floatValue]

@[grind ←]
theorem existingType_searching (test : Ty → Bool) :
    Searching (ρ := ρ) special (existingType test) := by
  grind [existingType]

@[grind ←]
theorem partConstant_searching {make : EntryId → Gen ρ EntryId}
    (hmake : ∀ part, Searching special (make part)) (ty : EntryId) (index : Nat) :
    Searching special (partConstant make ty index) := by
  grind [partConstant]

@[grind ←]
theorem compositeConstant_searching {make : EntryId → Gen ρ EntryId}
    (hmake : ∀ part, Searching special (make part)) (ty : EntryId) :
    Searching special (compositeConstant make ty) := by
  grind [compositeConstant]

@[grind ←]
theorem constantWithin_searching (nesting : Nat) (ty : EntryId) :
    Searching (ρ := ρ) special (constantWithin nesting ty) := by
  induction nesting generalizing ty with
  | zero => grind [constantWithin]
  | succ nesting ih =>
    refine .bind (.query _) fun t => ?_
    cases t <;> first | exact compositeConstant_searching ih ty | grind

@[grind ←]
theorem constantOf_searching (ty : EntryId) : Searching (ρ := ρ) special (constantOf ty) := by
  grind [constantOf]

@[grind ←]
theorem initializer_searching (ty : EntryId) : Searching (ρ := ρ) special (initializer ty) := by
  grind [initializer, zero]

@[grind ←]
theorem variableType_searching : Searching (ρ := ρ) special variableType := by grind [variableType]

@[grind ←]
theorem bufferMember_searching : Searching (ρ := ρ) special bufferMember := by grind [bufferMember]

/-! ### Weights -/

@[grind ←]
theorem parameter_searching (r : Interval) : Searching (ρ := ρ) special (parameter r) := by
  grind [parameter]

@[grind ←]
theorem statementWeights_searching (n : Nat) : Searching (ρ := ρ) special (statementWeights n) := by
  grind [statementWeights]

@[grind ←]
theorem sample?_searching (cat : Category) : Searching (ρ := ρ) special (sample? cat) := by
  grind [sample?]

omit [RandomSource ρ] in
/-- One more statement is counted, unless the count is full. -/
theorem countStatement_ends (c : Config) (s : State ρ) : Ends countStatement c s
    (fun _ s' => s.statements + 1 < 2 ^ 64 ∧ s' = { s with statements := s.statements + 1 })
    fun e s' => e = .stopped (.fault .overflow) ∧ 2 ^ 64 ≤ s.statements + 1 ∧ s' = s := by
  refine .bind (.get (.bind ?_))
  by_cases hfits : s.statements + 1 < 2 ^ 64
  · have hword : Fault.checkWord 64 (s.statements + 1) = .ok (s.statements + 1) := if_pos hfits
    rw [hword]
    exact .pure (.modify ⟨hfits, rfl⟩)
  · have hword : Fault.checkWord 64 (s.statements + 1) = .error .overflow := if_neg hfits
    rw [hword]
    exact .fault ⟨rfl, Nat.not_lt.mp hfits, rfl⟩

/-! ### Statements -/

@[grind ←]
theorem operand_searching (scope : ScopeId) (test : Predicate) :
    Searching (ρ := ρ) special (operand scope test) := by
  grind [operand]

@[grind ←]
theorem operandLike_searching (scope : ScopeId) (test : Predicate) (like : EntryId) :
    Searching (ρ := ρ) special (operandLike scope test like) := operand_searching _ _

@[grind ←]
theorem operandOf_searching (scope : ScopeId) (ty : EntryId) :
    Searching (ρ := ρ) special (operandOf scope ty) :=
  operand_searching _ _

omit [RandomSource ρ] in
@[grind ←]
theorem typeOf_searching (v : Value) : Searching (ρ := ρ) special (typeOf v) := by grind [typeOf]

@[grind ←]
theorem typedOperand_searching (scope : ScopeId) (test : Predicate) :
    Searching (ρ := ρ) special (typedOperand scope test) := by
  grind [typedOperand]

omit [RandomSource ρ] in
@[grind ←]
theorem boolWithComponents_searching (count : Nat) :
    Searching (ρ := ρ) special (boolWithComponents count) := by
  grind [boolWithComponents]

@[grind ←]
theorem matrixOperand_searching (scope : ScopeId) :
    Searching (ρ := ρ) special (matrixOperand scope) := by
  grind [matrixOperand]

@[grind ←]
theorem vectorOperand_searching (scope : ScopeId) :
    Searching (ρ := ρ) special (vectorOperand scope) := by
  grind [vectorOperand]

@[grind ←]
theorem pointerOperand_searching (scope : ScopeId) (test : Predicate) :
    Searching (ρ := ρ) special (pointerOperand scope test) := by
  grind [pointerOperand]

@[grind ←]
theorem randomPart_searching (ty : EntryId) : Searching (ρ := ρ) special (randomPart ty) := by
  grind [randomPart]

@[grind ←]
theorem constantPath_searching (levels : Nat) (ty : EntryId) :
    Searching (ρ := ρ) special (constantPath levels ty) := by
  induction levels generalizing ty with
  | zero => grind [constantPath]
  | succ levels ih => grind [constantPath]

@[grind ←]
theorem literalPath_searching (levels : Nat) (ty : EntryId) :
    Searching (ρ := ρ) special (literalPath levels ty) := by
  induction levels generalizing ty with
  | zero => grind [literalPath]
  | succ levels ih => grind [literalPath]

/-- A conversion leads to a scalar. -/
theorem convertedScalar_bind_searching (op : Opcode) (source : Ty) {g : Ty → Gen ρ α}
    (hg : ∀ t, t.opcode ≠ .typeArray → Searching special (g t)) :
    Searching special (convertedScalar op source >>= g) := by
  have hinfeasible : (Gen.infeasible >>= g) = Gen.infeasible := rfl
  unfold convertedScalar
  split
  case h_10 => exact hinfeasible ▸ .infeasible
  all_goals simp only [bind_assoc, pure_bind]
  case h_8 =>
    refine .bind .read fun x => ?_
    split
    · simp only [bind_assoc]
      refine .bind (chance_searching _) fun b => ?_
      split <;> exact hg _ nofun
    · exact hg _ nofun
  all_goals grind

omit [RandomSource ρ] in
@[grind ←]
theorem levelsLeft_searching (scope : ScopeId) : Searching (ρ := ρ) special (levelsLeft scope) := by
  grind [levelsLeft]

/-! ### Kinds of types and constants -/

/-- A type is made by searching, once its parts are; functions are listed besides. -/
theorem typeVariant_searching {nested : Category → Gen ρ EntryId} (op : Opcode)
    (harray : ∀ element length, Searching special (internType (.array element length)))
    (hlist : op = .typeFunction → ∀ id, Searching special (addFunctionType id))
    (hnested : ∀ cat, cat.isType = true → cat ≠ .type → Searching special (nested cat)) :
    Searching special (typeVariant nested op) := by
  have hscalar := hnested .scalarType rfl nofun
  have helement := hnested .arrayElementType rfl nofun
  have hmembers := Searching.mapM_replicate (hnested .structMemberType rfl nofun)
  have hparameters := Searching.mapM_replicate (hnested .arithmeticType rfl nofun)
  clear hnested
  unfold typeVariant
  split
  case h_8 =>
    refine .bind functionsFull_searching fun full => ?_
    dsimp only
    split
    · exact .bind .infeasible fun _ => by grind
    · grind
  all_goals grind

/-- Constants are made by searching, once there is a type for them. -/
theorem constantVariant_searching (htype : Searching (ρ := ρ) special (type .numericType))
    (op : Opcode) : Searching special (constantVariant op) := by
  unfold constantVariant
  split
  all_goals grind

/-! ### Kinds of statements -/

/-- A routine searches, and then adds one instruction, which declares nothing. -/
inductive Emits {ρ : Type} : Gen ρ Production → Prop
  | emit (op : Opcode) (ty : EntryId) (operands : List Operand) (h : op ≠ .var) :
      Emits (Gen.emit op ty operands)
  | infeasible : Emits Gen.infeasible
  | bind {α : Type} {x : Gen ρ α} {g : α → Gen ρ Production}
      (hx : Searching (fun _ _ => False) x) (hg : ∀ a, Emits (g a)) : Emits (x >>= g)

attribute [grind ←] Emits.emit Emits.infeasible Emits.bind

theorem shuffle_emits (scope : ScopeId) : Emits (ρ := ρ) (shuffle scope) := by
  unfold shuffle
  refine .bind (vectorOperand_searching _) fun _ => .bind (typedOperand_searching _ _) fun _ =>
    .bind (.query _) fun _ => .bind (range_searching _ _) fun _ =>
      .bind (withComponents_searching _ _) fun _ => .bind (.mapM (fun _ => ?_) _) fun _ =>
        .emit _ _ _ nofun
  grind

theorem construct_emits (scope : ScopeId) : Emits (ρ := ρ) (construct scope) := by
  unfold construct
  refine .bind (existingType_searching _) fun _ => .bind (.query _) fun _ =>
    .bind (.mapM (fun _ => ?_) _) fun _ => .emit _ _ _ nofun
  grind

theorem transpose_emits (scope : ScopeId) : Emits (ρ := ρ) (transpose scope) := by
  refine .bind (typedOperand_searching _ _) fun _ => .bind (.query _) fun _ => ?_
  grind

theorem conversion_emits (scope : ScopeId) {op : Opcode} (hop : op ≠ .var) :
    Emits (ρ := ρ) (conversion scope op) := by
  unfold conversion
  refine .bind (typedOperand_searching _ _) fun operand => .bind (.query _) fun count =>
    .bind (.query _) fun source => ?_
  -- the scalar is no array, which is known as long as it is at hand
  have htarget : Searching (ρ := ρ) (fun _ _ => False) (do
      let scalar ← internType (← convertedScalar op source)
      withComponents scalar count) :=
    convertedScalar_bind_searching op source fun t ht =>
      .bind (.internType t ht) fun _ => withComponents_searching _ _
  simpa only [bind_assoc] using Emits.bind htarget fun r => .emit op r [.value operand.1] hop

/-- Statements of nearly all kinds search and emit. -/
theorem variantWith_emits (arm : Option (ScopeId → Gen ρ Block)) (scope : ScopeId) {op : Opcode}
    {recipe : Recipe} (hrecipe : op.recipe? = some recipe)
    (h : recipe ∉ [.localVariable, .store, .extended, .selection]) :
    Emits (variantWith arm scope op) := by
  have hop : op ≠ .var := by
    rintro rfl
    cases hrecipe
    exact h (by simp)
  unfold variantWith
  rw [hrecipe]
  cases recipe with
  | localVariable | store | extended | selection => exact absurd h (by simp)
  | load => grind [load]
  | accessChain => grind [accessChain]
  | unary => grind [unary]
  | binary => grind [binary]
  | shift => grind [shift]
  | reduceBool => grind [reduceBool]
  | floatTest => grind [floatTest]
  | compare => grind [compare]
  | select => grind [select]
  | timesScalar => grind [timesScalar]
  | vectorTimesMatrix => grind [vectorTimesMatrix]
  | matrixTimesVector => grind [matrixTimesVector]
  | matrixTimesMatrix =>
    refine .bind (matrixOperand_searching _) fun _ => .bind (.query _) fun _ => ?_
    grind
  | outerProduct => grind [outerProduct]
  | dot => grind [dot]
  | conversion => exact conversion_emits scope hop
  | extractDynamic => grind [extractDynamic]
  | insertDynamic => grind [insertDynamic]
  | shuffle => exact shuffle_emits scope
  | construct => exact construct_emits scope
  | extract => grind [extract]
  | insert => grind [insert]
  | transpose => exact transpose_emits scope

end ShaderGen.Gen
