import ShaderGen.Generator.Program

/-!
The generator as a program that can be looked at. A `Plan` says which steps a routine
takes and which routines it calls; `Routine.body` gives each routine its plan. Unlike
the generator the routines call each other without any bound on how often or how deep.
Steps that matter to those who watch a session are marked with an `Event`.
-/

namespace ShaderGen

/-- What a step is about. -/
inductive Event where
  /-- Something of a category is asked for. -/
  | dispatch (c : Category)
  /-- A variant of a category is drawn, after so many that turned out infeasible. -/
  | sample (c : Category) (misses : Nat)
  /-- The routine of a drawn variant is entered. -/
  | enter (c : Category) (op : Opcode)
  /-- Anything else. -/
  | work
deriving DecidableEq, Repr

/-- What can be asked for, by the kind of answer. A statement goes into a scope with
so many levels of selections left. -/
inductive Target : Type → Type where
  | type (c : Category) : Target EntryId
  | constant : Target EntryId
  | statement (levels : Nat) (scope : ScopeId) : Target Production

/-- The category that is asked for. -/
def Target.category {α : Type} : Target α → Category
  | type c => c
  | constant => .constant
  | statement _ _ => .statement

/-- The routines that call each other. -/
inductive Routine : Type → Type 1 where
  /-- Produces something. -/
  | dispatch {α : Type} (t : Target α) : Routine α
  /-- Draws variants until one is produced, after so many that were not. -/
  | resample {α : Type} (t : Target α) (misses : Nat) : Routine α
  /-- Produces one variant. -/
  | variant {α : Type} (t : Target α) (op : Opcode) : Routine α
  /-- Appends statements to a block. -/
  | fill (levels : Nat) (scope : ScopeId) (block : Block) : Routine Block

/-- A computation made of steps and calls. -/
inductive Plan (ρ : Type) : Type → Type 1 where
  | done {α : Type} (a : α) : Plan ρ α
  | step {α : Type} (e : Event) (x : Gen ρ α) : Plan ρ α
  | call {α : Type} (r : Routine α) : Plan ρ α
  | seq {α β : Type} (p : Plan ρ α) (q : α → Plan ρ β) : Plan ρ β
  /-- Goes on with the value of a plan, or with nothing where it is infeasible. -/
  | handle {α β : Type} (p : Plan ρ α) (q : Option α → Plan ρ β) : Plan ρ β

namespace Plan

variable {ρ α β : Type}

/-- A step that nobody watches. -/
def work (x : Gen ρ α) : Plan ρ α := .step .work x

instance : Monad (Plan ρ) where
  pure := done
  bind := seq

/-- The value of a plan, or nothing where it is infeasible. -/
def attempt (p : Plan ρ α) : Plan ρ (Option α) := .handle p .done

variable [RandomSource ρ]

/-- Asks for something. -/
def ask (t : Target α) : Plan ρ α := call (.dispatch t)

/-- Asks for something of each category in turn. -/
def askAll : List Category → Plan ρ (List EntryId)
  | [] => pure []
  | c :: cs => do
    let id ← ask (.type c)
    let ids ← askAll cs
    return id :: ids

/-- The plan of one kind of type. -/
def typeVariant : Opcode → Plan ρ EntryId
  | .typeVector => do
    let element ← ask (.type .scalarType)
    work do Gen.internType (.vector element (← Gen.range 2 4))
  | .typeArray => do
    let element ← ask (.type .arrayElementType)
    work do
      let length ← Gen.range 1 8
      Gen.internType (.array element (← Gen.indexConstant length))
  | .typeStruct => do
    let count ← work (Gen.range 1 4)
    let members ← askAll (List.replicate count .structMemberType)
    work (Gen.internType (.struct members))
  | .typeFunction => do
    let full ← work Gen.functionsFull
    if full then work Gen.infeasible
    let result ← work (Gen.internType .void)
    let count ← work (Gen.range 0 3)
    let params ← askAll (List.replicate count .arithmeticType)
    let id ← work (Gen.internType (.function result params))
    work (Gen.addFunctionType id)
    return id
  -- the other types have no parts
  | op => work (Gen.typeVariant (fun _ => Gen.infeasible) op)

/-- The plan of one kind of constant. -/
def constantVariant : Opcode → Plan ρ EntryId
  | .constant => do
    match ← work (Gen.attempt (Gen.existingType Ty.isNumericScalar)) with
    | some ty => work (Gen.constantOf ty)
    | none =>
      let ty ← ask (.type .numericType)
      work (Gen.constantOf ty)
  | op => work (Gen.constantVariant op)

/-- The end of a selection whose arms are there. -/
def join (condition : Value) (thenBlock elseBlock : Block) : Gen ρ Production := do
  let merge ← Gen.label
  let thenLabel ← Gen.label
  let elseLabel ← Gen.label
  let header ← Gen.alloc
    { opcode := .selectionMerge, operands := [.instr merge, .keyword "None"] }
  let branch ← Gen.alloc
    { opcode := .branchConditional,
      operands := [.value condition, .instr thenLabel, .instr elseLabel] }
  let thenExit ← Gen.branchTo merge
  let elseExit ← Gen.branchTo merge
  return {
    stream := [header, branch, thenLabel] ++ thenBlock.stream.toList ++ [thenExit, elseLabel] ++
      elseBlock.stream.toList ++ [elseExit, merge]
    hoisted := thenBlock.hoisted.toList ++ elseBlock.hoisted.toList }

/-- The plan of a selection with so many levels, its own included. -/
def selection (levels : Nat) (scope : ScopeId) : Plan ρ Production := do
  let _ ← work (Gen.scopeAt scope)
  match levels with
  | 0 => work Gen.infeasible
  | levels + 1 =>
    let condition ← work (Gen.operand scope Predicate.bool)
    let thenScope ← work (Gen.childScope scope none)
    let thenBlock ← call (.fill levels thenScope {})
    let elseScope ← work (Gen.childScope scope none)
    let elseBlock ← call (.fill levels elseScope {})
    work (join condition thenBlock elseBlock)

/-- The plan of one kind of statement. -/
def statementVariant (levels : Nat) (scope : ScopeId) (op : Opcode) : Plan ρ Production :=
  if op = .selectionMerge then selection levels scope
  else work (Gen.variantWith none scope op)

/-- The plan of a variant. -/
def variant {α : Type} : Target α → Opcode → Plan ρ α
  | .type _, op => typeVariant op
  | .constant, op => constantVariant op
  | .statement levels scope, op => statementVariant levels scope op

/-- What is done to the weights of a category before something is drawn with them. -/
def prepare (c : Category) : Gen ρ Unit := do
  Gen.ensureParametrized c
  if c = .statement then Gen.maybeMutate
  Gen.applyExclusions c

/-- Nothing is left to draw. -/
def exhausted (c : Category) : Gen ρ α := do
  if (← get).pruned.contains c then Gen.infeasible else Gen.stop (.weightless c)

end Plan

open Plan in
/-- The plan of a routine. -/
def Routine.body {ρ α : Type} [RandomSource ρ] : Routine α → Plan ρ α
  | .dispatch t => do
    step (.dispatch t.category) Gen.checkBudget
    work (prepare t.category)
    call (.resample t 0)
  | .resample t misses => do
    match ← step (.sample t.category misses) (Gen.sample? t.category) with
    | none => work (exhausted t.category)
    | some op =>
      match ← attempt (call (.variant t op)) with
      | some a =>
        if t.category = .statement then work Gen.countStatement
        return a
      | none =>
        work (Gen.prune t.category op)
        call (.resample t (misses + 1))
  | .variant t op => do
    step (.enter t.category op) (pure ())
    Plan.variant t op
  | .fill levels scope block => do
    let c ← work read
    let goesOn ← work (Gen.chance c.statementProbability)
    if goesOn then
      match ← attempt (ask (.statement levels scope)) with
      | some production =>
        let block ← work (Gen.append scope block production)
        call (.fill levels scope block)
      | none => return block
    else return block

namespace Plan

variable {ρ : Type} [RandomSource ρ]

/-- Asks for entries until there are enough, so many times at most. -/
def fill (isEnough : State ρ → Bool) (t : Target EntryId) : Nat → Plan ρ Unit
  | 0 => pure ()
  | attempts + 1 => do
    let s ← work get
    unless isEnough s do
      let _ ← attempt (ask t)
      fill isEnough t attempts

/-- The plan of the entity table. -/
def globalTable : Plan ρ Unit := do
  work Gen.entryPointType
  let c ← work read
  let attempts ← work (Gen.attemptsFor c.maxTypes)
  fill (fun s => c.maxTypes ≤ s.code.table.typeCount) (.type .type) attempts
  let c ← work read
  let attempts ← work (Gen.attemptsFor c.maxConstants)
  fill (fun s => c.maxConstants ≤ s.code.table.constantCount) .constant attempts
  let _ ← work Gen.storageBuffers
  let _ ← work Gen.privateVariables

/-- The beginning of a function. -/
structure Head where
  params : List InstrId
  /-- The label of its first block. -/
  entry : InstrId
  scope : ScopeId
  /-- The levels of selections that its scope has left. -/
  levels : Nat

/-- Begins a function with the given parameters. -/
def head (opening : InstrId) (params : List EntryId) : Gen ρ Head := do
  let scope ← Gen.childScope ScopeTree.root (some opening)
  let params ← params.mapM (Gen.parameterOf scope)
  let entry ← Gen.label
  let levels ← Gen.levelsLeft scope
  return { params, entry, scope, levels }

/-- The plan of a function. -/
def function (ty : EntryId) : Plan ρ (InstrId × Array InstrId) := do
  match ← work (Gen.query (·.typeAt ty)) with
  | .function result params =>
    let opening ← work (Gen.alloc ⟨.function, some result, [.keyword "None", .entry ty]⟩)
    let h ← work (head opening params)
    let body ← call (.fill h.levels h.scope {})
    let ret ← work (Gen.alloc { opcode := .ret })
    let closing ← work (Gen.alloc { opcode := .functionEnd })
    return (opening,
      (#[opening] ++ h.params).push h.entry ++ body.hoisted ++ body.stream ++ #[ret, closing])
  | _ => work (Gen.stop (.notAFunctionType ty))

/-- The plan of functions of the given types. -/
def functionsOf : List EntryId → Plan ρ (List (InstrId × Array InstrId))
  | [] => pure []
  | ty :: tys => do
    let f ← function ty
    let fs ← functionsOf tys
    return f :: fs

/-- The plan of all functions. -/
def functions : Plan ρ (Array InstrId × InstrId) := do
  let s ← work get
  let made ← functionsOf s.functionTypes.toList
  match made with
  | [] => work (Gen.stop .noEntryPoint)
  | (entry, _) :: _ => return (made.foldl (fun stream f => stream ++ f.2) #[], entry)

/-- The plan of a shader. -/
def program : Plan ρ Shader := do
  globalTable
  let (body, entryPoint) ← functions
  let s ← work get
  return { code := s.code, body, entryPoint }

end Plan

end ShaderGen
