import Mathlib.Data.List.Nodup
import ShaderGen.Proofs.Typing

/-!
Streams of instructions. `Module.Scoped` says how a stream is nested and that every
value an instruction reads is there when it reads it: at the start of the stream,
or defined by an earlier statement that no arm of a selection hides. A stream
stays scoped when instructions are added, and streams that follow each other
make one.
-/

namespace ShaderGen

/-- Whether an opcode belongs to the structure around statements. -/
def Opcode.isMarker : Opcode → Bool
  | selectionMerge | branchConditional | branch | label | ret | function | functionParameter
  | functionEnd => true
  | _ => false

/-- Whether an opcode may stand in the body of a block: it is no marker, and no
variable, which stands at the top of its function. -/
def Opcode.isStatement (op : Opcode) : Bool := !op.isMarker && op != .var

/-- Whether an opcode declares a type or a constant. -/
def Opcode.isDeclaration (op : Opcode) : Bool := op.family == .type || op.family == .constant

/-! ### Reads -/

theorem Instr.mem_usedValues {i : Instr} {v : Value} :
    v ∈ i.usedValues ↔ Operand.value v ∈ i.operands := by
  simp only [usedValues, List.mem_filterMap]
  constructor
  · rintro ⟨o, ho, hv⟩
    cases o <;> cases hv
    exact ho
  · exact fun h => ⟨_, h, rfl⟩

theorem Instr.reads_merge {ty : Option EntryId} {merge d : InstrId} :
    Value.instr d ∈ (Instr.mk .selectionMerge ty [.instr merge, .keyword "None"]).usedValues ↔
      d = merge := by
  simp [mem_usedValues, Operand.instr]

theorem Instr.reads_branch {ty : Option EntryId} {target d : InstrId} :
    Value.instr d ∈ (Instr.mk .branch ty [.instr target]).usedValues ↔ d = target := by
  simp [mem_usedValues, Operand.instr]

theorem Instr.reads_branchConditional {ty : Option EntryId} {condition : Value}
    {yes no d : InstrId} : Value.instr d ∈
      (Instr.mk .branchConditional ty [.value condition, .instr yes, .instr no]).usedValues ↔
      condition = .instr d ∨ d = yes ∨ d = no := by
  simp [mem_usedValues, Operand.instr, eq_comm]

/-! ### Slots -/

/-- A list holds each slot of the arena from `n` on and below `n'` once, and no
other. -/
def Occupies (ids : List InstrId) (n n' : Nat) : Prop :=
  ∀ id, ids.count id = if n ≤ id.index ∧ id.index < n' then 1 else 0

theorem Occupies.nil (n : Nat) : Occupies [] n n := by
  intro id
  rw [if_neg (by omega)]
  rfl

theorem Occupies.single (n : Nat) : Occupies [⟨n⟩] n (n + 1) := by
  intro id
  have : (⟨n⟩ : InstrId) = id ↔ n ≤ id.index ∧ id.index < n + 1 := by
    cases id
    simp only [InstrId.mk.injEq]
    omega
  simp only [List.count_singleton, beq_iff_eq, this]

theorem Occupies.append {a b : List InstrId} {n n' n'' : Nat} (ha : Occupies a n n')
    (hb : Occupies b n' n'') (h : n ≤ n') (h' : n' ≤ n'') : Occupies (a ++ b) n n'' := by
  intro id
  rw [List.count_append, ha, hb]
  split_ifs <;> omega

theorem Occupies.perm {a b : List InstrId} {n n' : Nat} (ha : Occupies a n n') (h : a.Perm b) :
    Occupies b n n' := fun id => (h.count_eq id).symm.trans (ha id)

theorem Occupies.mem_iff {a : List InstrId} {n n' : Nat} (ha : Occupies a n n') {id : InstrId} :
    id ∈ a ↔ n ≤ id.index ∧ id.index < n' := by
  rw [← List.count_pos_iff, ha]
  split_ifs with h <;> simp [h]

theorem Occupies.nodup {a : List InstrId} {n n' : Nat} (ha : Occupies a n n') : a.Nodup := by
  rw [List.nodup_iff_count_le_one]
  intro id
  rw [ha]
  split_ifs <;> omega

namespace Module

variable {m m' : Module}

/-- A later module that keeps every instruction as it is. -/
structure Extends (m m' : Module) : Prop where
  le : m ≤ m'
  instr : ∀ {k : Nat} {i : Instr}, m.instrs[k]? = some i → m'.instrs[k]? = some i

theorem Extends.refl (m : Module) : Extends m m := ⟨le_refl m, id⟩

theorem Extends.trans {m'' : Module} (h : Extends m m') (h' : Extends m' m'') : Extends m m'' :=
  ⟨h.le.trans h'.le, fun hi => h'.instr (h.instr hi)⟩

theorem IsVariable.grow {v : InstrId} (h : m.IsVariable v) (he : Extends m m') :
    m'.IsVariable v := by
  obtain ⟨i, hi, hop⟩ := h
  exact ⟨i, he.instr hi, hop⟩

theorem Extends.size_le (h : Extends m m') : m.instrs.size ≤ m'.instrs.size := by
  by_contra hle
  have hlt : m'.instrs.size < m.instrs.size := by omega
  have hsome := h.instr (Array.getElem?_eq_getElem hlt)
  have := (Array.getElem?_eq_some_iff.mp hsome).1
  omega

/-- A property of streams that is kept when streams are joined and instructions added. -/
structure Additive (Q : Module → List InstrId → Prop) : Prop where
  nil : ∀ m, Q m []
  append : ∀ {m : Module} {a b : List InstrId}, Q m a → Q m b → Q m (a ++ b)
  grow : ∀ {m m' : Module} {a : List InstrId}, m.Extends m' → Q m a → Q m' a

theorem Additive.trivial : Additive fun _ _ => True := ⟨fun _ => ⟨⟩, fun _ _ => ⟨⟩, fun _ _ => ⟨⟩⟩

/-! ### Scoped streams -/

/-- A stream of statements and selections, given what may be read at its start.
The last list holds what the stream defines for what follows it: its statements
outside of selections. -/
inductive Scoped (m : Module) : (InstrId → Prop) → List InstrId → List InstrId → Prop
  | nil {seen : InstrId → Prop} : Scoped m seen [] []
  | stmt {seen : InstrId → Prop} {id : InstrId} {i : Instr} {rest defs : List InstrId}
      (hi : m.instrs[id.index]? = some i) (hop : i.opcode.isStatement = true)
      (hreads : ∀ d, Value.instr d ∈ i.usedValues → seen d)
      (hrest : Scoped m (fun d => seen d ∨ d = id) rest defs) :
      Scoped m seen (id :: rest) (id :: defs)
  /-- Neither arm sees what the other one defines, and nothing that follows sees
  what an arm defines. -/
  | selection {seen : InstrId → Prop} {condition : Value}
      {header branch merge yes no yesExit noExit : InstrId}
      {yesArm noArm rest yesDefs noDefs defs : List InstrId}
      (hheader : m.instrs[header.index]? =
        some ⟨.selectionMerge, none, [.instr merge, .keyword "None"]⟩)
      (hbranch : m.instrs[branch.index]? =
        some ⟨.branchConditional, none, [.value condition, .instr yes, .instr no]⟩)
      (hreads : ∀ d, condition = .instr d → seen d)
      (hyes : m.instrs[yes.index]? = some ⟨.label, none, []⟩)
      (hyesArm : Scoped m seen yesArm yesDefs)
      (hyesExit : m.instrs[yesExit.index]? = some ⟨.branch, none, [.instr merge]⟩)
      (hno : m.instrs[no.index]? = some ⟨.label, none, []⟩)
      (hnoArm : Scoped m seen noArm noDefs)
      (hnoExit : m.instrs[noExit.index]? = some ⟨.branch, none, [.instr merge]⟩)
      (hmerge : m.instrs[merge.index]? = some ⟨.label, none, []⟩)
      (hrest : Scoped m seen rest defs) :
      Scoped m seen ([header, branch, yes] ++ yesArm ++ [yesExit, no] ++ noArm ++ [noExit, merge] ++
        rest) defs

/-- A stream stays scoped when its instructions stay as they are and more may be
read. -/
theorem Scoped.mono {seen seen' : InstrId → Prop} {stream defs : List InstrId}
    (h : m.Scoped seen stream defs)
    (hinstr : ∀ id ∈ stream, ∀ i, m.instrs[id.index]? = some i → m'.instrs[id.index]? = some i)
    (hseen : ∀ d, seen d → seen' d) : m'.Scoped seen' stream defs := by
  induction h generalizing seen' with
  | nil => exact .nil
  | stmt hi hop hreads _ ih =>
    refine .stmt (hinstr _ (by simp) _ hi) hop (fun d hd => hseen d (hreads d hd))
      (ih (fun id hid => hinstr id (by simp [hid])) fun d hd => ?_)
    exact hd.imp (hseen d) id
  | selection hheader hbranch hreads hyes _ hyesExit hno _ hnoExit hmerge _ ihyes ihno ih =>
    exact .selection (hinstr _ (by simp) _ hheader) (hinstr _ (by simp) _ hbranch)
      (fun d hd => hseen d (hreads d hd)) (hinstr _ (by simp) _ hyes)
      (ihyes (fun id hid => hinstr id (by simp [hid])) hseen) (hinstr _ (by simp) _ hyesExit)
      (hinstr _ (by simp) _ hno) (ihno (fun id hid => hinstr id (by simp [hid])) hseen)
      (hinstr _ (by simp) _ hnoExit) (hinstr _ (by simp) _ hmerge)
      (ih (fun id hid => hinstr id (by simp [hid])) hseen)

theorem Scoped.grow {seen : InstrId → Prop} {stream defs : List InstrId}
    (h : m.Scoped seen stream defs) (he : Extends m m') : m'.Scoped seen stream defs :=
  h.mono (fun _ _ _ hi => he.instr hi) fun _ hd => hd

/-- What a stream defines may be read in the stream that follows it. -/
theorem Scoped.append {seen : InstrId → Prop} {a b da db : List InstrId}
    (ha : m.Scoped seen a da) (hb : m.Scoped (fun d => seen d ∨ d ∈ da) b db) :
    m.Scoped seen (a ++ b) (da ++ db) := by
  induction ha with
  | nil => exact hb.mono (fun _ _ _ hi => hi) (by simp)
  | stmt hi hop hreads _ ih =>
    refine .stmt hi hop hreads (ih (hb.mono (fun _ _ _ hi => hi) fun d hd => ?_))
    simpa only [List.mem_cons, or_assoc] using hd
  | selection hheader hbranch hreads hyes hyesArm hyesExit hno hnoArm hnoExit hmerge _ _ _ ih =>
    rw [List.append_assoc]
    exact .selection hheader hbranch hreads hyes hyesArm hyesExit hno hnoArm hnoExit hmerge (ih hb)

/-- Whatever a stream reads may be read at its start or is part of it. -/
theorem Scoped.reads {seen : InstrId → Prop} {stream defs : List InstrId}
    (h : m.Scoped seen stream defs) {id : InstrId} (hid : id ∈ stream) {i : Instr}
    (hi : m.instrs[id.index]? = some i) {d : InstrId} (hd : Value.instr d ∈ i.usedValues) :
    seen d ∨ d ∈ stream := by
  induction h generalizing id i with
  | nil => cases hid
  | stmt hj hop hreads _ ih =>
    rcases List.mem_cons.mp hid with rfl | hid
    · cases hj.symm.trans hi
      exact .inl (hreads d hd)
    · rcases ih hid hi hd with (h | rfl) | h
      · exact .inl h
      · simp
      · simp [h]
  | selection hheader hbranch hreads hyes _ hyesExit hno _ hnoExit hmerge _ ihyes ihno ih =>
    simp only [List.mem_append, List.mem_cons, List.not_mem_nil, or_false] at hid ⊢
    rcases hid with ((((((rfl | rfl | rfl) | hid) | rfl | rfl) | hid) | rfl | rfl) | hid)
    · cases hheader.symm.trans hi
      simp [Instr.reads_merge.mp hd]
    · cases hbranch.symm.trans hi
      rcases Instr.reads_branchConditional.mp hd with h | h | h
      · exact .inl (hreads d h)
      · simp [h]
      · simp [h]
    · cases hyes.symm.trans hi
      cases hd
    · rcases ihyes hid hi hd with h | h <;> simp [h]
    · cases hyesExit.symm.trans hi
      simp [Instr.reads_branch.mp hd]
    · cases hno.symm.trans hi
      cases hd
    · rcases ihno hid hi hd with h | h <;> simp [h]
    · cases hnoExit.symm.trans hi
      simp [Instr.reads_branch.mp hd]
    · cases hmerge.symm.trans hi
      cases hd
    · rcases ih hid hi hd with h | h <;> simp [h]

/-! ### Selections -/

/-- The instructions around the arms of a selection. -/
structure Markers (m : Module) (condition : Value)
    (header branch merge yes no yesExit noExit : InstrId) : Prop where
  header : m.instrs[header.index]? = some ⟨.selectionMerge, none, [.instr merge, .keyword "None"]⟩
  branch : m.instrs[branch.index]? =
    some ⟨.branchConditional, none, [.value condition, .instr yes, .instr no]⟩
  yes : m.instrs[yes.index]? = some ⟨.label, none, []⟩
  yesExit : m.instrs[yesExit.index]? = some ⟨.branch, none, [.instr merge]⟩
  no : m.instrs[no.index]? = some ⟨.label, none, []⟩
  noExit : m.instrs[noExit.index]? = some ⟨.branch, none, [.instr merge]⟩
  merge : m.instrs[merge.index]? = some ⟨.label, none, []⟩

theorem Markers.grow {condition : Value} {header branch merge yes no yesExit noExit : InstrId}
    (h : m.Markers condition header branch merge yes no yesExit noExit) (he : m.Extends m') :
    m'.Markers condition header branch merge yes no yesExit noExit where
  header := he.instr h.header
  branch := he.instr h.branch
  yes := he.instr h.yes
  yesExit := he.instr h.yesExit
  no := he.instr h.no
  noExit := he.instr h.noExit
  merge := he.instr h.merge

/-- A selection whose arms have a property. -/
def IsSelection (m : Module) (arm : List InstrId → Prop) (stream : List InstrId) : Prop :=
  ∃ condition header branch merge yes no yesExit noExit yesArm noArm,
    m.Markers condition header branch merge yes no yesExit noExit ∧ arm yesArm ∧ arm noArm ∧
      stream = [header, branch, yes] ++ yesArm ++ [yesExit, no] ++ noArm ++ [noExit, merge]

end Module

/-! ### Functions -/

/-- The parts of the stream of a function. -/
structure FunctionParts where
  opening : InstrId
  params : List InstrId
  entry : InstrId
  vars : List InstrId
  body : List InstrId
  ret : InstrId
  closing : InstrId

/-- The parts in order. -/
def FunctionParts.stream (f : FunctionParts) : List InstrId :=
  f.opening :: f.params ++ f.entry :: f.vars ++ f.body ++ [f.ret, f.closing]

namespace Module

variable {m m' : Module}

/-- The parts are those of a function of a type. What its body may read at its start
are its parameters and its variables. -/
structure IsFunction (m : Module) (ty : EntryId) (f : FunctionParts) : Prop where
  opens : ∃ r tys, m.table.IsType ty (.function r tys) ∧
    m.instrs[f.opening.index]? = some ⟨.function, some r, [.keyword "None", .entry ty]⟩ ∧
    List.Forall₂ (fun p ty => m.instrs[p.index]? = some ⟨.functionParameter, some ty, []⟩)
      f.params tys
  entry : m.instrs[f.entry.index]? = some ⟨.label, none, []⟩
  vars : ∀ v ∈ f.vars, m.IsVariable v
  body : ∃ defs, m.Scoped (fun d => d ∈ f.params ∨ d ∈ f.vars) f.body defs
  ret : m.instrs[f.ret.index]? = some ⟨.ret, none, []⟩
  closing : m.instrs[f.closing.index]? = some ⟨.functionEnd, none, []⟩

theorem IsFunction.grow {ty : EntryId} {f : FunctionParts} (h : m.IsFunction ty f)
    (he : Extends m m') : m'.IsFunction ty f where
  opens := by
    obtain ⟨r, tys, hty, hopening, hparams⟩ := h.opens
    exact ⟨r, tys, he.le.table hty, he.instr hopening, hparams.imp fun _ _ hp => he.instr hp⟩
  entry := he.instr h.entry
  vars := fun v hv => (h.vars v hv).grow he
  body := by
    obtain ⟨defs, hscoped⟩ := h.body
    exact ⟨defs, hscoped.grow he⟩
  ret := he.instr h.ret
  closing := he.instr h.closing

end Module

end ShaderGen
