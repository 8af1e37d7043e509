import ShaderGen.Proofs.Mentions
import ShaderGen.Shader.Emission

/-!
Ids and the lines that bind and use them. Ids are handed out in the order of the
sections of a listing: imports, entries, instructions of the stream. What ids a line
binds and uses is read off what it is written for, and a shader that mentions
nothing without an id can be written.
-/

namespace ShaderGen

/-! ### Ids -/

/-- The ids of a module whose program is a stream without repetitions. -/
structure Numbering.Fits (n : Numbering) (m : Module) (body : List InstrId) : Prop where
  imports : n.imports = m.imports.size
  entries : n.entries = m.table.size
  instr : ∀ {k : Nat} {id : InstrId}, body[k]? = some id →
    n.instrId? id = some (m.imports.size + m.table.size + 1 + k)

namespace Numbering

/-- What is not in the stream keeps the id it had. -/
theorem number_of_not_mem {ids ids' : Array (Option Nat)} {next next' : Nat} {body : List InstrId}
    (h : number ids next body = .ok (ids', next')) {id : InstrId} (hid : id ∉ body) :
    ids'[id.index]? = ids[id.index]? := by
  induction body generalizing ids next with
  | nil =>
    cases h
    rfl
  | cons d body ih =>
    rw [number] at h
    split_ifs at h with hlt
    rw [List.mem_cons, not_or] at hid
    have hne : d.index ≠ id.index := fun heq => hid.1 (congrArg InstrId.mk heq.symm)
    rw [ih h hid.2, Array.getElem?_set_ne hlt hne]

/-- Ids are handed out one after the other, and an id that is handed out stays. -/
theorem number_spec {ids ids' : Array (Option Nat)} {next next' : Nat} {body : List InstrId}
    (hnodup : body.Nodup) (h : number ids next body = .ok (ids', next')) {k : Nat} {id : InstrId}
    (hid : body[k]? = some id) : ids'[id.index]? = some (some (next + k)) := by
  induction body generalizing ids next k with
  | nil => cases hid
  | cons d body ih =>
    obtain ⟨hd, hnodup⟩ := List.nodup_cons.mp hnodup
    rw [number] at h
    split_ifs at h with hlt
    cases k with
    | zero =>
      obtain rfl : d = id := by simpa using hid
      rw [number_of_not_mem h hd]
      simp
    | succ k =>
      rw [List.getElem?_cons_succ] at hid
      rw [ih hnodup h hid]
      simp only [Option.some.injEq]
      omega

theorem assign_fits {n : Numbering} {m : Module} {body : List InstrId} (hnodup : body.Nodup)
    (h : assign m body = .ok n) : n.Fits m body := by
  simp only [assign, bind_eq_ok, pure_eq_ok] at h
  obtain ⟨⟨ids, next⟩, hnumber, _, _, rfl⟩ := h
  refine ⟨rfl, rfl, fun hid => ?_⟩
  simp [instrId?, number_spec hnodup hnumber hid]

theorem number_answers (ids : Array (Option Nat)) (next : Nat) {body : List InstrId}
    (h : ∀ id ∈ body, id.index < ids.size) :
    ∃ ids', number ids next body = .ok (ids', next + body.length) := by
  induction body generalizing ids next with
  | nil => exact ⟨ids, rfl⟩
  | cons d body ih =>
    obtain ⟨ids', hids⟩ := ih (ids.set d.index (some next) (h d (by simp))) (next + 1)
      (by simpa using fun id hid => h id (by simp [hid]))
    refine ⟨ids', ?_⟩
    rw [number, dif_pos (h d (by simp)), hids, List.length_cons]
    congr 2
    omega

/-- Ids are handed out as long as they fit their word. -/
theorem assign_answers {m : Module} {body : List InstrId}
    (h : ∀ id ∈ body, id.index < m.instrs.size) : (∃ n, assign m body = .ok n) ∨
      assign m body = .error .overflow ∧
        2 ^ 32 ≤ m.imports.size + m.table.size + body.length + 1 := by
  obtain ⟨ids, hids⟩ := number_answers (Array.replicate m.instrs.size none)
    (m.imports.size + m.table.size + 1) (by simpa using h)
  by_cases hfit : m.imports.size + m.table.size + 1 + body.length < 2 ^ 32
  · have hword : Fault.checkWord 32 (m.imports.size + m.table.size + 1 + body.length) =
        .ok (m.imports.size + m.table.size + 1 + body.length) := if_pos hfit
    simp only [assign, hids, hword, bind, Except.bind, pure, Except.pure]
    exact .inl ⟨_, rfl⟩
  · have hword : Fault.checkWord 32 (m.imports.size + m.table.size + 1 + body.length) =
        .error .overflow := if_neg hfit
    refine .inr ⟨?_, by omega⟩
    simp only [assign, hids, hword, bind, Except.bind]

/-- The id of an entry. -/
def entryNumber (n : Numbering) (id : EntryId) : Nat := n.imports + id.index + 1

/-- The id an operand is written as, if it is written as one. -/
def operandNumber? (n : Numbering) : Operand → Option Nat
  | .value (.entry id) => some (n.entryNumber id)
  | .value (.instr d) => n.instrId? d
  | .importSet set => some (set.index + 1)
  | _ => none

/-- The instructions of the stream have ids, one after the other. -/
theorem Fits.stream {n : Numbering} {m : Module} {body : List InstrId} (h : n.Fits m body) :
    body.filterMap n.instrId? = List.range' (m.imports.size + m.table.size + 1) body.length := by
  -- All of them have ids, so nothing is filtered out.
  have hmap : body.map n.instrId? =
      (List.range' (m.imports.size + m.table.size + 1) body.length).map some := by
    refine List.ext_getElem? fun k => ?_
    rw [List.getElem?_map, List.getElem?_map]
    by_cases hk : k < body.length
    · rw [List.getElem?_range' hk, List.getElem?_eq_getElem hk, Option.map_some,
        h.instr (List.getElem?_eq_getElem hk), Nat.one_mul]
      rfl
    · rw [List.getElem?_eq_none (by omega), List.getElem?_eq_none (by simpa using hk)]
      rfl
  have := congrArg (List.filterMap id) hmap
  simpa [List.filterMap_map] using this

end Numbering

/-! ### Words -/

/-- The id a word is, if it is one. -/
def Word.id? : Word → Option Nat
  | id n => some n
  | _ => none

theorem Line.usedIds_eq (l : Line) : l.usedIds = l.operands.filterMap Word.id? := by
  unfold usedIds
  congr 1

namespace Emission

/-- What is computed for each member of a list without errors is related to the
members if each result is to its member. -/
theorem mapM_forall₂ {α β ε : Type} {R : α → β → Prop} {f : α → Except ε β} {xs : List α}
    (h : ∀ x ∈ xs, ∃ y, f x = .ok y ∧ R x y) :
    ∃ ys, xs.mapM f = .ok ys ∧ List.Forall₂ R xs ys := by
  induction xs with
  | nil => exact ⟨[], rfl, .nil⟩
  | cons x xs ih =>
    obtain ⟨y, hy, hr⟩ := h x (by simp)
    obtain ⟨ys, hys, hall⟩ := ih fun x hx => h x (by simp [hx])
    refine ⟨y :: ys, ?_, .cons hr hall⟩
    rw [List.mapM_cons, hy, hys]
    rfl

theorem filterMap_of_forall₂ {α β γ : Type} {f : α → Option γ} {g : β → Option γ} {xs : List α}
    {ys : List β} (h : List.Forall₂ (fun x y => g y = f x) xs ys) :
    ys.filterMap g = xs.filterMap f := by
  induction h with
  | nil => rfl
  | cons h _ ih => simp only [List.filterMap_cons, h, ih]

variable {n : Numbering} {m : Module}

theorem entryWord_eq {id : EntryId} (h : id.index < n.entries) :
    entryWord n id = .ok (.id (n.entryNumber id)) := by
  simp [entryWord, Numbering.entryId, h, checked, Functor.map, Except.map, Numbering.entryNumber]

theorem entryWords_eq {ids : List EntryId} (h : ∀ id ∈ ids, id.index < n.entries) :
    ∃ ws, ids.mapM (entryWord n) = .ok ws ∧ ws.filterMap Word.id? = ids.map n.entryNumber := by
  obtain ⟨ws, hws, hall⟩ := mapM_forall₂ (R := fun id w => Word.id? w = some (n.entryNumber id))
    fun id hid => ⟨_, entryWord_eq (h id hid), rfl⟩
  exact ⟨ws, hws, by rw [filterMap_of_forall₂ hall, List.filterMap_eq_map']⟩

/-- A type is written with the ids of the entries it mentions. -/
theorem typeWords_eq {t : Ty} (h : ∀ r ∈ t.refs, r.index < n.entries) :
    ∃ ws, typeWords n t = .ok ws ∧ ws.filterMap Word.id? = t.refs.map n.entryNumber := by
  cases t with
  | void | bool | int | float => exact ⟨_, rfl, rfl⟩
  | vector part | matrix part =>
    have hpart := entryWord_eq (h part (by simp [Ty.refs]))
    simp only [typeWords, hpart]
    exact ⟨_, rfl, rfl⟩
  | array element length =>
    have helement := entryWord_eq (h element (by simp [Ty.refs]))
    have hlength := entryWord_eq (h length (by simp [Ty.refs]))
    simp only [typeWords, helement, hlength]
    exact ⟨_, rfl, rfl⟩
  | struct members => exact entryWords_eq h
  | pointer storage pointee =>
    have hpointee := entryWord_eq (h pointee (by simp [Ty.refs]))
    simp only [typeWords, hpointee]
    exact ⟨_, rfl, rfl⟩
  | function result params =>
    have hresult := entryWord_eq (h result (by simp [Ty.refs]))
    have hparams : ∀ p ∈ params, p.index < n.entries := fun p hp => h p (by simp [Ty.refs, hp])
    obtain ⟨ws, hws, hids⟩ := entryWords_eq hparams
    simp only [typeWords, hresult, hws]
    exact ⟨_, rfl, by simp [Ty.refs, Word.id?, hids]⟩

/-- So is a constant. Its type tells how many bits a scalar has. -/
theorem constWords_eq {k : Const} (hrefs : ∀ r ∈ k.refs, r.index < n.entries)
    (hscalar : ∀ ty value, k = .scalar ty value → ∃ t, m.table.IsType ty t) :
    ∃ ws, constWords m n k = .ok ws ∧ ws.filterMap Word.id? = k.refs.map n.entryNumber := by
  cases k with
  | bool ty value =>
    have hty := entryWord_eq (hrefs ty (by simp [Const.refs]))
    simp only [constWords, Const.ty, hty]
    exact ⟨_, rfl, rfl⟩
  | scalar ty value =>
    have hty := entryWord_eq (hrefs ty (by simp [Const.refs]))
    obtain ⟨t, ht⟩ := hscalar ty value rfl
    simp only [constWords, Const.ty, hty, Module.typeAt_eq_ok.mpr ht]
    exact ⟨_, rfl, rfl⟩
  | composite ty parts =>
    have hty := entryWord_eq (hrefs ty (by simp [Const.refs]))
    have hparts : ∀ p ∈ parts, p.index < n.entries :=
      fun p hp => hrefs p (by simp [Const.refs, hp])
    obtain ⟨ws, hws, hids⟩ := entryWords_eq hparts
    simp only [constWords, Const.ty, hty, hws]
    exact ⟨_, rfl, by simp [Const.refs, Word.id?, hids]⟩

/-- So is a variable of the module. -/
theorem varWords_eq {v : GlobalVar} (h : ∀ r ∈ v.refs, r.index < n.entries) :
    ∃ ws, varWords n v = .ok ws ∧ ws.filterMap Word.id? = v.refs.map n.entryNumber := by
  have hty := entryWord_eq (h v.ty (by simp [GlobalVar.refs]))
  have hinitial : ∀ r ∈ v.initializer.toList, r.index < n.entries :=
    fun r hr => h r (List.mem_cons_of_mem _ hr)
  obtain ⟨ws, hws, hids⟩ := entryWords_eq hinitial
  simp only [varWords, hty, hws]
  exact ⟨_, rfl, by simp [GlobalVar.refs, List.filterMap_cons, Word.id?, hids]⟩

/-! ### Lines -/

/-- A line binds an id, or none, and uses others. -/
structure Writes (line : Line) (result : Option Nat) (opcode : Opcode) (uses : List Nat) :
    Prop where
  result : line.result = result
  opcode : line.opcode = opcode.mnemonic
  uses : line.usedIds = uses

/-- The opcode an entry is declared with. -/
def declaring : Entity → Opcode
  | .type t => t.opcode
  | .const k => k.opcode
  | .var _ => .var

/-- An entry is declared under its own id, with those of the entries it mentions. -/
theorem entryLine_eq {id : EntryId} {e : Entity} (hid : id.index < n.entries)
    (hrefs : ∀ r ∈ e.refs, r.index < n.entries)
    (hscalar : ∀ ty value, e = .const (.scalar ty value) → ∃ t, m.table.IsType ty t) :
    ∃ line, entryLine m n id e = .ok line ∧ Writes line (some (n.entryNumber id)) (declaring e)
      (e.refs.map n.entryNumber) := by
  have hid : n.entryId id = .ok (n.entryNumber id) := if_pos hid
  cases e with
  | type t =>
    obtain ⟨ws, hws, hids⟩ := typeWords_eq hrefs
    simp only [entryLine, hid, hws]
    exact ⟨_, rfl, rfl, rfl, by rw [Line.usedIds_eq, hids]; rfl⟩
  | const k =>
    obtain ⟨ws, hws, hids⟩ := constWords_eq hrefs fun ty value hk => hscalar ty value (hk ▸ rfl)
    simp only [entryLine, hid, hws]
    exact ⟨_, rfl, rfl, rfl, by rw [Line.usedIds_eq, hids]; rfl⟩
  | var v =>
    obtain ⟨ws, hws, hids⟩ := varWords_eq hrefs
    simp only [entryLine, hid, hws]
    exact ⟨_, rfl, rfl, rfl, by rw [Line.usedIds_eq, hids]; rfl⟩

theorem entryLine_writes {c : Config} {id : EntryId} {e : Entity} (hwf : m.table.WellFormed c)
    (hn : n.entries = m.table.size) (he : m.table.get? id = some e) :
    ∃ line, entryLine m n id e = .ok line ∧ Writes line (some (n.entryNumber id)) (declaring e)
      (e.refs.map n.entryNumber) := by
  refine entryLine_eq (hn ▸ Table.lt_size_of_get? he)
    (fun r hr => hn ▸ (hwf.entry he).refs_lt r hr) ?_
  rintro ty value rfl
  rcases hwf.entry he with ⟨_, _, ht, _⟩ | ⟨_, ht, _⟩
  · exact ⟨_, ht⟩
  · exact ⟨_, ht⟩

/-- An operand is written with its id if that can be told. -/
theorem operandWord_eq {o : Operand} (hentry : ∀ id, o = .entry id → id.index < n.entries)
    (hinstr : ∀ d, o = .instr d → ∃ k, n.instrId? d = some k)
    (himport : ∀ set, o = .importSet set → set.index < n.imports) :
    ∃ w, operandWord n o = .ok w ∧ w.id? = n.operandNumber? o := by
  cases o with
  | literal | storage | keyword | extended => exact ⟨_, rfl, rfl⟩
  | importSet set =>
    have hset : n.importId set = .ok (set.index + 1) := if_pos (himport set rfl)
    simp only [operandWord, hset]
    exact ⟨_, rfl, rfl⟩
  | value v =>
    cases v with
    | entry id =>
      have hid : n.entryId id = .ok (n.entryNumber id) := if_pos (hentry id rfl)
      simp only [operandWord, valueId, hid]
      exact ⟨_, rfl, rfl⟩
    | instr d =>
      obtain ⟨k, hk⟩ := hinstr d rfl
      simp only [operandWord, valueId, hk]
      exact ⟨_, rfl, hk.symm⟩

/-- The ids the line of an instruction uses, the one of its result type first. -/
def uses (n : Numbering) (i : Instr) : List Nat :=
  i.resultType.toList.map n.entryNumber ++ i.operands.filterMap n.operandNumber?

/-- An instruction of the stream is written under its own id if it binds one. -/
theorem instrLine_writes {c : Config} {id : InstrId} {i : Instr} {k : Nat}
    (hwf : m.table.WellFormed c) (hn : n.entries = m.table.size)
    (hi : m.instrs[id.index]? = some i) (htyped : m.Typed i) (hk : n.instrId? id = some k)
    (hwords : ∀ o ∈ i.operands, ∃ w, operandWord n o = .ok w ∧ w.id? = n.operandNumber? o) :
    ∃ line, instrLine m n id = .ok line ∧
      Writes line (if i.opcode.hasResult then n.instrId? id else none) i.opcode (uses n i) := by
  obtain ⟨ws, hws, hall⟩ := mapM_forall₂ hwords
  have hids := filterMap_of_forall₂ hall
  have htypes : ∃ tys, resultTypeWords n i = .ok tys ∧
      tys.filterMap Word.id? = i.resultType.toList.map n.entryNumber := by
    have hisTyped := htyped.isTyped
    unfold resultTypeWords
    rcases hty : i.resultType with _ | ty
    · rw [hisTyped, hty]
      exact ⟨_, rfl, rfl⟩
    · rw [hisTyped, hty]
      simp only [Option.isSome_some, if_true, entryWord_eq (hn ▸ htyped.resultType_lt hwf hty)]
      exact ⟨_, rfl, rfl⟩
  obtain ⟨tys, htys, hty⟩ := htypes
  have hinstr : m.instr id = .ok i := by simp [Module.instr, hi]
  have hline : instrLine m n id =
      .ok ⟨if i.opcode.hasResult then n.instrId? id else none, i.opcode.mnemonic, tys ++ ws⟩ := by
    simp only [instrLine, hinstr, checked, bind, Except.bind, htys, hws, valueId, hk]
    cases i.opcode.hasResult <;> rfl
  refine ⟨_, hline, rfl, rfl, ?_⟩
  rw [Line.usedIds_eq, List.filterMap_append, hty, hids]
  rfl

end Emission

end ShaderGen
