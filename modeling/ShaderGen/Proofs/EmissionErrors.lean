import ShaderGen.Proofs.Binding
import ShaderGen.Proofs.Written

/-!
When a shader cannot be written. Fresh ids go to the instructions of the stream and to no
others, however often one of them stands there. So what breaks is a reference that leaves
the stream, or an opcode with a result type that is not given; and as the lines are written
one after the other, the error is the one of the first place that breaks.
-/

namespace ShaderGen

/-! ### Fallible computations -/

section Steps

variable {α β ε : Type}

/-- Two steps fail if the first does, or if the second does after it. -/
theorem bind_eq_error {x : Except ε α} {f : α → Except ε β} {e : ε} :
    x >>= f = .error e ↔ x = .error e ∨ ∃ a, x = .ok a ∧ f a = .error e := by
  cases x <;> simp [bind, Except.bind]

theorem exists_map_eq_ok {x : Except ε α} {f : α → β} :
    (∃ b, f <$> x = .ok b) ↔ ∃ a, x = .ok a := by
  cases x <;> simp [Functor.map, Except.map]

theorem map_eq_error {x : Except ε α} {f : α → β} {e : ε} :
    f <$> x = .error e ↔ x = .error e := by
  cases x <;> simp [Functor.map, Except.map]

/-- Two results are combined if both steps succeed. -/
theorem exists_pair_eq_ok {γ : Type} {x : Except ε α} {y : Except ε β} {f : α → β → γ} :
    (∃ c, (do return f (← x) (← y)) = .ok c) ↔ (∃ a, x = .ok a) ∧ ∃ b, y = .ok b := by
  cases x <;> cases y <;> simp [bind, Except.bind, pure, Except.pure]

theorem pair_eq_error {γ : Type} {x : Except ε α} {y : Except ε β} {f : α → β → γ} {e : ε} :
    (do return f (← x) (← y)) = .error e ↔ x = .error e ∨ (∃ a, x = .ok a) ∧ y = .error e := by
  cases x <;> cases y <;> simp [bind, Except.bind, pure, Except.pure]

theorem pure_ne_error {a : α} {e : ε} : (pure a : Except ε α) ≠ .error e := nofun

/-- A list is gone through to the end if no member fails. -/
theorem exists_mapM_eq_ok {f : α → Except ε β} {xs : List α} :
    (∃ ys, xs.mapM f = .ok ys) ↔ ∀ x ∈ xs, ∃ y, f x = .ok y := by
  refine ⟨fun ⟨ys, hys⟩ x hx => ?_, fun h => ?_⟩
  · have hall := Emission.forall₂_of_mapM (R := fun x y => f x = .ok y) hys fun _ _ _ h => h
    obtain ⟨y, -, hy⟩ := forall₂_exists_of_mem (List.Forall₂.flip hall) hx
    exact ⟨y, hy⟩
  · obtain ⟨ys, hys, -⟩ := Emission.mapM_forall₂ (R := fun _ _ => True)
      fun x hx => (h x hx).imp fun _ hy => ⟨hy, trivial⟩
    exact ⟨ys, hys⟩

/-- A list gives the results of its members. -/
theorem mapM_eq_ok {f : α → Except ε β} {xs : List α} {ys : List β} :
    xs.mapM f = .ok ys ↔ List.Forall₂ (fun x y => f x = .ok y) xs ys := by
  refine ⟨fun h => Emission.forall₂_of_mapM h fun _ _ _ h => h, fun h => ?_⟩
  induction h with
  | nil => rfl
  | cons h _ ih =>
    rw [List.mapM_cons, h, ih]
    rfl

/-- The error of a list is the one of its first member that fails. -/
theorem mapM_eq_error {f : α → Except ε β} {xs : List α} {e : ε} :
    xs.mapM f = .error e ↔ ∃ before x after, xs = before ++ x :: after ∧
      (∀ y ∈ before, ∃ b, f y = .ok b) ∧ f x = .error e := by
  induction xs with
  | nil =>
    refine ⟨nofun, ?_⟩
    rintro ⟨before, x, after, h, -⟩
    cases before <;> cases h
  | cons x xs ih =>
    rw [List.mapM_cons, bind_eq_error]
    constructor
    · rintro (hx | ⟨b, hx, h⟩)
      · exact ⟨[], x, xs, rfl, nofun, hx⟩
      · rcases bind_eq_error.mp h with h | ⟨_, -, h⟩
        · obtain ⟨before, y, after, rfl, hbefore, hy⟩ := ih.mp h
          exact ⟨x :: before, y, after, rfl, List.forall_mem_cons.mpr ⟨⟨b, hx⟩, hbefore⟩, hy⟩
        · exact absurd h pure_ne_error
    · rintro ⟨_ | ⟨z, before⟩, y, after, h, hbefore, hy⟩
      · cases h
        exact .inl hy
      · cases h
        obtain ⟨⟨b, hz⟩, hbefore⟩ := List.forall_mem_cons.mp hbefore
        exact .inr ⟨b, hz, bind_eq_error.mpr (.inl (ih.mpr ⟨_, _, _, rfl, hbefore, hy⟩))⟩

end Steps

/-! ### What a shader needs to be written -/

/-- The entries and imports a module mentions exist, and its constants have types. What
its instructions refer to is left open. -/
structure Module.InRange (m : Module) : Prop where
  annotations : ∀ a ∈ m.annotations, a.target.index < m.table.size
  entries : ∀ e ∈ m.table.entries, ∀ r ∈ e.refs, r.index < m.table.size
  constants : ∀ k, Entity.const k ∈ m.table.entries → ∃ t, m.table.IsType k.ty t
  results : ∀ i ∈ m.instrs, ∀ ty ∈ i.resultType, ty.index < m.table.size
  operands : ∀ i ∈ m.instrs, ∀ r, .entry r ∈ i.operands → r.index < m.table.size
  imports : ∀ i ∈ m.instrs, ∀ set, .importSet set ∈ i.operands → set.index < m.imports.size

/-- An operand does not refer to an instruction outside the stream. -/
def Operand.StaysIn (body : List InstrId) : Operand → Prop
  | .value (.instr d) => d ∈ body
  | _ => True

instance (body : List InstrId) : (o : Operand) → Decidable (o.StaysIn body)
  | .value (.instr d) => inferInstanceAs (Decidable (d ∈ body))
  | .value (.entry _) | .literal _ | .storage _ | .keyword _ | .importSet _ | .extended _ =>
    .isTrue trivial

theorem Operand.staysIn_iff {body : List InstrId} {o : Operand} :
    o.StaysIn body ↔ ∀ d, o = .instr d → d ∈ body := by
  unfold StaysIn
  split <;> simp_all [instr]

namespace Instr

/-- An instruction has the result type its opcode asks for and refers to instructions of
the stream only. -/
structure Writable (i : Instr) (body : List InstrId) : Prop where
  typed : i.opcode.isTyped = true → i.resultType.isSome = true
  refers : ∀ o ∈ i.operands, o.StaysIn body

instance (i : Instr) (body : List InstrId) : Decidable (i.Writable body) :=
  decidable_of_iff
    ((i.opcode.isTyped = true → i.resultType.isSome = true) ∧ ∀ o ∈ i.operands, o.StaysIn body)
    ⟨fun h => ⟨h.1, h.2⟩, fun h => ⟨h.typed, h.refers⟩⟩

/-- What is wrong with an instruction: its result type if that is missing, and otherwise
the first reference that leaves the stream. -/
inductive Fails (i : Instr) (body : List InstrId) : EmissionError → Prop
  | untyped (htyped : i.opcode.isTyped = true) (hnone : i.resultType = none) :
      Fails i body (.missingResultType i.opcode)
  | unassigned {before after : List Operand} {d : InstrId}
      (htyped : i.opcode.isTyped = true → i.resultType.isSome = true)
      (hoperands : i.operands = before ++ .instr d :: after)
      (hbefore : ∀ o ∈ before, o.StaysIn body) (hd : d ∉ body) :
      Fails i body (.unassignedInstr d)

end Instr

/-- What is wrong with a shader: its entry point if that is not in the stream, and
otherwise its first instruction that cannot be written. -/
inductive Shader.Fails (s : Shader) : EmissionError → Prop
  | entryPoint (h : s.entryPoint ∉ s.body.toList) : Fails s (.unassignedInstr s.entryPoint)
  | stream {before after : List InstrId} {id : InstrId} {i : Instr} {e : EmissionError}
      (hentry : s.entryPoint ∈ s.body.toList) (hbody : s.body.toList = before ++ id :: after)
      (hbefore : ∀ d ∈ before, ∃ j ∈ s.code.instrs[d.index]?, j.Writable s.body.toList)
      (hi : s.code.instrs[id.index]? = some i) (he : i.Fails s.body.toList e) : Fails s e

/-! ### Fresh ids -/

namespace Numbering

/-- Ids of a module and its stream: exactly the instructions of the stream have one. -/
structure Serves (n : Numbering) (m : Module) (body : List InstrId) : Prop where
  imports : n.imports = m.imports.size
  entries : n.entries = m.table.size
  instr : ∀ {id}, (∃ k, n.instrId? id = some k) ↔ id ∈ body
  arena : ∀ id ∈ body, id.index < m.instrs.size

theorem Serves.exists_instr {n : Numbering} {m : Module} {body : List InstrId}
    (h : n.Serves m body) {id : InstrId} (hid : id ∈ body) :
    ∃ i, m.instrs[id.index]? = some i :=
  ⟨_, Array.getElem?_eq_getElem (h.arena id hid)⟩

theorem lt_size_of_number {ids ids' : Array (Option Nat)} {next next' : Nat}
    {body : List InstrId} (h : number ids next body = .ok (ids', next')) :
    ∀ id ∈ body, id.index < ids.size := by
  induction body generalizing ids next with
  | nil => nofun
  | cons d body ih =>
    rw [number] at h
    split_ifs at h with hlt
    exact List.forall_mem_cons.mpr ⟨hlt, by simpa using ih h⟩

theorem assign_serves {n : Numbering} {m : Module} {body : List InstrId}
    (h : assign m body = .ok n) : n.Serves m body := by
  have hcovers := covers_of_assign h
  simp only [assign, bind_eq_ok, pure_eq_ok] at h
  obtain ⟨⟨ids, next⟩, hnumber, _, -, rfl⟩ := h
  refine ⟨rfl, rfl, ⟨?_, hcovers.stream _⟩, fun id hid => ?_⟩
  · rintro ⟨k, hk⟩
    -- What is not in the stream is as free of an id as it was at the start.
    by_contra hid
    simp only [instrId?, number_of_not_mem hnumber hid, Array.getElem?_replicate] at hk
    split_ifs at hk
    · cases hk
    · cases hk
  · simpa using lt_size_of_number hnumber id hid

end Numbering

/-! ### Lines that cannot be written -/

namespace Emission

variable {n : Numbering} {m : Module} {body : List InstrId} {e : EmissionError}

section Instructions

variable (hn : n.Serves m body)
include hn

theorem valueId_instr_answers {id : InstrId} :
    (∃ k, valueId n (.instr id) = .ok k) ↔ id ∈ body := by
  simp only [valueId_instr_eq_ok, hn.instr]

theorem valueId_instr_eq_error {id : InstrId} :
    valueId n (.instr id) = .error e ↔ id ∉ body ∧ e = .unassignedInstr id := by
  rw [← hn.instr, valueId]
  cases n.instrId? id <;> simp [eq_comm]

variable (hm : m.InRange) {i : Instr} (hi : i ∈ m.instrs)
include hm hi

/-- An operand is written unless it refers to an instruction outside the stream. -/
theorem operandWord_answers {o : Operand} (ho : o ∈ i.operands) :
    (∃ w, operandWord n o = .ok w) ↔ o.StaysIn body := by
  refine ⟨?_, fun h => ?_⟩
  · rw [Operand.staysIn_iff]
    rintro ⟨w, hw⟩ d rfl
    obtain ⟨k, hk, -⟩ := map_eq_ok.mp hw
    exact (valueId_instr_answers hn).mp ⟨k, hk⟩
  · obtain ⟨w, hw, -⟩ := operandWord_eq (n := n) (o := o)
      (fun r hr => hn.entries ▸ hm.operands i hi r (hr ▸ ho))
      (fun d hd => hn.instr.mpr (Operand.staysIn_iff.mp h d hd))
      (fun set hset => hn.imports ▸ hm.imports i hi set (hset ▸ ho))
    exact ⟨w, hw⟩

theorem operandWord_eq_error {o : Operand} (ho : o ∈ i.operands) :
    operandWord n o = .error e ↔ ∃ d, o = .instr d ∧ d ∉ body ∧ e = .unassignedInstr d := by
  constructor
  · intro he
    by_cases h : o.StaysIn body
    · obtain ⟨w, hw⟩ := (operandWord_answers hn hm hi ho).mpr h
      rw [hw] at he
      cases he
    · rw [Operand.staysIn_iff] at h
      push Not at h
      obtain ⟨d, rfl, -⟩ := h
      exact ⟨d, rfl, (valueId_instr_eq_error hn).mp (map_eq_error.mp he)⟩
  · rintro ⟨d, rfl, hd, rfl⟩
    exact map_eq_error.mpr ((valueId_instr_eq_error hn).mpr ⟨hd, rfl⟩)

omit hn in
theorem resultTypeWords_answers (hentries : n.entries = m.table.size) :
    (∃ ws, resultTypeWords n i = .ok ws) ↔
      (i.opcode.isTyped = true → i.resultType.isSome = true) := by
  rw [resultTypeWords]
  split_ifs with htyped
  · rcases hty : i.resultType with _ | ty
    · simp [htyped]
    · have hlt : ty.index < n.entries := hentries ▸ hm.results i hi ty hty
      simp [entryWord_eq hlt, bind, Except.bind, pure, Except.pure]
  · simp [htyped]

omit hn in
theorem resultTypeWords_eq_error (hentries : n.entries = m.table.size) :
    resultTypeWords n i = .error e ↔
      i.opcode.isTyped = true ∧ i.resultType = none ∧ e = .missingResultType i.opcode := by
  rw [resultTypeWords]
  split_ifs with htyped
  · rcases hty : i.resultType with _ | ty
    · simp [htyped, eq_comm]
    · have hlt : ty.index < n.entries := hentries ▸ hm.results i hi ty hty
      simp [entryWord_eq hlt, bind, Except.bind, pure, Except.pure]
  · simp [htyped]

omit hm hi in
/-- An instruction of the stream has an id, so what remains is its words. -/
theorem instrLine_eq {id : InstrId} (hid : id ∈ body) (hi : m.instrs[id.index]? = some i) :
    ∃ result, instrLine m n id = do
      return ⟨result, i.opcode.mnemonic,
        (← resultTypeWords n i) ++ (← i.operands.mapM (operandWord n))⟩ := by
  obtain ⟨k, hk⟩ := (valueId_instr_answers hn).mpr hid
  have hinstr : checked (m.instr id) = .ok i := checked_eq_ok.mpr (Module.instr_eq_ok.mpr hi)
  refine ⟨if i.opcode.hasResult then some k else none, ?_⟩
  simp only [instrLine, hinstr, hk, bind, Except.bind]
  cases i.opcode.hasResult <;> rfl

omit hi in
/-- An instruction of the stream is written if it can be. -/
theorem instrLine_answers {id : InstrId} (hid : id ∈ body) :
    (∃ line, instrLine m n id = .ok line) ↔ ∃ i ∈ m.instrs[id.index]?, i.Writable body := by
  obtain ⟨i, hi⟩ := hn.exists_instr hid
  have hmem : i ∈ m.instrs := Array.mem_of_getElem? hi
  have hwords : (∃ ws, i.operands.mapM (operandWord n) = .ok ws) ↔
      ∀ o ∈ i.operands, o.StaysIn body := by
    rw [exists_mapM_eq_ok]
    exact forall₂_congr fun o ho => operandWord_answers hn hm hmem ho
  obtain ⟨result, hline⟩ := instrLine_eq hn hid hi
  simp only [hi, Option.mem_some, exists_eq_left']
  rw [hline, exists_pair_eq_ok (f := fun tys ws => Line.mk result i.opcode.mnemonic (tys ++ ws)),
    resultTypeWords_answers hm hmem hn.entries, hwords]
  exact ⟨fun h => ⟨h.1, h.2⟩, fun h => ⟨h.typed, h.refers⟩⟩

omit hi in
/-- Otherwise the error is what is wrong with it. -/
theorem instrLine_eq_error {id : InstrId} (hid : id ∈ body) :
    instrLine m n id = .error e ↔ ∃ i ∈ m.instrs[id.index]?, i.Fails body e := by
  obtain ⟨i, hi⟩ := hn.exists_instr hid
  have hmem : i ∈ m.instrs := Array.mem_of_getElem? hi
  obtain ⟨result, hline⟩ := instrLine_eq hn hid hi
  simp only [hi, Option.mem_some, exists_eq_left']
  rw [hline, pair_eq_error (f := fun tys ws => Line.mk result i.opcode.mnemonic (tys ++ ws)),
    resultTypeWords_answers hm hmem hn.entries, resultTypeWords_eq_error hm hmem hn.entries,
    mapM_eq_error]
  -- The result type is looked at before the operands, so these matter only behind it.
  constructor
  · rintro (⟨htyped, hnone, rfl⟩ | ⟨htyped, before, o, after, hoperands, hbefore, ho⟩)
    · exact .untyped htyped hnone
    · obtain ⟨d, rfl, hd, rfl⟩ :=
        (operandWord_eq_error hn hm hmem (by simp [hoperands])).mp ho
      exact .unassigned htyped hoperands (fun o ho =>
        (operandWord_answers hn hm hmem (by simp [hoperands, ho])).mp (hbefore o ho)) hd
  · rintro (⟨htyped, hnone⟩ | ⟨htyped, hoperands, hbefore, hd⟩)
    · exact .inl ⟨htyped, hnone, rfl⟩
    · exact .inr ⟨htyped, _, _, _, hoperands,
        fun o ho => (operandWord_answers hn hm hmem (by simp [hoperands, ho])).mpr (hbefore o ho),
        (operandWord_eq_error hn hm hmem (by simp [hoperands])).mpr ⟨_, rfl, hd, rfl⟩⟩

end Instructions

end Emission

/-! ### Shaders that cannot be written -/

namespace Shader

open Emission

variable {s : Shader} {n : Numbering}

theorem serves_of_assignIds {s₀ : Shader} (h : s₀.assignIds = .ok s) :
    ∃ n, s.numbering = some n ∧ n.Serves s.code s.body.toList := by
  simp only [assignIds, bind_eq_ok, pure_eq_ok] at h
  obtain ⟨n, hn, rfl⟩ := h
  exact ⟨n, rfl, Numbering.assign_serves hn⟩

/-- Whatever stands in front of the stream can be written, but for the entry point. -/
theorem listingWith_eq (hn : n.Serves s.code s.body.toList) (hs : s.code.InRange) :
    ∃ front : Nat → List Line, s.listingWith n = do
      return ⟨s.header, front (← valueId n (.instr s.entryPoint)) ++
        (← s.body.toList.mapM (instrLine s.code n))⟩ := by
  obtain ⟨imports, himports, -⟩ := importLines_eq hn.imports
  obtain ⟨annotations, hannotations⟩ :
      ∃ lines, s.code.annotations.toList.mapM (annotationLine n) = .ok lines := by
    refine exists_mapM_eq_ok.mpr fun a ha => ?_
    have hlt : a.target.index < n.entries :=
      hn.entries ▸ hs.annotations a (Array.mem_toList_iff.mp ha)
    exact (annotationLine_eq hlt).imp fun _ h => h.1
  obtain ⟨entries, hentries⟩ : ∃ lines, s.code.table.entries.toList.zipIdx.mapM
      (fun p => entryLine s.code n ⟨p.2⟩ p.1) = .ok lines := by
    refine exists_mapM_eq_ok.mpr fun ⟨e, i⟩ hp => ?_
    have hlt : i < n.entries := by
      rw [hn.entries, Table.size]
      simpa using (List.mem_zipIdx' hp).1
    have he : e ∈ s.code.table.entries := by
      rw [List.mem_zipIdx_iff_getElem?] at hp
      exact Array.mem_toList_iff.mp (List.mem_of_getElem? hp)
    refine (entryLine_eq hlt (hn.entries ▸ hs.entries e he) ?_).imp fun _ h => h.1
    rintro ty value rfl
    exact hs.constants _ he
  refine ⟨fun entry => s.frontLines entry imports annotations ++ entries, ?_⟩
  simp only [listingWith, himports, hannotations, hentries]
  cases valueId n (.instr s.entryPoint) with
  | error => rfl
  | ok entry =>
    cases s.body.toList.mapM (instrLine s.code n) with
    | error => rfl
    | ok stream => simp [bind, Except.bind, pure, Except.pure, frontLines]

section

variable (hn : n.Serves s.code s.body.toList) (hs : s.code.InRange)
include hn hs

theorem listingWith_answers : (∃ l, s.listingWith n = .ok l) ↔ s.entryPoint ∈ s.body.toList ∧
    ∀ id ∈ s.body.toList, ∃ i ∈ s.code.instrs[id.index]?, i.Writable s.body.toList := by
  obtain ⟨front, hlisting⟩ := listingWith_eq hn hs
  rw [hlisting,
    exists_pair_eq_ok (f := fun entry stream => Listing.mk s.header (front entry ++ stream)),
    valueId_instr_answers hn, exists_mapM_eq_ok]
  exact and_congr_right fun _ => forall₂_congr fun id hid => instrLine_answers hn hs hid

theorem listingWith_eq_error {e : EmissionError} :
    s.listingWith n = .error e ↔ s.Fails e := by
  obtain ⟨front, hlisting⟩ := listingWith_eq hn hs
  rw [hlisting,
    pair_eq_error (f := fun entry stream => Listing.mk s.header (front entry ++ stream)),
    valueId_instr_answers hn, valueId_instr_eq_error hn, mapM_eq_error]
  constructor
  · rintro (⟨hentry, rfl⟩ | ⟨hentry, before, id, after, hbody, hbefore, he⟩)
    · exact .entryPoint hentry
    · obtain ⟨i, hi, he⟩ := (instrLine_eq_error hn hs (by simp [hbody])).mp he
      exact .stream hentry hbody (fun d hd =>
        (instrLine_answers hn hs (by simp [hbody, hd])).mp (hbefore d hd)) hi he
  · rintro (hentry | ⟨hentry, hbody, hbefore, hi, he⟩)
    · exact .inl ⟨hentry, rfl⟩
    · exact .inr ⟨hentry, _, _, _, hbody,
        fun d hd => (instrLine_answers hn hs (by simp [hbody, hd])).mpr (hbefore d hd),
        (instrLine_eq_error hn hs (by simp [hbody])).mpr ⟨_, hi, he⟩⟩

end

/-- With fresh ids, a shader can be written exactly if its entry point is in the stream
and so is all that its instructions refer to, and no result type is missing. Otherwise the
error tells the first place where this fails: the entry point, or else the first
instruction that cannot be written, and of that its result type or else the first reference
that leaves the stream. No other operand can get in the way. -/
theorem text_eq_error_iff {s₀ s : Shader} (hids : s₀.assignIds = .ok s) (hs : s.code.InRange) :
    ((∃ t, s.text = .ok t) ↔ s.entryPoint ∈ s.body.toList ∧
      ∀ id ∈ s.body.toList, ∃ i ∈ s.code.instrs[id.index]?, i.Writable s.body.toList) ∧
    (∀ e, s.text = .error e ↔ s.Fails e) ∧
    ∃ n, s.numbering = some n ∧ ∀ id ∈ s.body.toList, ∀ i ∈ s.code.instrs[id.index]?,
      ∀ o ∈ i.operands, (∀ d, o ≠ .instr d) → ∃ w, operandWord n o = .ok w := by
  obtain ⟨n, hnumbering, hn⟩ := serves_of_assignIds hids
  have htext : s.text = Listing.render <$> s.listingWith n := by rw [text, listing, hnumbering]
  refine ⟨?_, fun e => ?_, n, hnumbering, fun id _ i hi o ho hvalue => ?_⟩
  · rw [htext, exists_map_eq_ok, listingWith_answers hn hs]
  · rw [htext, map_eq_error, listingWith_eq_error hn hs]
  · exact (operandWord_answers hn hs (Array.mem_of_getElem? hi) ho).mpr
      (Operand.staysIn_iff.mpr fun d hd => absurd hd (hvalue d))

/-- A copy of a value that is a copy of itself, and a copy without a type. The stream
says which of them are written. -/
def torn (body : Array InstrId) : Shader where
  code :=
    { table := .ofList [.type .void, .type (.function ⟨0⟩ []), .type (.int 32 true)]
      instrs := #[⟨.function, some ⟨0⟩, [.keyword "None", .entry ⟨1⟩]⟩, ⟨.label, none, []⟩,
        ⟨.copyObject, some ⟨2⟩, [.instr ⟨3⟩]⟩, ⟨.copyObject, some ⟨2⟩, [.instr ⟨3⟩]⟩,
        ⟨.copyObject, none, [.instr ⟨3⟩]⟩, ⟨.ret, none, []⟩, ⟨.functionEnd, none, []⟩] }
  body
  entryPoint := ⟨0⟩

theorem torn_inRange {body : Array InstrId} {s : Shader} (h : (torn body).assignIds = .ok s) :
    s.code.InRange := by
  simp only [assignIds, bind_eq_ok, pure_eq_ok] at h
  obtain ⟨n, -, rfl⟩ := h
  have htable : (torn body).code.table.entries =
      #[.type .void, .type (.function ⟨0⟩ []), .type (.int 32 true)] := rfl
  refine ⟨by simp [torn], ?_, fun k hk => ?_, ?_, ?_, ?_⟩
  · rw [Table.size, htable]
    decide
  · simp [htable] at hk
  · simp [torn]
    decide
  · simp [torn, Operand.entry, Operand.instr]
    decide
  · simp [torn, Operand.entry, Operand.instr]

/-- The copies may stand in the stream twice and in any order. What is reported is the
entry point, the reference out of the stream or the missing type, whichever is first. -/
theorem torn_text :
    (∃ s t, (torn #[⟨0⟩, ⟨1⟩, ⟨2⟩, ⟨3⟩, ⟨2⟩, ⟨5⟩, ⟨6⟩]).assignIds = .ok s ∧ s.text = .ok t) ∧
    (∃ s, (torn #[⟨0⟩, ⟨1⟩, ⟨2⟩, ⟨4⟩, ⟨5⟩, ⟨6⟩]).assignIds = .ok s ∧
      s.text = .error (.unassignedInstr ⟨3⟩)) ∧
    (∃ s, (torn #[⟨0⟩, ⟨1⟩, ⟨4⟩, ⟨2⟩, ⟨5⟩, ⟨6⟩]).assignIds = .ok s ∧
      s.text = .error (.missingResultType .copyObject)) ∧
    ∃ s, (torn #[⟨4⟩]).assignIds = .ok s ∧ s.text = .error (.unassignedInstr ⟨0⟩) := by
  have hiff (body : Array InstrId) {s : Shader} (h : (torn body).assignIds = .ok s) :=
    text_eq_error_iff h (torn_inRange h)
  refine ⟨?_, ⟨_, rfl, ?_⟩, ⟨_, rfl, ?_⟩, ⟨_, rfl, ?_⟩⟩
  · obtain ⟨t, ht⟩ := (hiff #[⟨0⟩, ⟨1⟩, ⟨2⟩, ⟨3⟩, ⟨2⟩, ⟨5⟩, ⟨6⟩] rfl).1.mpr (by decide)
    exact ⟨_, t, rfl, ht⟩
  · have hcopy : Instr.Fails ⟨.copyObject, some ⟨2⟩, [.instr ⟨3⟩]⟩
        [⟨0⟩, ⟨1⟩, ⟨2⟩, ⟨4⟩, ⟨5⟩, ⟨6⟩] (.unassignedInstr ⟨3⟩) :=
      .unassigned (by decide) (List.nil_append _).symm (by simp) (by decide)
    refine ((hiff #[⟨0⟩, ⟨1⟩, ⟨2⟩, ⟨4⟩, ⟨5⟩, ⟨6⟩] rfl).2.1 _).mpr ?_
    exact .stream (by decide) (show _ = [⟨0⟩, ⟨1⟩] ++ ⟨2⟩ :: [⟨4⟩, ⟨5⟩, ⟨6⟩] from rfl)
      (by decide) rfl hcopy
  · refine ((hiff #[⟨0⟩, ⟨1⟩, ⟨4⟩, ⟨2⟩, ⟨5⟩, ⟨6⟩] rfl).2.1 _).mpr ?_
    exact .stream (by decide) (show _ = [⟨0⟩, ⟨1⟩] ++ ⟨4⟩ :: [⟨2⟩, ⟨5⟩, ⟨6⟩] from rfl)
      (by decide) rfl (.untyped rfl rfl)
  · exact ((hiff #[⟨4⟩] rfl).2.1 _).mpr (.entryPoint (by decide))

end Shader

end ShaderGen
