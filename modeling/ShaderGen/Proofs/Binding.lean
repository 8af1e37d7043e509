import ShaderGen.Proofs.Legibility

/-!
Single definition and definition before use. In the listing of a generated shader
every id is bound by one line. What a line uses is bound further up, labels that a
marker names and what is said of the module as a whole apart, which is bound further
down; and in the stream definitions dominate their uses.
-/

namespace ShaderGen

namespace Line

/-- The opcodes of lines whose ids are bound further down: what is said of the
module as a whole, and markers that name nothing but labels. -/
def forwardOpcodes : List String :=
  ["OpEntryPoint", "OpExecutionMode", "OpDecorate", "OpMemberDecorate", "OpSelectionMerge",
    "OpBranch"]

/-- How many of the ids a line uses are bound further up. They come first: a
conditional branch reads its condition and then names two labels. -/
def backward (l : Line) : Nat :=
  if l.opcode ∈ forwardOpcodes then 0
  else if l.opcode = "OpBranchConditional" then 1
  else l.usedIds.length

/-- The ids a line uses that are bound further up. -/
def boundBefore (l : Line) : List Nat := l.usedIds.take l.backward

/-- The ids a line uses that are bound further down. -/
def boundAfter (l : Line) : List Nat := l.usedIds.drop l.backward

end Line

/-- No two lines bind one id, and the ids a line uses are bound where they should be. -/
structure BindsInOrder (lines : List Line) : Prop where
  once : (lines.filterMap Line.result).Nodup
  before : ∀ front line back, lines = front ++ line :: back →
    ∀ x ∈ line.boundBefore, x ∈ front.filterMap Line.result
  after : ∀ front line back, lines = front ++ line :: back →
    ∀ x ∈ line.boundAfter, x ∈ back.filterMap Line.result

/-! ### Sections -/

/-- A section of a listing uses what it binds itself, what is bound in front of it and
what is bound behind it. -/
def Ordered (above below : List Nat) (lines : List Line) : Prop :=
  ∀ front line back, lines = front ++ line :: back →
    (∀ x ∈ line.boundBefore, x ∈ above ++ front.filterMap Line.result) ∧
      ∀ x ∈ line.boundAfter, x ∈ back.filterMap Line.result ++ below

theorem Ordered.append {above below : List Nat} {a b : List Line}
    (ha : Ordered above (b.filterMap Line.result ++ below) a)
    (hb : Ordered (above ++ a.filterMap Line.result) below b) : Ordered above below (a ++ b) := by
  intro front line back heq
  rcases List.append_eq_append_iff.mp heq with ⟨rest, rfl, rfl⟩ | ⟨rest, rfl, hrest⟩
  · obtain ⟨hbefore, hafter⟩ := hb rest line back rfl
    exact ⟨fun x hx => by simpa using hbefore x hx, hafter⟩
  · cases rest with
    | nil => -- the line is the first of the second section
      obtain ⟨hbefore, hafter⟩ := hb [] line back hrest.symm
      exact ⟨fun x hx => by simpa using hbefore x hx, hafter⟩
    | cons l rest =>
      rw [List.cons_append, List.cons.injEq] at hrest
      obtain ⟨rfl, rfl⟩ := hrest
      obtain ⟨hbefore, hafter⟩ := ha front line rest rfl
      exact ⟨hbefore, fun x hx => by simpa using hafter x hx⟩

/-- A section whose lines use nothing but what is bound behind it. -/
theorem ordered_of_forward {above below : List Nat} {lines : List Line}
    (h : ∀ l ∈ lines, l.boundBefore = [] ∧ ∀ x ∈ l.boundAfter, x ∈ below) :
    Ordered above below lines := by
  intro front line back heq
  obtain ⟨hbefore, hafter⟩ := h line (by simp [heq])
  exact ⟨by simp [hbefore], fun x hx => by simp [hafter x hx]⟩

/-- The places of a list, counted from a first number on. -/
theorem map_zipIdx_add {α : Type} (xs : List α) (first : Nat) :
    xs.zipIdx.map (fun p => first + p.2) = List.range' first xs.length := by
  have hcomp : (fun p : α × Nat => first + p.2) = (first + ·) ∘ Prod.snd := rfl
  rw [hcomp, ← List.map_map, List.zipIdx_map_snd, List.map_add_range', Nat.add_zero]

/-- Where a list is related to another member by member, a split of one splits the
other. -/
theorem forall₂_split {α β : Type} {R : α → β → Prop} {xs : List α} {front back : List β} {y : β}
    (h : List.Forall₂ R xs (front ++ y :: back)) :
    ∃ a x b, xs = a ++ x :: b ∧ List.Forall₂ R a front ∧ R x y ∧ List.Forall₂ R b back := by
  have hfront := List.forall₂_take_append xs front _ h
  obtain ⟨x, b, hr, hback, hdrop⟩ :=
    List.forall₂_cons_right_iff.mp (List.forall₂_drop_append xs front _ h)
  refine ⟨xs.take front.length, x, b, ?_, hfront, hr, hback⟩
  rw [← hdrop, List.take_append_drop]

namespace Emission

variable {n : Numbering} {m : Module} {line : Line} {result : Option Nat} {ids : List Nat}

theorem mem_forwardOpcodes (op : Opcode) :
    op.mnemonic ∈ Line.forwardOpcodes ↔ op ∈ [.selectionMerge, .branch] := by
  cases op <;> simp [Opcode.mnemonic, Opcode.word, Line.forwardOpcodes]

theorem mnemonic_eq_branchConditional (op : Opcode) :
    op.mnemonic = "OpBranchConditional" ↔ op = .branchConditional := by
  cases op <;> simp [Opcode.mnemonic, Opcode.word]

theorem Writes.bound {op : Opcode} (h : Writes line result op ids)
    (hop : op ∉ [.selectionMerge, .branchConditional, .branch]) :
    line.boundBefore = ids ∧ line.boundAfter = [] := by
  have hforward : line.opcode ∉ Line.forwardOpcodes := by
    rw [h.opcode, mem_forwardOpcodes]
    simp_all
  have hbranch : line.opcode ≠ "OpBranchConditional" := by
    rw [h.opcode, Ne, mnemonic_eq_branchConditional]
    simp_all
  simp [Line.boundBefore, Line.boundAfter, Line.backward, hforward, hbranch, h.uses]

theorem Writes.bound_marker {op : Opcode} (h : Writes line result op ids)
    (hop : op ∈ [.selectionMerge, .branch]) : line.boundBefore = [] ∧ line.boundAfter = ids := by
  have hforward : line.opcode ∈ Line.forwardOpcodes := by rwa [h.opcode, mem_forwardOpcodes]
  simp [Line.boundBefore, Line.boundAfter, Line.backward, hforward, h.uses]

theorem Writes.bound_branchConditional (h : Writes line result .branchConditional ids) :
    line.boundBefore = ids.take 1 ∧ line.boundAfter = ids.drop 1 := by
  have hforward : line.opcode ∉ Line.forwardOpcodes := by
    rw [h.opcode, mem_forwardOpcodes]
    simp
  have hbranch : line.opcode = "OpBranchConditional" := h.opcode
  rw [Line.boundBefore, Line.boundAfter, Line.backward, if_neg hforward, if_pos hbranch, h.uses]
  exact ⟨rfl, rfl⟩

/-- A line that declares an entry. -/
def DeclaresEntry (n : Numbering) (p : Entity × Nat) (line : Line) : Prop :=
  Writes line (some (n.entryNumber ⟨p.2⟩)) (declaring p.1) (p.1.refs.map n.entryNumber)

theorem declaring_not_marker (e : Entity) :
    declaring e ∉ [.selectionMerge, .branchConditional, .branch] := by
  rcases e with t | (⟨_, _ | _⟩ | _ | _) | _
  · cases t <;> simp [declaring, Ty.opcode]
  all_goals simp [declaring, Const.opcode]

/-- Entries mention entries that are declared further up. -/
theorem entries_ordered {c : Config} (hwf : m.table.WellFormed c) {above below : List Nat}
    {lines : List Line}
    (h : List.Forall₂ (DeclaresEntry n) m.table.entries.toList.zipIdx lines) :
    Ordered above below lines := by
  rintro front line back rfl
  obtain ⟨a, ⟨e, i⟩, b, hsplit, hfront, hline, -⟩ := forall₂_split h
  have hat : m.table.entries.toList.zipIdx[a.length]? = some (e, i) := by simp [hsplit]
  simp only [List.getElem?_zipIdx, Option.map_eq_some_iff, Prod.mk.injEq, Nat.zero_add] at hat
  obtain ⟨e, he, rfl, rfl⟩ := hat
  have hget : m.table.get? ⟨a.length⟩ = some e := by simpa [Table.get?] using he
  obtain ⟨hbefore, hafter⟩ := hline.bound (declaring_not_marker e)
  rw [hbefore, hafter]
  refine ⟨fun x hx => List.mem_append_right _ ?_, by simp⟩
  obtain ⟨r, hr, rfl⟩ := List.mem_map.mp hx
  -- what is mentioned has an earlier slot, and slots are declared in order
  have hlt : r.index < a.length := hwf.earlier hget r hr
  have hresults := filterMap_of_forall₂ (f := fun p => some (n.entryNumber ⟨p.2⟩))
    (hfront.imp fun _ _ h => h.result)
  rw [hresults, List.mem_filterMap]
  have hmem : a[r.index].2 = r.index := by
    have : m.table.entries.toList.zipIdx[r.index]? = some a[r.index] := by
      rw [hsplit, List.getElem?_append_left hlt, List.getElem?_eq_getElem hlt]
    simp only [List.getElem?_zipIdx, Option.map_eq_some_iff, Nat.zero_add] at this
    obtain ⟨_, _, heq⟩ := this
    rw [← heq]
  exact ⟨a[r.index], List.getElem_mem hlt, by rw [hmem]⟩

/-- A line that an instruction is written as. -/
def WritesInstr (n : Numbering) (m : Module) (id : InstrId) (line : Line) : Prop :=
  ∃ i, m.instrs[id.index]? = some i ∧
    Writes line (if i.opcode.hasResult then n.instrId? id else none) i.opcode (uses n i)

theorem mem_results {ids : List InstrId} {lines : List Line}
    (h : List.Forall₂ (WritesInstr n m) ids lines) {d : InstrId} (hd : d ∈ ids) {i : Instr}
    (hi : m.instrs[d.index]? = some i) (hresult : i.opcode.hasResult = true) {k : Nat}
    (hk : n.instrId? d = some k) : k ∈ lines.filterMap Line.result := by
  have hflip := List.Forall₂.flip (R := fun line id => WritesInstr n m id line) h
  obtain ⟨line, hline, j, hj, hwrites⟩ := forall₂_exists_of_mem hflip hd
  cases hi.symm.trans hj
  refine List.mem_filterMap.mpr ⟨line, hline, ?_⟩
  rw [hwrites.result, if_pos hresult, hk]

/-- The lines of a stream bind no other ids than those of its instructions. -/
theorem results_sublist {ids : List InstrId} {lines : List Line}
    (h : List.Forall₂ (WritesInstr n m) ids lines) :
    (lines.filterMap Line.result).Sublist (ids.filterMap n.instrId?) := by
  induction h with
  | nil => exact .slnil
  | @cons id line ids lines hline _ ih =>
    obtain ⟨i, _, hwrites⟩ := hline
    simp only [List.filterMap_cons, hwrites.result]
    cases i.opcode.hasResult
    · rcases n.instrId? id with _ | _
      · exact ih
      · exact ih.cons _
    · rcases n.instrId? id with _ | _
      · exact ih
      · exact ih.cons_cons _

end Emission

open Emission

namespace Shader.Assembled

variable {c : Config} {s : Shader} {fs : List FunctionParts} (hs : s.Assembled c fs)
  {n : Numbering}
include hs

/-- What an instruction mentions has an id. -/
theorem operand_number (hn : n.Fits s.code s.body.toList) {i : Instr} (h : s.code.Typed i)
    {v : Value} (hv : .value v ∈ i.operands) : ∃ x, n.operandNumber? (.value v) = some x := by
  cases v with
  | entry id => exact ⟨_, rfl⟩
  | instr d =>
    have hlt : d.index < s.code.instrs.size := by
      rcases h.mentions hv with ⟨ty, hty⟩ | ⟨_, _, hj, _⟩
      · obtain ⟨_, hj, _⟩ := Module.has_instr.mp hty
        exact (Array.getElem?_eq_some_iff.mp hj).1
      · exact (Array.getElem?_eq_some_iff.mp hj).1
    have hmem := hs.occupies.mem_iff.mpr ⟨Nat.zero_le _, hlt⟩
    obtain ⟨k, hk⟩ := List.mem_iff_getElem?.mp hmem
    exact ⟨_, hn.instr hk⟩

section Operands

variable {a b : List InstrId} {id : InstrId} (hbody : s.body.toList = a ++ id :: b) {i : Instr}
  (hi : s.code.instrs[id.index]? = some i) {x : Nat}
include hbody hi

/-- A label is bound behind the instructions that mention it. -/
theorem label_behind {back : List Line} (hback : List.Forall₂ (WritesInstr n s.code) b back)
    {d : InstrId} (hd : .instr d ∈ i.operands) (hlabel : s.code.IsLabel d)
    (hx : n.instrId? d = some x) : x ∈ back.filterMap Line.result := by
  have ⟨j, hj, hop⟩ := hlabel
  have hmem := hs.mem_back hbody hi (Instr.mem_usedValues.mpr hd) hlabel
  exact mem_results hback hmem hj (by rw [hop]; rfl) hx

/-- Every other operand is bound in front of the instruction, an entry or an import above the
stream. -/
theorem operand_ahead {above : List Nat} {front : List Line}
    (hentries : ∀ id : EntryId, id.index < s.code.table.size → n.entryNumber id ∈ above)
    (himports : ∀ set : ImportId, set.index < s.code.imports.size → set.index + 1 ∈ above)
    (hfront : List.Forall₂ (WritesInstr n s.code) a front) {o : Operand} (ho : o ∈ i.operands)
    (hx : n.operandNumber? o = some x) (hvalue : ∀ d, o = .instr d → ¬ s.code.IsLabel d) :
    x ∈ above ++ front.filterMap Line.result := by
  have hmentions := (hs.typed hi).mentions ho
  cases o with
  | literal | storage | keyword | extended => cases hx
  | importSet set =>
    cases hx
    exact List.mem_append_left _ (himports set hmentions)
  | value v =>
    cases v with
    | entry r =>
      cases hx
      exact List.mem_append_left _ (hentries r hmentions)
    | instr d =>
      have hno := hvalue d rfl
      rcases hmentions with ⟨ty, hty⟩ | ⟨_, hlabel⟩
      · obtain ⟨j, hj, hjty⟩ := Module.has_instr.mp hty
        have hresult : j.opcode.hasResult = true :=
          Opcode.hasResult_of_isTyped (by rw [(hs.typed hj).isTyped, hjty]; rfl)
        have hd := hs.mem_front hbody hi (Instr.mem_usedValues.mpr ho) hno
        exact List.mem_append_right _ (mem_results hfront hd hj hresult hx)
      · exact (hno hlabel).elim

end Operands

/-- The stream uses what is bound in front of it, and in it what dominance and the
nesting of selections say. -/
theorem stream_ordered (hn : n.Fits s.code s.body.toList) {above : List Nat}
    (hentries : ∀ id : EntryId, id.index < s.code.table.size → n.entryNumber id ∈ above)
    (himports : ∀ set : ImportId, set.index < s.code.imports.size → set.index + 1 ∈ above)
    {lines : List Line} (h : List.Forall₂ (WritesInstr n s.code) s.body.toList lines) :
    Ordered above [] lines := by
  rintro front line back rfl
  obtain ⟨a, id, b, hbody, hfront, ⟨i, hi, hwrites⟩, hback⟩ := forall₂_split h
  have htyped := hs.typed hi
  have hlabel {d : InstrId} {x : Nat} (hd : .instr d ∈ i.operands) (hl : s.code.IsLabel d) :
      n.instrId? d = some x → x ∈ back.filterMap Line.result :=
    hs.label_behind hbody hi hback hd hl
  have hoperand {o : Operand} {x : Nat} (ho : o ∈ i.operands) (hx : n.operandNumber? o = some x) :
      (∀ d, o = .instr d → ¬ s.code.IsLabel d) → x ∈ above ++ front.filterMap Line.result :=
    hs.operand_ahead hbody hi hentries himports hfront ho hx
  have hnumber {v : Value} (hv : .value v ∈ i.operands) := hs.operand_number hn htyped hv
  -- Only markers have operands that are bound further down.
  by_cases hop : i.opcode ∈ [.selectionMerge, .branchConditional, .branch]
  · cases htyped with
    | selectionMerge hm =>
      obtain ⟨hbefore, hafter⟩ := hwrites.bound_marker (by simp)
      rw [hbefore, hafter]
      refine ⟨by simp, fun x hx => List.mem_append_left _ (hlabel (by simp) hm ?_)⟩
      simpa [uses, Numbering.operandNumber?, Operand.instr] using hx
    | branch hm =>
      obtain ⟨hbefore, hafter⟩ := hwrites.bound_marker (by simp)
      rw [hbefore, hafter]
      refine ⟨by simp, fun x hx => List.mem_append_left _ (hlabel (by simp) hm ?_)⟩
      simpa [uses, Numbering.operandNumber?, Operand.instr] using hx
    | @branchConditional condition _ yes no hc _ hyes hno =>
      obtain ⟨hbefore, hafter⟩ := hwrites.bound_branchConditional
      rw [hbefore, hafter]
      obtain ⟨x, hx⟩ := hnumber List.mem_cons_self
      obtain ⟨y, hy⟩ := hnumber (v := .instr yes) (by simp [Operand.instr])
      obtain ⟨z, hz⟩ := hnumber (v := .instr no) (by simp [Operand.instr])
      have huses : uses n ⟨.branchConditional, none, [.value condition, .instr yes, .instr no]⟩ =
          [x, y, z] := by simp [uses, Operand.instr, hx, hy, hz]
      rw [huses]
      refine ⟨fun k hk => ?_, fun k hk => List.mem_append_left _ ?_⟩
      · obtain rfl := List.mem_singleton.mp hk
        refine hoperand List.mem_cons_self hx ?_
        rintro d heq
        cases heq
        exact hc.not_isLabel hs.typed
      · rcases List.mem_pair.mp hk with rfl | rfl
        · exact hlabel (by simp) hyes hy
        · exact hlabel (by simp) hno hz
    | apply _ h =>
      have hstatement := h.isStatement
      simp only [List.mem_cons, List.not_mem_nil, or_false] at hop
      rcases hop with rfl | rfl | rfl <;> cases hstatement
    | _ => simp at hop
  · obtain ⟨hbefore, hafter⟩ := hwrites.bound hop
    rw [hbefore, hafter]
    refine ⟨fun x hx => ?_, by simp⟩
    rcases List.mem_append.mp hx with hx | hx
    · obtain ⟨ty, hty, rfl⟩ := List.mem_map.mp hx
      have hlt := htyped.resultType_lt hs.table (Option.mem_toList.mp hty)
      exact List.mem_append_left _ (hentries ty hlt)
    · obtain ⟨o, ho, hx⟩ := List.mem_filterMap.mp hx
      refine hoperand ho hx ?_
      rintro d rfl hl
      rcases htyped.mentions ho with ⟨ty, hty⟩ | ⟨hmarker, _⟩
      · exact hty.not_isLabel hs.typed hl
      · exact hop hmarker

end Shader.Assembled

/-! ### The listing -/

theorem Line.bound_of_usedIds {l : Line} (h : l.usedIds = []) :
    l.boundBefore = [] ∧ l.boundAfter = [] := by
  simp [boundBefore, boundAfter, h]

theorem Line.bound_of_forward {l : Line} (h : l.opcode ∈ forwardOpcodes) :
    l.boundBefore = [] ∧ l.boundAfter = l.usedIds := by
  simp [boundBefore, boundAfter, backward, h]

/-- An annotation uses the id of what it is about. -/
theorem Emission.annotationLine_eq {n : Numbering} {a : Annotation}
    (h : a.target.index < n.entries) : ∃ line, annotationLine n a = .ok line ∧
      line.result = none ∧ line.opcode ∈ Line.forwardOpcodes ∧
      line.usedIds = [n.entryNumber a.target] := by
  have hnone (d : Decoration) : (decorationWords d).filterMap Word.id? = [] := by
    cases d <;> rfl
  cases a with
  | entry target d =>
    simp only [annotationLine, entryWord_eq (show target.index < n.entries from h)]
    exact ⟨_, rfl, rfl, by simp [Line.forwardOpcodes],
      by simp [Line.usedIds_eq, Word.id?, hnone]⟩
  | member target index d =>
    simp only [annotationLine, entryWord_eq (show target.index < n.entries from h)]
    exact ⟨_, rfl, rfl, by simp [Line.forwardOpcodes],
      by simp [Line.usedIds_eq, List.filterMap_cons, Word.id?, numberWord, hnone]⟩

/-- The imports are bound to the first ids. -/
theorem Emission.importLines_eq {n : Numbering} {imports : Array String}
    (h : n.imports = imports.size) : ∃ lines,
      imports.toList.zipIdx.mapM (fun p => importLine n p.2 p.1) = .ok lines ∧
      List.Forall₂ (fun p line => line.result = some (1 + p.2) ∧ line.usedIds = [])
        imports.toList.zipIdx lines := by
  refine mapM_forall₂ fun p hp => ?_
  have hlt : p.2 < n.imports := by
    have := (List.mem_zipIdx' hp).1
    rwa [Array.length_toList, ← h] at this
  have hid : n.importId ⟨p.2⟩ = .ok (1 + p.2) := by
    rw [Nat.add_comm]
    exact if_pos hlt
  simp only [importLine, hid]
  exact ⟨_, rfl, rfl, rfl⟩

/-- The lines in front of the entries. -/
def Shader.frontLines (s : Shader) (entry : Nat) (imports annotations : List Line) : List Line :=
  (s.capabilities.map fun c =>
    ({ opcode := "OpCapability", operands := [.plain c.name] } : Line)) ++ imports ++
  ({ opcode := "OpMemoryModel", operands := [.plain "Logical", .plain "GLSL450"] } : Line) ::
    Shader.entryLines entry ++ annotations

/-- What stands in front of the entries: the imports are bound, and all that is used is
the entry point and what annotations are about. -/
structure IsFront (s : Shader) (n : Numbering) (lines : List Line) : Prop where
  results : lines.filterMap Line.result = List.range' 1 s.code.imports.size
  before : ∀ l ∈ lines, l.boundBefore = []
  after : ∀ l ∈ lines, ∀ x ∈ l.boundAfter,
    (∃ id : EntryId, id.index < s.code.table.size ∧ x = n.entryNumber id) ∨
      n.instrId? s.entryPoint = some x

section

variable {c : Config} {s : Shader} {fs : List FunctionParts} (hs : s.Assembled c fs)
  {n : Numbering} (hn : n.Fits s.code s.body.toList)
include hs hn

/-- The entry point is in the stream and has an id. -/
theorem Shader.Assembled.entryPoint_number : ∃ i k, s.code.instrs[s.entryPoint.index]? = some i ∧
    i.opcode.hasResult = true ∧ s.entryPoint ∈ s.body.toList ∧
    n.instrId? s.entryPoint = some k := by
  obtain ⟨f, rest, ty, r, hfs, hentry, hfun, _, _⟩ := hs.main
  obtain ⟨_, _, _, hopening, _⟩ := hfun.opens
  have hmem : s.entryPoint ∈ s.body.toList := by
    simp [hs.body, hfs, hentry, FunctionParts.stream]
  obtain ⟨k, hk⟩ := List.mem_iff_getElem?.mp hmem
  exact ⟨_, _, hentry ▸ hopening, rfl, hmem, hn.instr hk⟩

omit hs hn in
theorem isFront {imports annotations : List Line} {k : Nat}
    (himports : List.Forall₂ (fun p line => line.result = some (1 + p.2) ∧ line.usedIds = [])
      s.code.imports.toList.zipIdx imports)
    (hannotations : List.Forall₂ (fun a line => line.result = none ∧
      line.opcode ∈ Line.forwardOpcodes ∧ line.usedIds = [n.entryNumber a.target])
      s.code.annotations.toList annotations)
    (htargets : ∀ a ∈ s.code.annotations, a.target.index < s.code.table.size)
    (hk : n.instrId? s.entryPoint = some k) :
    IsFront s n (s.frontLines k imports annotations) := by
  have huses : ∀ l ∈ s.frontLines k imports annotations,
      l.usedIds = [] ∨ l.opcode ∈ Line.forwardOpcodes ∧ ∀ x ∈ l.usedIds,
        (∃ id : EntryId, id.index < s.code.table.size ∧ x = n.entryNumber id) ∨
          n.instrId? s.entryPoint = some x := by
    intro l hl
    simp only [Shader.frontLines, List.mem_append, List.mem_cons, Shader.entryLines,
      List.not_mem_nil, or_false] at hl
    rcases hl with ((hl | hl) | rfl | rfl | rfl) | hl
    · obtain ⟨_, _, rfl⟩ := List.mem_map.mp hl
      exact .inl rfl
    · obtain ⟨_, _, _, huses⟩ := forall₂_exists_of_mem himports hl
      exact .inl huses
    · exact .inl rfl
    · refine .inr ⟨by simp [Line.forwardOpcodes], fun x hx => .inr ?_⟩
      obtain rfl := List.mem_singleton.mp hx
      exact hk
    · refine .inr ⟨by simp [Line.forwardOpcodes], fun x hx => .inr ?_⟩
      obtain rfl := List.mem_singleton.mp hx
      exact hk
    · obtain ⟨a, ha, _, hop, huses⟩ := forall₂_exists_of_mem hannotations hl
      refine .inr ⟨hop, fun x hx => .inl ⟨a.target, ?_, ?_⟩⟩
      · exact htargets a (Array.mem_toList_iff.mp ha)
      · simpa [huses] using hx
  refine ⟨?_, fun l hl => ?_, fun l hl x hx => ?_⟩
  · have hcapabilities : (s.capabilities.map fun c =>
        ({ opcode := "OpCapability", operands := [.plain c.name] } : Line)).filterMap
          Line.result = [] := by simp [List.filterMap_map]
    have hbound : imports.filterMap Line.result = List.range' 1 s.code.imports.size := by
      rw [filterMap_of_forall₂ (f := fun p => some (1 + p.2)) (himports.imp fun _ _ h => h.1),
        List.filterMap_eq_map', map_zipIdx_add, Array.length_toList]
    have hannotated : annotations.filterMap Line.result = [] :=
      List.filterMap_eq_nil_iff.mpr fun l hl => by
        obtain ⟨_, _, hresult, _⟩ := forall₂_exists_of_mem hannotations hl
        exact hresult
    simp [Shader.frontLines, List.filterMap_append, hcapabilities, hbound, hannotated,
      Shader.entryLines]
  · rcases huses l hl with h | ⟨hop, _⟩
    · exact (Line.bound_of_usedIds h).1
    · exact (Line.bound_of_forward hop).1
  · rcases huses l hl with h | ⟨hop, h⟩
    · rw [(Line.bound_of_usedIds h).2] at hx
      cases hx
    · rw [(Line.bound_of_forward hop).2] at hx
      exact h x hx

/-- A shader that is made of functions has a listing. -/
theorem Shader.Assembled.listing_sections (hnumbering : s.numbering = some n) :
    ∃ front entries stream, s.listing = .ok ⟨s.header, front ++ entries ++ stream⟩ ∧
      IsFront s n front ∧
      List.Forall₂ (DeclaresEntry n) s.code.table.entries.toList.zipIdx entries ∧
      List.Forall₂ (WritesInstr n s.code) s.body.toList stream := by
  obtain ⟨_, k, _, _, _, hk⟩ := hs.entryPoint_number hn
  obtain ⟨imports, himports, hall⟩ := importLines_eq hn.imports
  obtain ⟨annotations, hannotations, hannotated⟩ : ∃ annotations,
      s.code.annotations.toList.mapM (annotationLine n) = .ok annotations ∧
      List.Forall₂ (fun a line => line.result = none ∧ line.opcode ∈ Line.forwardOpcodes ∧
        line.usedIds = [n.entryNumber a.target]) s.code.annotations.toList annotations :=
    mapM_forall₂ fun a ha => annotationLine_eq (by
      rw [hn.entries]
      exact hs.annotated a (Array.mem_toList_iff.mp ha))
  obtain ⟨entries, hentries, hdeclared⟩ : ∃ entries,
      s.code.table.entries.toList.zipIdx.mapM (fun p => entryLine s.code n ⟨p.2⟩ p.1) =
        .ok entries ∧
      List.Forall₂ (DeclaresEntry n) s.code.table.entries.toList.zipIdx entries := by
    refine mapM_forall₂ fun p hp => entryLine_writes hs.table hn.entries ?_
    rw [Table.get?]
    have := List.mem_zipIdx_iff_getElem?.mp hp
    simpa using this
  obtain ⟨stream, hstream, hwritten⟩ : ∃ stream,
      s.body.toList.mapM (instrLine s.code n) = .ok stream ∧
      List.Forall₂ (WritesInstr n s.code) s.body.toList stream := by
    refine mapM_forall₂ fun id hid => ?_
    have hi := Array.getElem?_eq_getElem (hs.occupies.mem_iff.mp hid).2
    have htyped := hs.typed hi
    obtain ⟨_, hk⟩ := List.mem_iff_getElem?.mp hid
    obtain ⟨line, hline, hwrites⟩ := instrLine_writes hs.table hn.entries hi htyped (hn.instr hk)
      fun o ho => operandWord_eq
        (fun r hr => by
          subst hr
          exact hn.entries ▸ htyped.mentions ho)
        (fun d hd => by
          subst hd
          exact hs.operand_number hn htyped ho)
        (fun set hset => by
          subst hset
          exact hn.imports ▸ htyped.mentions ho)
    exact ⟨line, hline, _, hi, hwrites⟩
  refine ⟨_, entries, stream, ?_, isFront hall hannotated hs.annotated hk, hdeclared, hwritten⟩
  rw [Shader.listing, hnumbering]
  simp only [Shader.listingWith, himports, valueId, hk, hannotations, hentries, hstream]
  rfl

/-- The lines of a listing bind the ids from one on, in order. -/
theorem Shader.Assembled.bindsInOrder {front entries stream : List Line}
    (hfront : IsFront s n front)
    (hentries : List.Forall₂ (DeclaresEntry n) s.code.table.entries.toList.zipIdx entries)
    (hstream : List.Forall₂ (WritesInstr n s.code) s.body.toList stream) :
    BindsInOrder (front ++ entries ++ stream) := by
  have hbound : entries.filterMap Line.result =
      List.range' (1 + s.code.imports.size) s.code.table.size := by
    have hnumber : (fun p : Entity × Nat => n.entryNumber ⟨p.2⟩) =
        fun p => 1 + s.code.imports.size + p.2 := by
      funext p
      simp only [Numbering.entryNumber, hn.imports]
      omega
    rw [filterMap_of_forall₂ (f := fun p => some (n.entryNumber ⟨p.2⟩))
      (hentries.imp fun _ _ h => h.result), List.filterMap_eq_map', hnumber, map_zipIdx_add]
    rfl
  -- Markers take ids that their lines do not bind, so the bound ids are not all of them.
  have hnumbers : (stream.filterMap Line.result).Sublist
      (List.range' (1 + (s.code.imports.size + s.code.table.size)) s.body.size) := by
    have h := results_sublist hstream
    rwa [hn.stream, Nat.add_comm _ 1] at h
  have hentry (id : EntryId) (hid : id.index < s.code.table.size) :
      n.entryNumber id ∈ entries.filterMap Line.result := by
    rw [hbound, List.mem_range'_1, Numbering.entryNumber, hn.imports]
    omega
  have himport (set : ImportId) (hset : set.index < s.code.imports.size) :
      set.index + 1 ∈ front.filterMap Line.result := by
    rw [hfront.results, List.mem_range'_1]
    omega
  have hordered : Ordered [] [] (front ++ entries ++ stream) := by
    refine (Ordered.append (ordered_of_forward fun l hl => ?_) ?_).append ?_
    · refine ⟨hfront.before l hl, fun x hx => ?_⟩
      rcases hfront.after l hl x hx with ⟨id, hid, rfl⟩ | hx
      · exact List.mem_append_left _ (hentry id hid)
      · obtain ⟨i, k, hi, hresult, hmem, _⟩ := hs.entryPoint_number hn
        exact List.mem_append_right _
          (List.mem_append_left _ (mem_results hstream hmem hi hresult hx))
    · exact entries_ordered hs.table hentries
    · refine hs.stream_ordered hn (fun id hid => ?_) (fun set hset => ?_) hstream
      · simp [hentry id hid]
      · simp [himport set hset]
  refine ⟨?_, fun f l b heq x hx => ?_, fun f l b heq x hx => ?_⟩
  · have hall : ((front ++ entries ++ stream).filterMap Line.result).Sublist
        (List.range' 1 (s.code.imports.size + s.code.table.size + s.body.size)) := by
      rw [List.filterMap_append, List.filterMap_append, hfront.results, hbound,
        List.range'_append_1]
      exact (hnumbers.append_left _).trans (by rw [List.range'_append_1])
    exact (List.nodup_range' _).sublist hall
  · simpa using (hordered f l b heq).1 x hx
  · simpa using (hordered f l b heq).2 x hx

end

variable {ρ : Type} [RandomSource ρ] [BoundedRandomSource ρ]

/-- A generated shader can be written, and what is written reads back. -/
theorem Config.listing_of_shaderFrom {c : Config} {source : ρ} {s : Shader}
    (h : c.shaderFrom source = .ok s) : ∃ fs n l, s.Assembled c fs ∧ s.numbering = some n ∧
      n.Covers s.body.toList ∧ s.listing = .ok l ∧ s.listingWith n = .ok l ∧
      s.text = .ok l.render ∧ Listing.read l.render = .ok l := by
  obtain ⟨fs, n, hs, hnumbering, hassign⟩ := c.assembled_of_shaderFrom h
  obtain ⟨_, _, _, hlisting, -⟩ :=
    hs.listing_sections (Numbering.assign_fits hs.occupies.nodup hassign) hnumbering
  have hwritten := hlisting
  rw [Shader.listing, hnumbering] at hwritten
  exact ⟨fs, n, _, hs, hnumbering, Numbering.covers_of_assign hassign, hlisting, hwritten,
    congrArg (Listing.render <$> ·) hlisting, read_of_shaderFrom h hlisting⟩

/-- A generated shader can be written, and its text reads back to its listing. In the listing
each id is bound by one line, all that is used is bound further up or, where a line says so,
further down; and in the stream each value is read where its definition dominates. -/
theorem Config.bindsInOrder_of_shaderFrom {c : Config} {source : ρ} {s : Shader}
    (h : c.shaderFrom source = .ok s) :
    ∃ l, s.listing = .ok l ∧ s.text = .ok l.render ∧ Listing.read l.render = .ok l ∧
      BindsInOrder l.lines ∧ s.code.Dominated [] {} s.body.toList := by
  obtain ⟨fs, n, hs, hnumbering, hassign⟩ := c.assembled_of_shaderFrom h
  have hn := Numbering.assign_fits hs.occupies.nodup hassign
  obtain ⟨front, entries, stream, hlisting, hfront, hentries, hstream⟩ :=
    hs.listing_sections hn hnumbering
  exact ⟨_, hlisting, congrArg (Listing.render <$> ·) hlisting, read_of_shaderFrom h hlisting,
    hs.bindsInOrder hn hfront hentries hstream, hs.dominated⟩

/-- Instructions without a result take ids that no line binds, so some are left out. -/
theorem Config.bindsInOrder_small : ∃ s l, Config.small.shaderFrom Script.selection = .ok s ∧
    s.listing = .ok l ∧ s.text = .ok l.render ∧ Listing.read l.render = .ok l ∧
    l.lines.filterMap Line.result =
      [1, 2, 3, 4, 5, 6, 7, 8, 9, 10, 11, 12, 13, 16, 17, 18, 19, 22, 23, 25, 26, 27] ∧
    BindsInOrder l.lines ∧ s.code.Dominated [] {} s.body.toList := by
  have hbound : ((Config.small.shaderFrom Script.selection).toOption.bind fun s =>
      s.listing.toOption.map fun l => l.lines.filterMap Line.result) =
      some [1, 2, 3, 4, 5, 6, 7, 8, 9, 10, 11, 12, 13, 16, 17, 18, 19, 22, 23, 25, 26, 27] := by
    decide +kernel
  obtain ⟨s, hs, -⟩ := small_shaderFrom
  obtain ⟨l, hlisting, htext, hread, hbinds, hdominated⟩ := bindsInOrder_of_shaderFrom hs
  rw [hs, Except.toOption, Option.bind_some, hlisting] at hbound
  exact ⟨s, l, hs, hlisting, htext, hread, Option.some.inj hbound, hbinds, hdominated⟩

end ShaderGen
