import ShaderGen.Proofs.DecimalTexts
import ShaderGen.Proofs.Emission

/-!
Shaders that read back. What a line is written for is an id that it binds, an opcode
and operands; a listing shows a shader if its lines are those of the shader's parts,
in order, with every reference replaced by its id. A written shader is canonical, so
that the reader recovers exactly the lines that show it.
-/

namespace ShaderGen

open Text

/-! ### The operands of the parts of a shader -/

/-- The operands that declare a type. -/
def Ty.operands : Ty → List Operand
  | void | bool => []
  | int width signed => [.literal width, .literal (if signed then 1 else 0)]
  | float width => [.literal width]
  | vector part count | matrix part count => [.entry part, .literal count]
  | array element length => [.entry element, .entry length]
  | struct members => members.map .entry
  | pointer storage pointee => [.storage storage, .entry pointee]
  | function result params => .entry result :: params.map .entry

/-- The width at which a literal of a type is written. -/
def Module.literalWidth (m : Module) (ty : EntryId) : Nat :=
  (((m.table.get? ty).bind Entity.type?).bind Ty.scalarWidth?).getD 32

/-- The operands that declare an entry. -/
def Entity.operands (m : Module) : Entity → List Operand
  | type t => t.operands
  | const (.bool ty _) => [.entry ty]
  | const (.scalar ty value) => [.entry ty, .keyword (value.render (m.literalWidth ty))]
  | const (.composite ty parts) => .entry ty :: parts.map .entry
  | var v => .entry v.ty :: .storage v.storage :: v.initializer.toList.map .entry

/-- The operands of a decoration. -/
def Decoration.operands : Decoration → List Operand
  | block => [.keyword "Block"]
  | descriptorSet set => [.keyword "DescriptorSet", .literal set]
  | binding k => [.keyword "Binding", .literal k]
  | offset bytes => [.keyword "Offset", .literal bytes]

/-- The operands of an annotation. -/
def Annotation.operands : Annotation → List Operand
  | entry target decoration => .entry target :: decoration.operands
  | member target index decoration => .entry target :: .literal index :: decoration.operands

/-- The mnemonic of an annotation. -/
def Annotation.mnemonic : Annotation → String
  | entry .. => "OpDecorate"
  | member .. => "OpMemberDecorate"

/-- The operands of an instruction, its result type first if it names one. -/
def Instr.words (i : Instr) : List Operand :=
  (if i.opcode.isTyped then i.resultType.toList.map .entry else []) ++ i.operands

/-! ### Lines that show a shader -/

/-- An operand and the word it is under the ids. -/
inductive Numbering.Resolves (n : Numbering) : Operand → Word → Prop
  | entry {id : EntryId} {k : Nat} (h : n.entryId id = .ok k) : Resolves n (.entry id) (.id k)
  | instr {id : InstrId} {k : Nat} (h : n.instrId? id = some k) : Resolves n (.instr id) (.id k)
  | importSet {id : ImportId} {k : Nat} (h : n.importId id = .ok k) :
      Resolves n (.importSet id) (.id k)
  | literal (k : Nat) : Resolves n (.literal k) (.plain (toString k))
  | storage (s : StorageClass) : Resolves n (.storage s) (.plain s.name)
  | keyword (word : String) : Resolves n (.keyword word) (.plain word)
  | extended (op : ExtendedOp) : Resolves n (.extended op) (.plain op.name)

/-- A line binds an id, or none, and has an opcode and operands. -/
structure Line.Shows (line : Line) (n : Numbering) (result : Option Nat) (opcode : String)
    (operands : List Operand) : Prop where
  result : line.result = result
  opcode : line.opcode = opcode
  operands : List.Forall₂ n.Resolves operands line.operands

/-- The lines of the parts of a shader, in the order of a listing. -/
structure Shader.Sections (s : Shader) (n : Numbering) where
  entry : Nat
  imports : List Line
  annotations : List Line
  entries : List Line
  stream : List Line
  entry_eq : n.instrId? s.entryPoint = some entry
  imports_show : List.Forall₂ (fun (p : String × Nat) line => ∃ k, n.importId ⟨p.2⟩ = .ok k ∧
    line = ⟨some k, "OpExtInstImport", [.quoted p.1]⟩) s.code.imports.toList.zipIdx imports
  annotations_show : List.Forall₂ (fun a line => line.Shows n none a.mnemonic a.operands)
    s.code.annotations.toList annotations
  entries_show : List.Forall₂ (fun (p : Entity × Nat) line => ∃ k, n.entryId ⟨p.2⟩ = .ok k ∧
    line.Shows n (some k) (Emission.declaring p.1).mnemonic (p.1.operands s.code))
    s.code.table.entries.toList.zipIdx entries
  stream_shows : List.Forall₂ (fun id line => ∃ i k, s.code.instrs[id.index]? = some i ∧
    n.instrId? id = some k ∧ line.Shows n (if i.opcode.hasResult then some k else none)
      i.opcode.mnemonic i.words) s.body.toList stream

/-- The lines of all parts. -/
def Shader.Sections.lines {s : Shader} {n : Numbering} (p : s.Sections n) : List Line :=
  s.capabilities.map (fun c => { opcode := "OpCapability", operands := [.plain c.name] }) ++
    p.imports ++
    { opcode := "OpMemoryModel", operands := [.plain "Logical", .plain "GLSL450"] } ::
    { opcode := "OpEntryPoint", operands := [.plain "GLCompute", .id p.entry, .quoted "main"] } ::
    { opcode := "OpExecutionMode", operands :=
        [.id p.entry, .plain "LocalSize", .plain "1", .plain "1", .plain "1"] } ::
    p.annotations ++ p.entries ++ p.stream

/-- A keyword can stand in a listing. -/
def Operand.Legible : Operand → Prop
  | keyword word => Bare word.toList
  | _ => True

instance : (o : Operand) → Decidable o.Legible
  | .keyword word => inferInstanceAs (Decidable (Bare word.toList))
  | .value _ | .literal _ | .storage _ | .importSet _ | .extended _ => .isTrue trivial

/-- The texts a shader brings along can stand in a listing. -/
structure Shader.Readable (s : Shader) : Prop where
  imports : ∀ name ∈ s.code.imports, '"' ∉ name.toList ∧ '\n' ∉ name.toList
  keywords : ∀ id ∈ s.body, ∀ i ∈ s.code.instrs[id.index]?, ∀ o ∈ i.operands, o.Legible

/-! ### Words of the emission -/

namespace Emission

variable {n : Numbering} {m : Module}

theorem checked_eq_ok {α : Type} {r : Except Fault α} {a : α} : checked r = .ok a ↔ r = .ok a := by
  cases r <;> simp [checked]

/-- What is computed for each member of a list is related to the members if each result
is to its member. -/
theorem forall₂_of_mapM {α β ε : Type} {R : α → β → Prop} {f : α → Except ε β} {xs : List α}
    {ys : List β} (h : xs.mapM f = .ok ys) (hr : ∀ x ∈ xs, ∀ y, f x = .ok y → R x y) :
    List.Forall₂ R xs ys := by
  induction xs generalizing ys with
  | nil =>
    cases h
    exact .nil
  | cons x xs ih =>
    simp only [List.mapM_cons, bind_eq_ok, pure_eq_ok] at h
    obtain ⟨y, hy, ys, hys, rfl⟩ := h
    exact .cons (hr x (by simp) y hy) (ih hys fun x hx => hr x (by simp [hx]))

theorem valueId_instr_eq_ok {id : InstrId} {k : Nat} :
    valueId n (.instr id) = .ok k ↔ n.instrId? id = some k := by
  rw [valueId]
  cases n.instrId? id <;> simp

theorem entryWord_resolves {id : EntryId} {w : Word} (h : entryWord n id = .ok w) :
    n.Resolves (.entry id) w := by
  simp only [entryWord, checked_eq_ok, map_eq_ok] at h
  obtain ⟨k, hk, rfl⟩ := h
  exact .entry hk

theorem entryWords_resolve {ids : List EntryId} {ws : List Word}
    (h : ids.mapM (entryWord n) = .ok ws) :
    List.Forall₂ n.Resolves (ids.map Operand.entry) ws := by
  rw [List.forall₂_map_left_iff]
  exact forall₂_of_mapM h fun _ _ _ => entryWord_resolves

theorem typeWords_resolve {t : Ty} {ws : List Word} (h : typeWords n t = .ok ws) :
    List.Forall₂ n.Resolves t.operands ws := by
  cases t with
  | void | bool =>
    cases h
    exact .nil
  | int width signed =>
    cases h
    exact .cons (.literal _) (.cons (.literal _) .nil)
  | float width =>
    cases h
    exact .cons (.literal _) .nil
  | vector part count | matrix part count =>
    simp only [typeWords, bind_eq_ok, pure_eq_ok] at h
    obtain ⟨w, hw, rfl⟩ := h
    exact .cons (entryWord_resolves hw) (.cons (.literal _) .nil)
  | array element length =>
    simp only [typeWords, bind_eq_ok, pure_eq_ok] at h
    obtain ⟨w, hw, w', hw', rfl⟩ := h
    exact .cons (entryWord_resolves hw) (.cons (entryWord_resolves hw') .nil)
  | struct members => exact entryWords_resolve h
  | pointer storage pointee =>
    simp only [typeWords, bind_eq_ok, pure_eq_ok] at h
    obtain ⟨w, hw, rfl⟩ := h
    exact .cons (.storage _) (.cons (entryWord_resolves hw) .nil)
  | function result params =>
    simp only [typeWords, bind_eq_ok, pure_eq_ok] at h
    obtain ⟨w, hw, ws, hws, rfl⟩ := h
    exact .cons (entryWord_resolves hw) (entryWords_resolve hws)

theorem constWords_resolve {k : Const} {ws : List Word} (h : constWords m n k = .ok ws) :
    List.Forall₂ n.Resolves ((Entity.const k).operands m) ws := by
  simp only [constWords, bind_eq_ok] at h
  obtain ⟨w, hw, h⟩ := h
  have hty := entryWord_resolves hw
  cases k with
  | bool ty value =>
    cases h
    exact .cons hty .nil
  | scalar ty value =>
    simp only [bind_eq_ok, checked_eq_ok, pure_eq_ok, Module.typeAt_eq_ok] at h
    obtain ⟨t, ht, rfl⟩ := h
    have hwidth : m.literalWidth ty = t.scalarWidth?.getD 32 := by
      rw [Module.literalWidth, show m.table.get? ty = some (.type t) from ht]
      rfl
    rw [← hwidth]
    exact .cons hty (.cons (.keyword _) .nil)
  | composite ty parts =>
    simp only [bind_eq_ok, pure_eq_ok] at h
    obtain ⟨ws, hws, rfl⟩ := h
    exact .cons hty (entryWords_resolve hws)

theorem varWords_resolve {v : GlobalVar} {ws : List Word} (h : varWords n v = .ok ws) :
    List.Forall₂ n.Resolves ((Entity.var v).operands m) ws := by
  simp only [varWords, bind_eq_ok, pure_eq_ok] at h
  obtain ⟨w, hw, ws, hws, rfl⟩ := h
  exact .cons (entryWord_resolves hw) (.cons (.storage _) (entryWords_resolve hws))

theorem operandWord_resolves {o : Operand} {w : Word} (h : operandWord n o = .ok w) :
    n.Resolves o w := by
  cases o with
  | literal k => cases h; exact .literal k
  | storage s => cases h; exact .storage s
  | keyword word => cases h; exact .keyword word
  | extended op => cases h; exact .extended op
  | importSet id =>
    simp only [operandWord, checked_eq_ok, map_eq_ok] at h
    obtain ⟨k, hk, rfl⟩ := h
    exact .importSet hk
  | value v =>
    simp only [operandWord, map_eq_ok] at h
    obtain ⟨k, hk, rfl⟩ := h
    cases v with
    | entry id => exact .entry (checked_eq_ok.mp hk)
    | instr id => exact .instr (valueId_instr_eq_ok.mp hk)

theorem decorationWords_resolve (d : Decoration) :
    List.Forall₂ n.Resolves d.operands (decorationWords d) := by
  cases d with
  | block => exact .cons (.keyword _) .nil
  | descriptorSet | binding | offset => exact .cons (.keyword _) (.cons (.literal _) .nil)

/-! ### Lines of the emission -/

theorem annotationLine_shows {a : Annotation} {line : Line} (h : annotationLine n a = .ok line) :
    line.Shows n none a.mnemonic a.operands := by
  cases a with
  | entry target decoration =>
    simp only [annotationLine, bind_eq_ok, pure_eq_ok] at h
    obtain ⟨w, hw, rfl⟩ := h
    exact ⟨rfl, rfl, .cons (entryWord_resolves hw) (decorationWords_resolve decoration)⟩
  | member target index decoration =>
    simp only [annotationLine, bind_eq_ok, pure_eq_ok] at h
    obtain ⟨w, hw, rfl⟩ := h
    exact ⟨rfl, rfl,
      .cons (entryWord_resolves hw) (.cons (.literal _) (decorationWords_resolve decoration))⟩

theorem entryLine_shows {id : EntryId} {e : Entity} {line : Line}
    (h : entryLine m n id e = .ok line) :
    ∃ k, n.entryId id = .ok k ∧ line.Shows n (some k) (declaring e).mnemonic (e.operands m) := by
  simp only [entryLine, bind_eq_ok, checked_eq_ok] at h
  obtain ⟨k, hk, h⟩ := h
  refine ⟨k, hk, ?_⟩
  cases e with
  | type t =>
    simp only [bind_eq_ok, pure_eq_ok] at h
    obtain ⟨ws, hws, rfl⟩ := h
    exact ⟨rfl, rfl, typeWords_resolve hws⟩
  | const c =>
    simp only [bind_eq_ok, pure_eq_ok] at h
    obtain ⟨ws, hws, rfl⟩ := h
    exact ⟨rfl, rfl, constWords_resolve hws⟩
  | var v =>
    simp only [bind_eq_ok, pure_eq_ok] at h
    obtain ⟨ws, hws, rfl⟩ := h
    exact ⟨rfl, rfl, varWords_resolve hws⟩

theorem resultTypeWords_resolve {i : Instr} {ws : List Word} (h : resultTypeWords n i = .ok ws) :
    List.Forall₂ n.Resolves (if i.opcode.isTyped then i.resultType.toList.map .entry else []) ws := by
  rw [resultTypeWords] at h
  split_ifs at h ⊢ with htyped
  · rcases hty : i.resultType with _ | ty
    · rw [hty] at h
      cases h
    · simp only [hty, bind_eq_ok, pure_eq_ok] at h
      obtain ⟨w, hw, rfl⟩ := h
      exact .cons (entryWord_resolves hw) .nil
  · cases h
    exact .nil

/-- The line of an instruction that has an id. -/
theorem instrLine_shows {id : InstrId} {k : Nat} {line : Line} (hk : n.instrId? id = some k)
    (h : instrLine m n id = .ok line) : ∃ i, m.instrs[id.index]? = some i ∧
      line.Shows n (if i.opcode.hasResult then some k else none) i.opcode.mnemonic i.words := by
  simp only [instrLine, bind_eq_ok, checked_eq_ok, Module.instr_eq_ok,
    valueId_instr_eq_ok.mpr hk] at h
  obtain ⟨i, hi, tys, htys, ws, hws, h⟩ := h
  have hwords : List.Forall₂ n.Resolves i.words (tys ++ ws) :=
    List.rel_append (resultTypeWords_resolve htys)
      (forall₂_of_mapM hws fun _ _ _ => operandWord_resolves)
  refine ⟨i, hi, ?_⟩
  by_cases hresult : i.opcode.hasResult = true
  · rw [if_pos hresult] at h
    cases h
    exact ⟨(if_pos hresult).symm, rfl, hwords⟩
  · rw [if_neg hresult] at h
    cases h
    exact ⟨(if_neg hresult).symm, rfl, hwords⟩

end Emission

/-! ### Ids that are handed out -/

namespace Numbering

/-- Every id an operand can be written as is a word of 32 bits, and every instruction of
the stream has one. -/
structure Covers (n : Numbering) (body : List InstrId) : Prop where
  imports : ∀ {id k}, n.importId id = .ok k → k < UInt32.size
  entries : ∀ {id k}, n.entryId id = .ok k → k < UInt32.size
  instrs : ∀ {id k}, n.instrId? id = some k → k < UInt32.size
  stream : ∀ id ∈ body, ∃ k, n.instrId? id = some k

variable {ids ids' : Array (Option Nat)} {next next' : Nat} {body : List InstrId}

/-- Ids stay below the next one. -/
theorem number_lt (h : number ids next body = .ok (ids', next'))
    (hids : ∀ j k : Nat, ids[j]? = some (some k) → k < next) :
    next ≤ next' ∧ ∀ j k : Nat, ids'[j]? = some (some k) → k < next' := by
  induction body generalizing ids next with
  | nil =>
    cases h
    exact ⟨Nat.le_refl _, hids⟩
  | cons d body ih =>
    rw [number] at h
    split_ifs at h with hlt
    have hset : ∀ j k : Nat, (ids.set d.index (some next))[j]? = some (some k) → k < next + 1 := by
      intro j k hk
      rw [Array.getElem?_set] at hk
      split_ifs at hk with hj
      · cases hk
        omega
      · have := hids j k hk
        omega
    obtain ⟨hle, hall⟩ := ih h hset
    exact ⟨by omega, hall⟩

/-- An id that is handed out may be replaced, but is not taken back. -/
theorem number_covers (h : number ids next body = .ok (ids', next')) {j : Nat}
    (hj : (∃ k, ids[j]? = some (some k)) ∨ ∃ id ∈ body, id.index = j) :
    ∃ k, ids'[j]? = some (some k) := by
  induction body generalizing ids next with
  | nil =>
    cases h
    rcases hj with hk | ⟨id, hid, -⟩
    · exact hk
    · cases hid
  | cons d body ih =>
    rw [number] at h
    split_ifs at h with hlt
    refine ih h ?_
    by_cases hd : d.index = j
    · exact .inl ⟨next, by rw [← hd]; simp⟩
    · rw [Array.getElem?_set_ne hlt hd]
      rcases hj with hk | ⟨id, hid, rfl⟩
      · exact .inl hk
      · rcases List.mem_cons.mp hid with rfl | hid
        · exact absurd rfl hd
        · exact .inr ⟨id, hid, rfl⟩

theorem covers_of_assign {n : Numbering} {m : Module} (h : assign m body = .ok n) :
    n.Covers body := by
  simp only [assign, bind_eq_ok, pure_eq_ok] at h
  obtain ⟨⟨ids, next⟩, hnumber, next', hnext, rfl⟩ := h
  obtain ⟨hle, hlt⟩ := number_lt hnumber fun j k hk => by simp [Array.getElem?_replicate] at hk
  have hword : next < UInt32.size := by
    rw [Fault.checkWord] at hnext
    split_ifs at hnext with hfits
    exact hfits
  have hid : ∀ {id : InstrId} {k : Nat}, ids[id.index]?.join = some k →
      ids[id.index]? = some (some k) := fun h => Option.join_eq_some_iff.mp h
  refine ⟨fun hk => ?_, fun hk => ?_, fun hk => ?_, fun id hmem => ?_⟩
  · rw [importId] at hk
    split_ifs at hk
    cases hk
    dsimp only at *
    omega
  · rw [entryId] at hk
    split_ifs at hk
    cases hk
    dsimp only at *
    omega
  · exact (hlt _ _ (hid hk)).trans hword
  · obtain ⟨k, hk⟩ := number_covers hnumber (.inr ⟨id, hmem, rfl⟩)
    exact ⟨k, by simp [instrId?, hk]⟩

end Numbering

/-! ### The listing of a shader -/

namespace Shader

variable {s : Shader} {n : Numbering} {l : Listing}

/-- The lines of a shader that is written show it. -/
theorem sections_of_listingWith (h : s.listingWith n = .ok l) (hn : n.Covers s.body.toList) :
    l.header = s.header ∧ ∃ p : s.Sections n, l.lines = p.lines := by
  simp only [listingWith, bind_eq_ok, pure_eq_ok] at h
  obtain ⟨imports, himports, entry, hentry, annotations, hannotations, entries, hentries, stream,
    hstream, rfl⟩ := h
  let p : s.Sections n :=
    { entry, imports, annotations, entries, stream
      entry_eq := Emission.valueId_instr_eq_ok.mp hentry
      imports_show := Emission.forall₂_of_mapM himports fun p _ line hline => by
        simp only [Emission.importLine, bind_eq_ok, Emission.checked_eq_ok, pure_eq_ok] at hline
        obtain ⟨k, hk, rfl⟩ := hline
        exact ⟨k, hk, rfl⟩
      annotations_show := Emission.forall₂_of_mapM hannotations fun _ _ _ =>
        Emission.annotationLine_shows
      entries_show := Emission.forall₂_of_mapM hentries fun _ _ _ => Emission.entryLine_shows
      stream_shows := Emission.forall₂_of_mapM hstream fun id hid line hline => by
        obtain ⟨k, hk⟩ := hn.stream id hid
        obtain ⟨i, hi, hline⟩ := Emission.instrLine_shows hk hline
        exact ⟨i, k, hi, hk, hline⟩ }
  refine ⟨rfl, p, ?_⟩
  simp [Sections.lines, p, entryLines]

end Shader

/-! ### Lines by their opcodes -/

/-- The opcodes of lines that stand for neither imports nor entries nor instructions. -/
def Line.otherOpcodes : List String :=
  ["OpCapability", "OpMemoryModel", "OpEntryPoint", "OpExecutionMode", "OpDecorate",
    "OpMemberDecorate"]

namespace Shader.Sections

variable {s : Shader} {n : Numbering} (p : s.Sections n)

theorem opcode_imports : ∀ line ∈ p.imports, line.opcode = "OpExtInstImport" := by
  intro line hline
  obtain ⟨_, -, _, -, rfl⟩ := forall₂_exists_of_mem p.imports_show hline
  rfl

theorem opcode_annotations : ∀ line ∈ p.annotations, line.opcode ∈ Line.otherOpcodes := by
  intro line hline
  obtain ⟨a, -, hshows⟩ := forall₂_exists_of_mem p.annotations_show hline
  rw [hshows.opcode]
  cases a <;> simp [Line.otherOpcodes, Annotation.mnemonic]

/-- Lines with other opcodes are those of imports, entries and instructions. -/
theorem filter_lines (keep : String → Bool) (h : ∀ opcode ∈ Line.otherOpcodes, ¬keep opcode) :
    p.lines.filter (fun line => keep line.opcode) =
      p.imports.filter (fun line => keep line.opcode) ++
        p.entries.filter (fun line => keep line.opcode) ++
          p.stream.filter (fun line => keep line.opcode) := by
  have hannotations : p.annotations.filter (fun line => keep line.opcode) = [] :=
    List.filter_eq_nil_iff.mpr fun line hline => h _ (p.opcode_annotations line hline)
  have hcapabilities : (s.capabilities.map fun c =>
      ({ opcode := "OpCapability", operands := [.plain c.name] } : Line)).filter
        (fun line => keep line.opcode) = [] := by
    refine List.filter_eq_nil_iff.mpr fun line hline => ?_
    obtain ⟨c, -, rfl⟩ := List.mem_map.mp hline
    exact h _ (by simp [Line.otherOpcodes])
  simp only [Line.otherOpcodes, List.forall_mem_cons, Bool.not_eq_true] at h
  simp [lines, hcapabilities, hannotations, h]

end Shader.Sections

/-! ### Lines that read back -/

theorem StorageClass.bare_name (s : StorageClass) : Bare s.name.toList := by
  cases s <;> decide

theorem ExtendedOp.bare_name (op : ExtendedOp) : Bare op.name.toList := by
  cases op <;> decide

theorem Capability.bare_name (c : Capability) : Bare c.name.toList := by
  cases c <;> decide

theorem Opcode.isOpcode_mnemonic (op : Opcode) : Listing.IsOpcode op.mnemonic := by
  cases op <;> decide +kernel

theorem Opcode.not_resultless {op : Opcode} (h : op.hasResult = true) :
    op.mnemonic ∉ Listing.resultless := by
  revert h
  cases op <;> decide +kernel

theorem Emission.hasResult_declaring (e : Entity) : (declaring e).hasResult = true := by
  rcases e with t | k | v
  · cases t <;> rfl
  · rcases k with ⟨ty, value⟩ | ⟨⟩ | ⟨⟩
    · cases value <;> rfl
    · rfl
    · rfl
  · rfl

/-- Integers are words, with or without a sign. -/
theorem Text.bare_int (v : Int) : Bare (toString v).toList := by
  cases v with
  | ofNat n => exact bare_digits n
  | negSucc n =>
    have hsign : (toString (Int.negSucc n)).toList = '-' :: digits (n + 1) := by
      simp [digits, toString, Int.repr]
    rw [hsign]
    exact (bare_digits _).minus

theorem Ty.legible_operands (t : Ty) : ∀ o ∈ t.operands, o.Legible := by
  have hentries : ∀ ids : List EntryId, ∀ o ∈ ids.map Operand.entry, o.Legible := by
    intro ids o ho
    obtain ⟨id, -, rfl⟩ := List.mem_map.mp ho
    trivial
  cases t with
  | struct members => exact hentries members
  | function result params => exact hentries (result :: params)
  | _ => simp [operands, Operand.Legible, Operand.entry]

theorem Decoration.legible_operands (d : Decoration) : ∀ o ∈ d.operands, o.Legible := by
  cases d <;> simp only [operands, List.forall_mem_cons] <;>
    simp [Operand.Legible] <;> decide

theorem Annotation.legible_operands (a : Annotation) : ∀ o ∈ a.operands, o.Legible := by
  cases a with
  | entry target d => exact List.forall_mem_cons.mpr ⟨trivial, d.legible_operands⟩
  | member target index d =>
    exact List.forall_mem_cons.mpr ⟨trivial, List.forall_mem_cons.mpr ⟨trivial, d.legible_operands⟩⟩

/-- Literals are words. -/
theorem Literal.bare_render (width : Nat) (v : Literal) : Bare (v.render width).toList := by
  cases v with
  | int v => exact bare_int v
  | uint n => exact bare_digits n
  | float word =>
    rw [render]
    split_ifs
    · exact Decimal.bare_display _
    · exact Decimal.bare_display _

theorem Entity.legible_operands (m : Module) (e : Entity) : ∀ o ∈ e.operands m, o.Legible := by
  cases e with
  | type t => exact t.legible_operands
  | var v => simp [Entity.operands, Operand.Legible, Operand.entry]
  | const k =>
    cases k with
    | bool | composite => simp [Entity.operands, Operand.Legible, Operand.entry]
    | scalar ty value =>
      exact List.forall_mem_cons.mpr ⟨trivial, List.forall_mem_singleton.mpr (value.bare_render _)⟩

theorem Instr.legible_words {i : Instr} (h : ∀ o ∈ i.operands, o.Legible) :
    ∀ o ∈ i.words, o.Legible := by
  refine List.forall_mem_append.mpr ⟨?_, h⟩
  split_ifs
  · simp [Operand.Legible, Operand.entry]
  · simp

section Canonical

variable {n : Numbering} {body : List InstrId} (hn : n.Covers body)
include hn

theorem Numbering.Resolves.canonical {o : Operand} {w : Word} (h : n.Resolves o w)
    (ho : o.Legible) : w.Canonical := by
  cases h with
  | entry h => exact hn.entries h
  | instr h => exact hn.instrs h
  | importSet h => exact hn.imports h
  | literal k => exact bare_digits k
  | storage s => exact s.bare_name
  | keyword word => exact ho
  | extended op => exact op.bare_name

theorem Line.Shows.canonical {line : Line} {result : Option Nat} {opcode : String}
    {os : List Operand} (h : line.Shows n result opcode os) (hopcode : Listing.IsOpcode opcode)
    (hresult : ∀ k ∈ result, k < UInt32.size ∧ opcode ∉ Listing.resultless)
    (hos : ∀ o ∈ os, o.Legible) : line.Canonical where
  result := by rw [h.result, h.opcode]; exact hresult
  opcode := by rw [h.opcode]; exact hopcode
  operands w hw := by
    obtain ⟨o, ho, hresolves⟩ := forall₂_exists_of_mem h.operands hw
    exact hresolves.canonical hn (hos o ho)

end Canonical

/-- The lines that show a shader read back. -/
theorem Shader.Sections.canonical {s : Shader} {n : Numbering} (p : s.Sections n)
    (hn : n.Covers s.body.toList) (hs : s.Readable) : ∀ line ∈ p.lines, line.Canonical := by
  have hentry : p.entry < UInt32.size := hn.instrs p.entry_eq
  intro line hline
  simp only [Sections.lines, List.mem_append, List.mem_cons, List.mem_map] at hline
  rcases hline with (((⟨c, -, rfl⟩ | himport) | rfl | rfl | rfl | hannotation) | hdeclared) | hstream
  · refine Line.canonical_of_none (by decide) fun w hw => ?_
    obtain rfl := List.mem_singleton.mp hw
    exact c.bare_name
  · obtain ⟨⟨name, i⟩, hname, k, hk, rfl⟩ := forall₂_exists_of_mem p.imports_show himport
    have hmem : name ∈ s.code.imports := by
      rw [List.mem_zipIdx_iff_getElem?] at hname
      exact Array.mem_toList_iff.mp (List.mem_of_getElem? hname)
    refine ⟨?_, show Listing.IsOpcode "OpExtInstImport" by decide, fun w hw => ?_⟩
    · rintro _ ⟨⟩
      exact ⟨hn.imports hk, show "OpExtInstImport" ∉ Listing.resultless by decide⟩
    · obtain rfl := List.mem_singleton.mp hw
      exact hs.imports name hmem
  · exact Line.canonical_of_none (by decide) (by decide)
  · refine Line.canonical_of_none (by decide) ?_
    simp only [List.forall_mem_cons]
    exact ⟨by decide, hentry, by decide, by simp⟩
  · refine Line.canonical_of_none (by decide) ?_
    simp only [List.forall_mem_cons]
    exact ⟨hentry, by decide, by decide, by decide, by decide, by simp⟩
  · obtain ⟨a, -, hshows⟩ := forall₂_exists_of_mem p.annotations_show hannotation
    have hopcode : Listing.IsOpcode a.mnemonic := by
      cases a with
      | entry => exact (show Listing.IsOpcode "OpDecorate" by decide)
      | member => exact (show Listing.IsOpcode "OpMemberDecorate" by decide)
    exact hshows.canonical hn hopcode (by rintro k ⟨⟩) a.legible_operands
  · obtain ⟨⟨e, i⟩, -, k, hk, hshows⟩ := forall₂_exists_of_mem p.entries_show hdeclared
    refine hshows.canonical hn (Opcode.isOpcode_mnemonic _) ?_ (e.legible_operands _)
    rintro _ ⟨⟩
    exact ⟨hn.entries hk, Opcode.not_resultless (Emission.hasResult_declaring e)⟩
  · obtain ⟨id, hid, i, k, hi, hk, hshows⟩ := forall₂_exists_of_mem p.stream_shows hstream
    refine hshows.canonical hn (Opcode.isOpcode_mnemonic _) ?_
      (Instr.legible_words (hs.keywords id (Array.mem_toList_iff.mp hid) i hi))
    rintro j hj
    split_ifs at hj with hresult
    · cases hj
      exact ⟨hn.instrs hk, Opcode.not_resultless hresult⟩
    · cases hj

/-- The comments in front of a shader read back. -/
theorem Shader.isComment_header (s : Shader) : ∀ comment ∈ s.header, Listing.IsComment comment := by
  have hbound : Listing.IsComment (" Bound: " ++ toString s.bound) := by
    have hdigits : (" Bound: " ++ toString s.bound).toList = " Bound: ".toList ++ digits s.bound := by
      simp [digits]
    have hbare := bare_digits s.bound
    refine ⟨?_, fun c hc => ?_⟩
    · rw [hdigits, List.mem_append, not_or]
      exact ⟨by decide, fun h => absurd (hbare.unbroken _ h) (by decide)⟩
    · rw [hdigits, List.getLast?_append_of_ne_nil _ hbare.ne_nil] at hc
      exact hbare.unbroken c (List.mem_of_getLast? hc)
  simp only [header, List.forall_mem_cons]
  exact ⟨by decide, by decide, by decide, hbound, by decide, by simp⟩

/-- The listing of a shader whose texts can stand in one is canonical. -/
theorem Shader.canonical_of_listingWith {s : Shader} {n : Numbering} {l : Listing}
    (hl : s.listingWith n = .ok l) (hn : n.Covers s.body.toList) (hs : s.Readable) :
    l.Canonical := by
  obtain ⟨hheader, p, hlines⟩ := sections_of_listingWith hl hn
  exact ⟨by rw [hheader]; exact isComment_header _, by rw [hlines]; exact p.canonical hn hs⟩

/-- The text of a shader with fresh ids reads back to a listing that is written as the
same text and whose lines show the shader. -/
theorem Shader.read_text {s₀ s : Shader} {t : String} (hids : s₀.assignIds = .ok s)
    (hs : s.Readable) (ht : s.text = .ok t) :
    ∃ n l, s.numbering = some n ∧ Listing.read t = .ok l ∧ l.render = t ∧
      ∃ p : s.Sections n, l.lines = p.lines := by
  simp only [assignIds, bind_eq_ok, pure_eq_ok] at hids
  obtain ⟨n, hn, rfl⟩ := hids
  have hcovers := Numbering.covers_of_assign hn
  simp only [text, map_eq_ok] at ht
  obtain ⟨l, hl, rfl⟩ := ht
  obtain ⟨-, p, hlines⟩ := sections_of_listingWith hl hcovers
  have hcanonical := canonical_of_listingWith hl hcovers hs
  exact ⟨n, l, rfl, hcanonical.read, rfl, p, hlines⟩

/-- A shader that adds up a float and sets it aside, with a buffer nobody reads. -/
def Shader.sample : Shader where
  code :=
    { table := .ofList [.type .void, .type (.function ⟨0⟩ []), .type (.float 32),
        .const (.scalar ⟨2⟩ (.float 0x3FF8000000000000)), .type (.struct [⟨2⟩]),
        .type (.pointer .storageBuffer ⟨4⟩), .var ⟨⟨5⟩, .storageBuffer, none, 0⟩]
      instrs := #[⟨.function, some ⟨0⟩, [.keyword "None", .entry ⟨1⟩]⟩, ⟨.label, none, []⟩,
        ⟨.fAdd, some ⟨2⟩, [.entry ⟨3⟩, .entry ⟨3⟩]⟩,
        ⟨.extInst, some ⟨2⟩, [.importSet ⟨0⟩, .extended .sin, .instr ⟨2⟩]⟩, ⟨.ret, none, []⟩,
        ⟨.functionEnd, none, []⟩]
      annotations := #[.entry ⟨4⟩ .block, .member ⟨4⟩ 0 (.offset 0)]
      imports := #["GLSL.std.450"] }
  body := #[⟨0⟩, ⟨1⟩, ⟨2⟩, ⟨3⟩, ⟨4⟩, ⟨5⟩]
  entryPoint := ⟨0⟩

/-- The ids of the shader: one for the import, seven for the entries, and the rest. -/
def Shader.sampleIds : Numbering where
  imports := 1
  entries := 7
  instrs := #[some 9, some 10, some 11, some 12, some 13, some 14]
  next := 15

theorem Shader.assignIds_sample :
    sample.assignIds = .ok { sample with numbering := some sampleIds } := rfl

theorem Shader.sample_readable : sample.Readable where
  imports := by decide
  keywords := by decide

theorem Shader.read_text_sample : ∃ s t n l, sample.assignIds = .ok s ∧ s.Readable ∧
    s.text = .ok t ∧ s.numbering = some n ∧ Listing.read t = .ok l ∧ l.render = t ∧
      ∃ p : s.Sections n, l.lines = p.lines := by
  obtain ⟨t, ht⟩ : ∃ t, Shader.text { sample with numbering := some sampleIds } = .ok t :=
    ⟨_, rfl⟩
  have hreadable : Readable { sample with numbering := some sampleIds } :=
    ⟨sample_readable.imports, sample_readable.keywords⟩
  obtain ⟨n, l, h⟩ := read_text assignIds_sample hreadable ht
  exact ⟨_, t, n, l, assignIds_sample, hreadable, ht, h⟩

end ShaderGen
