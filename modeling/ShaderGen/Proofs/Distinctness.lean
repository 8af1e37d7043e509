import ShaderGen.Proofs.BufferLayout
import ShaderGen.Proofs.Literals

/-!
Declarations that differ in the text. The table holds no type and no constant twice,
and what a declaration says behind its id determines the entry: the ids in it stand
for single entries, and the text of a literal stands for one literal of its type. So
no two declarations of a shader say the same.
-/

namespace ShaderGen

/-! ### What a line says -/

/-- What a line says without the id it binds: its opcode and its operands as they are
written. -/
def Line.content (line : Line) : String × List String :=
  (line.opcode, line.operands.map Word.render)

/-- Whether an opcode declares a type or a constant, told by its name. -/
def Line.declares (opcode : String) : Bool :=
  "OpType".toList.isPrefixOf opcode.toList || "OpConstant".toList.isPrefixOf opcode.toList

/-- The lines that declare types and constants. -/
def Listing.declarations (l : Listing) : List Line :=
  l.lines.filter fun line => Line.declares line.opcode

/-- Types and constants that differ are declared differently: each of them has a line in the
listing, no two lines of declarations have one opcode and the same operands, and the line of
an entry tells its slot. -/
structure Shader.Distinct (s : Shader) (n : Numbering) (l : Listing) : Prop where
  declared : ∀ {id : EntryId} {e : Entity}, s.code.table.get? id = some e →
    ∃ line ∈ l.lines, Emission.entryLine s.code n id e = .ok line
  lines : (l.declarations.map Line.content).Nodup
  entries : ∀ {id id' : EntryId} {e e' : Entity} {line line' : Line},
    s.code.table.get? id = some e → s.code.table.get? id' = some e' →
    Emission.entryLine s.code n id e = .ok line → Emission.entryLine s.code n id' e' = .ok line' →
    Line.declares line.opcode → line.content = line'.content → id = id'

/-- The opcodes that declare types and constants. -/
def Opcode.declarations : List Opcode :=
  [.typeVoid, .typeBool, .typeInt, .typeFloat, .typeVector, .typeMatrix, .typeArray, .typeStruct,
    .typePointer, .typeFunction, .constantTrue, .constantFalse, .constant, .constantComposite]

theorem Opcode.mem_declarations {op : Opcode} (h : op.isDeclaration = true) :
    op ∈ declarations := by
  revert h
  cases op <;> decide

theorem Opcode.mnemonic_injective {op op' : Opcode} (h : op.isDeclaration = true)
    (h' : op'.isDeclaration = true) (heq : op.mnemonic = op'.mnemonic) : op = op' := by
  have hall : ∀ op ∈ declarations, ∀ op' ∈ declarations, op.mnemonic = op'.mnemonic → op = op' := by
    decide +kernel
  exact hall op (mem_declarations h) op' (mem_declarations h') heq

theorem Opcode.declares_mnemonic (op : Opcode) : Line.declares op.mnemonic = op.isDeclaration := by
  cases op <;> decide +kernel

/-- No instruction of a stream declares a type or a constant. -/
theorem Module.Typed.not_isDeclaration {m : Module} {i : Instr} (h : m.Typed i) :
    i.opcode.isDeclaration = false := by
  cases h with
  | apply _ h => exact h.not_isDeclaration
  | _ => rfl

/-- How an operand is written. -/
def Numbering.text (n : Numbering) : Operand → String
  | .value (.entry id) => "%" ++ toString (n.entryNumber id)
  | .value (.instr id) => "%" ++ toString ((n.instrId? id).getD 0)
  | .literal k => toString k
  | .storage s => s.name
  | .keyword word => word
  | .importSet set => "%" ++ toString (set.index + 1)
  | .extended op => op.name

namespace Numbering

variable {n : Numbering}

theorem Resolves.render {o : Operand} {w : Word} (h : n.Resolves o w) : w.render = n.text o := by
  cases h with
  | entry hk =>
    rw [Emission.eq_entryNumber (.entry hk)]
    rfl
  | instr hk => simp [Word.render, text, Operand.instr, hk]
  | importSet hk =>
    rw [importId] at hk
    split_ifs at hk
    cases hk
    rfl
  | literal | storage | keyword | extended => rfl

theorem texts_of_resolves {os : List Operand} {ws : List Word} (h : List.Forall₂ n.Resolves os ws) :
    ws.map Word.render = os.map n.text := by
  induction h with
  | nil => rfl
  | cons h _ ih => rw [List.map_cons, List.map_cons, h.render, ih]

@[simp] theorem text_entry_inj {id id' : EntryId} :
    n.text (.entry id) = n.text (.entry id') ↔ id = id' := by
  refine ⟨fun h => ?_, fun h => h ▸ rfl⟩
  exact Emission.entryNumber_inj.mp
    (Text.toString_nat_injective ((String.append_right_inj "%").mp h))

@[simp] theorem text_entries_inj {ids ids' : List EntryId} :
    ids.map (n.text ∘ Operand.entry) = ids'.map (n.text ∘ Operand.entry) ↔ ids = ids' :=
  List.map_inj_right fun _ _ => text_entry_inj.mp

@[simp] theorem text_literal_inj {k k' : Nat} :
    n.text (.literal k) = n.text (.literal k') ↔ k = k' :=
  ⟨Text.toString_nat_injective, fun h => h ▸ rfl⟩

@[simp] theorem text_storage_inj {s s' : StorageClass} :
    n.text (.storage s) = n.text (.storage s') ↔ s = s' := by
  cases s <;> cases s' <;> simp [text, StorageClass.name]

@[simp] theorem text_keyword_inj {word word' : String} :
    n.text (.keyword word) = n.text (.keyword word') ↔ word = word' := Iff.rfl

end Numbering

/-! ### Entries -/

section Entries

variable {n : Numbering}

/-- The opcode and the operands of a type determine it. -/
theorem Ty.eq_of_texts {t t' : Ty} (hop : t.opcode = t'.opcode)
    (h : t.operands.map n.text = t'.operands.map n.text) : t = t' := by
  -- only types of one kind have one opcode
  cases t <;> cases t' <;> cases hop
  case int.int width signed width' signed' =>
    cases signed <;> cases signed' <;> simp_all [operands]
  all_goals simp_all [operands]

variable {m : Module}

/-- The text of a literal determines it, if the constant keeps its rules. -/
theorem Const.literal_eq_of_render {ty : EntryId} {v v' : Literal}
    (h : (Const.scalar ty v).WellFormed m.table) (h' : (Const.scalar ty v').WellFormed m.table)
    (heq : v.render (m.literalWidth ty) = v'.render (m.literalWidth ty)) : v = v' := by
  have hwidth {t : Ty} {width : Nat} (ht : m.table.IsType ty t) (hw : t.scalarWidth? = some width) :
      m.literalWidth ty = width := by
    rw [Module.literalWidth, show m.table.get? ty = some (.type t) from ht]
    simp [Entity.type?, hw]
  rcases h with ⟨width, signed, hty, hfits⟩ | ⟨width, hty, hshown⟩
  · rw [hwidth hty rfl] at heq
    rcases h' with ⟨width', signed', hty', hfits'⟩ | ⟨width', hty', -⟩
    · cases hty.unique hty'
      exact hfits.render_injective hfits' heq
    · cases hty.unique hty'
  · rw [hwidth hty rfl] at heq
    rcases h' with ⟨width', signed', hty', -⟩ | ⟨width', hty', hshown'⟩
    · cases hty.unique hty'
    · cases hty.unique hty'
      exact hshown.render_injective hshown' heq

/-- The opcode and the operands of a constant determine it. -/
theorem Const.eq_of_texts {k k' : Const} (hk : k.WellFormed m.table) (hk' : k'.WellFormed m.table)
    (hop : k.opcode = k'.opcode)
    (h : ((Entity.const k).operands m).map n.text = ((Entity.const k').operands m).map n.text) :
    k = k' := by
  cases k with
  | bool ty value =>
    cases k' with
    | bool ty' value' =>
      cases value <;> cases value' <;> simp_all [opcode, Entity.operands]
    | scalar | composite => cases value <;> cases hop
  | scalar ty v =>
    cases k' with
    | bool _ value' => cases value' <;> cases hop
    | scalar ty' v' =>
      simp only [Entity.operands, List.map_cons, List.map_nil, List.cons.injEq,
        Numbering.text_entry_inj, Numbering.text_keyword_inj, and_true] at h
      obtain ⟨rfl, hrender⟩ := h
      rw [Const.literal_eq_of_render hk hk' hrender]
    | composite => cases hop
  | composite ty parts =>
    cases k' with
    | bool _ value' => cases value' <;> cases hop
    | scalar => cases hop
    | composite ty' parts' => simp_all [Entity.operands]

theorem Ty.family_opcode (t : Ty) : t.opcode.family = .type := by
  cases t <;> rfl

theorem Const.family_opcode (k : Const) : k.opcode.family = .constant := by
  rcases k with ⟨_, _ | _⟩ | _ | _ <;> rfl

/-- What a declaration says determines the type or the constant. -/
theorem Entity.eq_of_texts {c : Config} {e e' : Entity} (he : e.WellFormed c m.table)
    (he' : e'.WellFormed c m.table) (hdeclares : (Emission.declaring e).isDeclaration = true)
    (hop : Emission.declaring e = Emission.declaring e')
    (h : (e.operands m).map n.text = (e'.operands m).map n.text) : e = e' := by
  have hfamily := congrArg Opcode.family hop
  cases e with
  | type t =>
    cases e' with
    | type t' => exact congrArg _ (Ty.eq_of_texts hop h)
    | const k' =>
      exact absurd (t.family_opcode.symm.trans (hfamily.trans k'.family_opcode)) (by decide)
    | var => exact nomatch (t.family_opcode.symm.trans hfamily : Family.type = .memory)
  | const k =>
    cases e' with
    | type t' =>
      exact absurd (k.family_opcode.symm.trans (hfamily.trans t'.family_opcode)) (by decide)
    | const k' => exact congrArg _ (Const.eq_of_texts he he' hop h)
    | var => exact nomatch (k.family_opcode.symm.trans hfamily : Family.constant = .memory)
  | var => cases hdeclares

end Entries

/-! ### Listings -/

variable {c : Config} {s : Shader} {n : Numbering} {l : Listing}

theorem Line.Shows.content {line : Line} {result : Option Nat} {opcode : String}
    {operands : List Operand} (h : line.Shows n result opcode operands) :
    line.content = (opcode, operands.map n.text) := by
  rw [Line.content, h.opcode, Numbering.texts_of_resolves h.operands]

section WellFormed

variable (hwf : s.code.table.WellFormed c)
include hwf

/-- Entries that are declared alike are in one slot. -/
theorem Shader.id_eq_of_content {id id' : EntryId} {e e' : Entity} {line line' : Line}
    {result result' : Option Nat} (he : s.code.table.get? id = some e)
    (he' : s.code.table.get? id' = some e')
    (hline : line.Shows n result (Emission.declaring e).mnemonic (e.operands s.code))
    (hline' : line'.Shows n result' (Emission.declaring e').mnemonic (e'.operands s.code))
    (hdeclares : Line.declares line.opcode) (heq : line.content = line'.content) : id = id' := by
  have hopcode : line.opcode = line'.opcode := congrArg Prod.fst heq
  rw [hline.content, hline'.content, Prod.mk.injEq] at heq
  have hdeclares' : Line.declares line'.opcode := hopcode ▸ hdeclares
  rw [hline.opcode, Opcode.declares_mnemonic] at hdeclares
  rw [hline'.opcode, Opcode.declares_mnemonic] at hdeclares'
  obtain rfl := Entity.eq_of_texts (hwf.entry he) (hwf.entry he') hdeclares
    (Opcode.mnemonic_injective hdeclares hdeclares' heq.1) heq.2
  exact Option.some.inj ((Table.find?_eq_some_iff.mpr he).symm.trans
    (Table.find?_eq_some_iff.mpr he'))

/-- No two lines of declarations say the same. -/
theorem Shader.Sections.declarations_nodup (p : s.Sections n)
    (htyped : ∀ {k : Nat} {i : Instr}, s.code.instrs[k]? = some i → s.code.Typed i) :
    ((p.lines.filter fun line => Line.declares line.opcode).map Line.content).Nodup := by
  have himports : p.imports.filter (fun line => Line.declares line.opcode) = [] :=
    List.filter_eq_nil_iff.mpr fun line hline => by
      rw [p.opcode_imports line hline]
      decide
  have hstream : p.stream.filter (fun line => Line.declares line.opcode) = [] :=
    List.filter_eq_nil_iff.mpr fun line hline => by
      obtain ⟨_, -, i, _, hi, -, hshows⟩ := forall₂_exists_of_mem p.stream_shows hline
      simp [hshows.opcode, Opcode.declares_mnemonic, (htyped hi).not_isDeclaration]
  rw [p.filter_lines Line.declares (by decide), himports, hstream, List.nil_append,
    List.append_nil, List.Nodup, List.pairwise_map, List.pairwise_filter]
  refine List.pairwise_iff_getElem.mpr fun i j hi hj hlt hdeclares _ heq => ?_
  obtain ⟨hlength, hshows⟩ := List.forall₂_iff_get.mp p.entries_show
  obtain ⟨_, -, hline⟩ := hshows i (by omega) hi
  obtain ⟨_, -, hline'⟩ := hshows j (by omega) hj
  have hat (k : Nat) (hk : k < s.code.table.entries.toList.zipIdx.length) :
      s.code.table.get? ⟨k⟩ = some (s.code.table.entries.toList.zipIdx.get ⟨k, hk⟩).1 := by
    simp [Table.get?]
  have hid := Shader.id_eq_of_content hwf (hat i (by omega)) (hat j (by omega)) hline hline'
    hdeclares heq
  cases hid
  omega

end WellFormed

/-- Each entry has its line. -/
theorem Shader.declared_of_listingWith (h : s.listingWith n = .ok l) {id : EntryId} {e : Entity}
    (he : s.code.table.get? id = some e) :
    ∃ line ∈ l.lines, Emission.entryLine s.code n id e = .ok line := by
  simp only [listingWith, bind_eq_ok, pure_eq_ok] at h
  obtain ⟨imports, -, entry, -, annotations, -, entries, hentries, stream, -, rfl⟩ := h
  have hmem : (e, id.index) ∈ s.code.table.entries.toList.zipIdx := by
    rw [List.mem_zipIdx_iff_getElem?, Array.getElem?_toList]
    exact he
  have hlines : List.Forall₂ (fun line (x : Entity × Nat) =>
      Emission.entryLine s.code n ⟨x.2⟩ x.1 = .ok line) entries
        s.code.table.entries.toList.zipIdx :=
    (Emission.forall₂_of_mapM hentries fun _ _ _ h => h).flip
  obtain ⟨line, hline, hwritten⟩ := forall₂_exists_of_mem hlines hmem
  exact ⟨line, by simp [hline], hwritten⟩

/-- The declarations of a generated shader all differ in the text, which reads back to its
listing. -/
theorem Config.distinct_of_shaderFrom {ρ : Type} [RandomSource ρ] [BoundedRandomSource ρ]
    {source : ρ} (h : c.shaderFrom source = .ok s) : ∃ n l, s.numbering = some n ∧
      s.listing = .ok l ∧ s.text = .ok l.render ∧ Listing.read l.render = .ok l ∧
      s.Distinct n l := by
  obtain ⟨_, n, l, hs, hnumbering, hcovers, hlisting, hwritten, htext, hread⟩ :=
    listing_of_shaderFrom h
  obtain ⟨-, p, hlines⟩ := Shader.sections_of_listingWith hwritten hcovers
  refine ⟨n, l, hnumbering, hlisting, htext, hread, ?_, ?_, ?_⟩
  · exact fun he => Shader.declared_of_listingWith hwritten he
  · rw [Listing.declarations, hlines]
    exact p.declarations_nodup hs.table hs.typed
  · intro id id' e e' line line' he he' hline hline' hdeclares heq
    obtain ⟨_, -, hshows⟩ := Emission.entryLine_shows hline
    obtain ⟨_, -, hshows'⟩ := Emission.entryLine_shows hline'
    exact Shader.id_eq_of_content hs.table he he' hshows hshows' hdeclares heq

/-- A configuration of small shaders with numbers of several kinds. -/
def Config.mixed : Config :=
  { small with maxTypes := 8, maxConstants := 7, capabilities := [.int8, .float16, .float64] }

/-- The choices of a shader that declares one signed and one unsigned, two floats of half
precision and nested composites of one of them. -/
def Script.mixed : Script :=
  ⟨[5, 2, 0, 0, 1, 1, 1, 4, 0, 0, 2, 0, 0, 1, 0, 124, 0, 2, 1, 1, 1, 0, 1, 0, 1, 2, 1, 0, 1, 0,
    1, 0, 1, 0, 1, 0, 1, 2, 1, 0, 1, 0, 1, 0, 1, 0, 1, 0, 1, 0, 1, 1, 1, 0, 1, 0, 0, 1, 1, 1]⟩

/-- The values of the scalar constants of a shader. -/
def Shader.literals (s : Shader) : List Literal :=
  s.code.table.constants.filterMap fun
    | (_, .scalar _ value) => some value
    | _ => none

theorem Config.mixed_shaderFrom : ∃ s, mixed.shaderFrom Script.mixed = .ok s ∧
    s.literals = [.uint 1, .float 0xC06C180000000000, .int 1, .float 0xC06FF80000000000] := by
  have h : (Shader.literals <$> mixed.shaderFrom Script.mixed).toOption =
      some [.uint 1, .float 0xC06C180000000000, .int 1, .float 0xC06FF80000000000] := by
    decide +kernel
  exact map_eq_ok.mp (toOption_eq_some.mp h)

/-- One signed and one unsigned are told apart, and so are two floats. -/
theorem Config.distinct_mixed : ∃ s, mixed.shaderFrom Script.mixed = .ok s ∧
    s.literals = [.uint 1, .float 0xC06C180000000000, .int 1, .float 0xC06FF80000000000] ∧
      ∃ n l, s.numbering = some n ∧ s.listing = .ok l ∧ s.text = .ok l.render ∧
        Listing.read l.render = .ok l ∧ s.Distinct n l := by
  obtain ⟨s, hs, hliterals⟩ := mixed_shaderFrom
  exact ⟨s, hs, hliterals, distinct_of_shaderFrom hs⟩

end ShaderGen
