import ShaderGen.Proofs.Binding
import ShaderGen.Proofs.Buffering

/-!
What surroundings are told of storage buffers. The places of members are computed when a
block is decorated, and read back from the annotations when the buffers of a shader are
described. Both agree with the layout and with the listing, however many buffers share the
block.
-/

namespace ShaderGen

/-! ### Reading annotations -/

namespace Buffer

variable {m : Module}

/-- Only what is about an entry is read for it. -/
theorem lastOf_eq {value? : Annotation → Option Nat} (id : EntryId)
    (h : ∀ a, a.target ≠ id → value? a = none) (default : Nat) :
    lastOf m.annotations value? default =
      (m.about id).foldl (fun current a => (value? a).getD current) default := by
  rw [lastOf, ← Array.foldl_toList, Module.about, List.foldl_filter]
  congr 1
  funext current a
  by_cases ha : a.target = id
  · simp [ha]
  · simp [ha, h a ha]

theorem setOf_eq {id : EntryId} {binding : Nat}
    (h : m.about id = BufferDecl.bufferNotes id binding) : setOf m id = 0 := by
  rw [setOf, lastOf_eq id, h]
  · simp [BufferDecl.bufferNotes]
  · rintro (⟨target, _ | set | k | offset⟩ | _) ha
    all_goals simp_all

theorem bindingOf_eq {id : EntryId} {binding : Nat}
    (h : m.about id = BufferDecl.bufferNotes id binding) : bindingOf m id = binding := by
  rw [bindingOf, lastOf_eq id, h]
  · simp [BufferDecl.bufferNotes]
  · rintro (⟨target, _ | set | k | offset⟩ | _) ha
    all_goals simp_all

/-- What is given for a place is read for it. -/
theorem foldl_zipIdx (offsets : List Nat) (first i current : Nat) :
    (offsets.zipIdx first).foldl
        (fun current x => (if x.2 = i then some x.1 else none).getD current) current =
      if first ≤ i then offsets.getD (i - first) current else current := by
  induction offsets generalizing first current with
  | nil => simp
  | cons offset offsets ih =>
    rw [List.zipIdx_cons, List.foldl_cons, ih]
    dsimp only
    rcases Nat.lt_trichotomy first i with hlt | rfl | hgt
    · have hindex : i - first = i - (first + 1) + 1 := by omega
      rw [if_neg hlt.ne, if_pos (Nat.succ_le_of_lt hlt), if_pos hlt.le, hindex, List.getD_cons_succ]
      rfl
    · rw [if_neg (Nat.not_succ_le_self first), if_pos rfl, if_pos (Nat.le_refl _), Nat.sub_self,
        List.getD_cons_zero]
      rfl
    · rw [if_neg (by omega), if_neg hgt.ne', if_neg (by omega)]
      rfl

theorem offsetOf_eq {block : EntryId} {offsets : List Nat}
    (h : m.about block = BufferDecl.blockNotes block offsets) (i : Nat) :
    offsetOf m block i = offsets.getD i 0 := by
  rw [offsetOf, lastOf_eq block, h, BufferDecl.blockNotes, List.foldl_cons, List.foldl_map]
  · simpa using foldl_zipIdx offsets 0 i 0
  · rintro (_ | ⟨target, index, _ | set | k | offset⟩) ha
    all_goals simp_all

/-! ### Describing a buffer -/

/-- What is told of a buffer is true of the block that it holds. Its members are those of
the struct and stand where the layout says, and its size is the first multiple of their
greatest alignment behind the last of them. -/
structure Describes (m : Module) (block : EntryId) (b : Buffer) : Prop where
  few : 1 ≤ b.members.length ∧ b.members.length ≤ 4
  members : ∃ types, m.table.IsType block (.struct types) ∧
    List.Forall₂ (fun ty x => x.Holds m.table ty ∧
      Layout.extent? m ty = .ok (some x.extent)) types b.members ∧
    Layout.offsets? m types = .ok (some (b.members.map (·.offset)))
  disjoint : b.members.Pairwise fun x y => Disjoint x.bytes y.bytes
  size : ∃ last align, b.members.getLast? = some last ∧
    IsGreatest {a | ∃ x ∈ b.members, x.extent.align = a} align ∧
    IsLeast {k | align ∣ k ∧ last.stop ≤ k} b.size

/-- A buffer is described as it is declared, with its place for a binding. -/
structure Shows (m : Module) (d : BufferDecl) (place : Nat) (b : Buffer) : Prop where
  descriptorSet : b.descriptorSet = 0
  binding : b.binding = place
  members : b.members = d.members
  describes : b.Describes m d.block

theorem placed_eq {block : EntryId} {types : List EntryId} {offsets : List Nat}
    (hlength : types.length = offsets.length)
    (h : m.about block = BufferDecl.blockNotes block offsets) :
    types.zipIdx.map (fun (ty, i) => (ty, offsetOf m block i)) = types.zip offsets := by
  refine List.ext_getElem (by simp [hlength]) fun i hi _ => ?_
  have hlt : i < offsets.length := by simpa [hlength] using hi
  simp [offsetOf_eq h, hlt]

/-- One more number may be the greatest. -/
theorem isGreatest_cons {α : Type} {f : α → Nat} {x : α} {xs : List α} {n greatest : Nat}
    (h : IsGreatest {k | k = max n (f x) ∨ ∃ y ∈ xs, f y = k} greatest) :
    IsGreatest {k | k = n ∨ ∃ y ∈ x :: xs, f y = k} greatest := by
  obtain ⟨hmem, hupper⟩ := h
  have hmax := hupper (.inl rfl)
  refine ⟨?_, ?_⟩
  · rcases hmem with rfl | ⟨y, hy, rfl⟩
    · rcases max_choice n (f x) with hn | hx
      · exact .inl hn
      · exact .inr ⟨x, List.mem_cons_self, hx.symm⟩
    · exact .inr ⟨y, List.mem_cons_of_mem _ hy, rfl⟩
  · rintro _ (rfl | ⟨y, hy, rfl⟩)
    · exact (le_max_left _ _).trans hmax
    · rcases List.mem_cons.mp hy with rfl | hy
      · exact (le_max_right _ _).trans hmax
      · exact hupper (.inr ⟨y, hy, rfl⟩)

section Members

variable {types : List EntryId} {members : List BufferMember}
  (hmembers : List.Forall₂ (fun ty b => b.Holds m.table ty) types members)
include hmembers

theorem members?_eq : members? m (types.zip (members.map (·.offset))) = .ok (some members) := by
  induction hmembers with
  | nil => rfl
  | @cons ty b types members hb _ ih =>
    obtain ⟨hwidth, hwords⟩ := hb
    obtain ⟨scalar, hlanes, hscalar⟩ := hwords.lanes
    have hty : m.baseTy ty = .ok (b.kind.ty 32) :=
      Module.baseTy_eq_ok.mpr ⟨scalar, Module.baseType_of_lanes hlanes, hscalar⟩
    have hmember : member? m ty b.offset = .ok (some b) := by
      simp only [member?, hty, NumberKind.number?_ty, Module.componentCount_of_lanes hlanes, bind,
        Except.bind, pure, Except.pure, ← hwidth]
    simp only [List.map_cons, List.zip_cons_cons, members?, hmember, ih]
    rfl

/-- What is reserved reaches to where the last members ends, with the greatest alignment. -/
theorem extent_answers (hfit : ∀ b ∈ members, b.stop < 2 ^ 32) (stop align : Nat) :
    ∃ stop' align', extent m (types.zip (members.map (·.offset))) stop align = .ok (stop', align') ∧
      IsGreatest {k | k = stop ∨ ∃ b ∈ members, b.stop = k} stop' ∧
      IsGreatest {a | a = align ∨ ∃ b ∈ members, b.extent.align = a} align' := by
  induction hmembers generalizing stop align with
  | nil => exact ⟨stop, align, rfl, by simp [IsGreatest], by simp [IsGreatest]⟩
  | @cons ty b types members hb _ ih =>
    obtain ⟨stop', align', hrest, hstop, halign⟩ :=
      ih (fun x hx => hfit x (List.mem_cons_of_mem _ hx)) (max stop b.stop)
        (max align b.extent.align)
    have hword : Fault.checkWord 32 (b.offset + b.extent.size) = .ok b.stop :=
      Fault.checkWord_eq_ok.mpr ⟨hfit b List.mem_cons_self, rfl⟩
    refine ⟨stop', align', ?_, isGreatest_cons hstop, isGreatest_cons halign⟩
    simp only [List.map_cons, List.zip_cons_cons, extent, Layout.extent?_of_holds hb, hword, bind,
      Except.bind]
    exact hrest

/-- Members at their places need room up to the end of the last of them, and the greatest
alignment there is. -/
theorem room_answers (hplaces : Layout.Places 0 members) (hsome : members ≠ [])
    (hfew : members.length ≤ 4) :
    ∃ last align size, members.getLast? = some last ∧
      extent m (types.zip (members.map (·.offset))) 0 1 = .ok (last.stop, align) ∧
      IsGreatest {a | ∃ x ∈ members, x.extent.align = a} align ∧
      Layout.alignUp last.stop align = .ok size := by
  have hsmall : ∀ b ∈ members, b.extent.size ≤ 16 ∧ 1 ≤ b.extent.align ∧ b.extent.align ∣ 16 := by
    intro b hb
    obtain ⟨ty, -, hholds⟩ := forall₂_exists_of_mem hmembers hb
    exact hholds.small
  have hstops := hplaces.stop_le (k := 0) (Nat.le_refl _) fun b hb =>
    ⟨(hsmall b hb).1, (hsmall b hb).2.2⟩
  have hlast := List.getLast?_eq_some_getLast hsome
  have hmem := List.getLast_mem hsome
  generalize members.getLast hsome = last at hlast hmem
  obtain ⟨stop, align, hextent, hstop, halign⟩ := extent_answers hmembers
    (fun b hb => by have := hstops b hb; omega) 0 1
  obtain rfl : stop = last.stop := by
    refine le_antisymm ?_ (hstop.2 (.inr ⟨last, hmem, rfl⟩))
    rcases hstop.1 with rfl | ⟨b, hb, rfl⟩
    · exact Nat.zero_le _
    · exact hplaces.stop_le_last hlast b hb
  have hgreatest : IsGreatest {a | ∃ x ∈ members, x.extent.align = a} align := by
    refine ⟨?_, fun a ha => halign.2 (.inr ha)⟩
    rcases halign.1 with rfl | hsome
    · exact ⟨last, hmem, le_antisymm (halign.2 (.inr ⟨last, hmem, rfl⟩)) (hsmall last hmem).2.1⟩
    · exact hsome
  obtain ⟨size, hsize⟩ : ∃ size, Layout.alignUp last.stop align = .ok size := by
    obtain ⟨x, hx, rfl⟩ := hgreatest.1
    have hle := Nat.le_of_dvd (by decide) (hsmall x hx).2.2
    have := hstops last hmem
    exact Layout.alignUp_answers (hsmall x hx).2.1 (by omega)
  exact ⟨last, align, size, hlast, hextent, hgreatest, hsize⟩

end Members

/-- A buffer that is declared is described. -/
theorem of?_answers {d : BufferDecl} {binding : Nat} (hd : d.Sound m)
    (hblock : m.about d.block = BufferDecl.blockNotes d.block d.offsets)
    (hbuffer : m.about d.buffer = BufferDecl.bufferNotes d.buffer binding) :
    ∃ b, of? m d.buffer d.block = .ok (some b) ∧ b.Shows m d binding := by
  have hlength : d.types.length = d.members.length := hd.members.length_eq
  have hfew : 1 ≤ d.members.length ∧ d.members.length ≤ 4 := hlength ▸ hd.few
  have hplaces := Layout.places_of_offsetsFrom hd.members hd.offsets
  obtain ⟨last, align, size, hlast, hextent, halign, hsize⟩ :=
    room_answers hd.members hplaces (List.ne_nil_of_length_pos hfew.1) hfew.2
  have hplaced := placed_eq (hlength.trans (List.length_map (·.offset)).symm) hblock
  refine ⟨⟨0, binding, d.members, size⟩, ?_, rfl, rfl, rfl, ?_⟩
  · simp only [of?, Module.typeAt_eq_ok.mpr hd.struct, bind, Except.bind, pure, Except.pure,
      hplaced, members?_eq hd.members, hextent, hsize, setOf_eq hbuffer, bindingOf_eq hbuffer]
  · exact {
      few := hfew
      members := ⟨d.types, hd.struct,
        hd.members.imp fun _ _ hb => ⟨hb, Layout.extent?_of_holds hb⟩, hd.offsets⟩
      disjoint := hplaces.disjoint
      size := ⟨last, align, hlast, halign, Layout.alignUp_isLeast hsize⟩ }

end Buffer

namespace Module

variable {m : Module}

/-- The buffers of some variables are those of the storage buffers among them. -/
theorem buffersOf_answers {vars : List (EntryId × GlobalVar)} {buffers : List Buffer}
    (h : List.Forall₂ (fun x b => ∃ block, m.table.IsType x.2.ty (.pointer .storageBuffer block) ∧
      Buffer.of? m x.1 block = .ok (some b))
      (vars.filter fun x => x.2.storage = .storageBuffer) buffers) :
    m.buffersOf vars = .ok buffers := by
  induction vars generalizing buffers with
  | nil =>
    cases h
    rfl
  | cons x vars ih =>
    obtain ⟨id, v⟩ := x
    by_cases hstorage : v.storage = .storageBuffer
    · rw [List.filter_cons_of_pos (by simpa using hstorage)] at h
      cases h with
      | cons hb hrest =>
        obtain ⟨block, hty, hbuffer⟩ := hb
        have hpointee : m.pointee? v.ty = .ok (some (.storageBuffer, block)) := by
          simp only [pointee?, typeAt_eq_ok.mpr hty]
          rfl
        simp only [buffersOf, if_pos hstorage, hpointee, hbuffer, ih hrest, bind, Except.bind, pure,
          Except.pure]
        rfl
    · rw [List.filter_cons_of_neg (by simpa using hstorage)] at h
      simp only [buffersOf, if_neg hstorage, ih h, bind, Except.bind, pure, Except.pure]
      rfl

/-- Declared buffers are described in their order. -/
theorem Declares.describes {bs : List BufferDecl} (h : m.Declares bs) : ∃ buffers : List Buffer,
    m.buffersOf m.table.vars = .ok buffers ∧ buffers.length = bs.length ∧
      ∀ (i : Nat) (d : BufferDecl) (b : Buffer), bs[i]? = some d → buffers[i]? = some b →
        b.Shows m d i := by
  have hanswers : ∀ i : Fin bs.length, ∃ b, Buffer.of? m bs[i].buffer bs[i].block = .ok (some b) ∧
      b.Shows m bs[i] i := by
    intro i
    have hd := List.getElem_mem i.2
    exact Buffer.of?_answers (h.sound _ hd) (h.blocks _ hd)
      (h.buffers i _ (List.getElem?_eq_getElem i.2))
  choose described hdescribed using hanswers
  refine ⟨List.ofFn described, buffersOf_answers ?_, List.length_ofFn, fun i d b hd hb => ?_⟩
  · refine List.forall₂_iff_get.mpr
      ⟨h.vars.length_eq.trans List.length_ofFn.symm, fun i hi hi' => ?_⟩
    rw [List.length_ofFn] at hi'
    obtain ⟨hid, hty⟩ := h.vars.get hi hi'
    refine ⟨bs[i].block, hty, ?_⟩
    rw [List.get_ofFn]
    change Buffer.of? m (m.bufferVars.get ⟨i, hi⟩).1 _ = _
    rw [hid]
    exact (hdescribed ⟨i, hi'⟩).1
  · obtain ⟨hi, rfl⟩ := List.getElem?_eq_some_iff.mp hd
    rw [List.getElem?_ofFn, dif_pos hi] at hb
    obtain rfl := Option.some.inj hb
    exact (hdescribed ⟨i, hi⟩).2

end Module

/-- The buffers of a shader come in the order of their variables. -/
theorem Shader.buffers_answers {s : Shader} {bs : List BufferDecl} (h : s.code.Declares bs) :
    ∃ buffers : List Buffer, s.buffers = .ok buffers ∧ buffers.length = bs.length ∧
      ∀ (i : Nat) (d : BufferDecl) (b : Buffer), bs[i]? = some d → buffers[i]? = some b →
        b.Shows s.code d i := by
  obtain ⟨buffers, hbuffers, hlength, hshows⟩ := h.describes
  have hplaced (i : Nat) (hi : i < buffers.length) :
      buffers[i].descriptorSet = 0 ∧ buffers[i].binding = i := by
    have hb := hshows i _ _ (List.getElem?_eq_getElem (hlength ▸ hi)) (List.getElem?_eq_getElem hi)
    exact ⟨hb.descriptorSet, hb.binding⟩
  -- bindings count the variables, so the buffers are sorted already
  have hsorted : buffers.Pairwise fun a b => Buffer.before a b = true :=
    List.pairwise_iff_getElem.mpr fun i j hi hj hlt => by
      simp [Buffer.before, hplaced i hi, hplaced j hj, hlt.le]
  refine ⟨buffers, ?_, hlength, hshows⟩
  simp only [Shader.buffers, hbuffers, bind, Except.bind, pure, Except.pure,
    List.mergeSort_of_pairwise hsorted]

/-! ### Decorations of a listing -/

/-- Whether a line decorates what has the given id. -/
def Line.decorates (k : Nat) (line : Line) : Bool :=
  (line.opcode == "OpDecorate" || line.opcode == "OpMemberDecorate") &&
    line.operands.head? == some (.id k)

/-- The lines that decorate what has the given id. -/
def Listing.decorationsOf (l : Listing) (k : Nat) : List Line := l.lines.filter (Line.decorates k)

/-- The line of an annotation about what has the given id. -/
def Annotation.line (k : Nat) : Annotation → Line
  | entry _ d => { opcode := "OpDecorate", operands := .id k :: Emission.decorationWords d }
  | member _ i d =>
    { opcode := "OpMemberDecorate",
      operands := .id k :: Emission.numberWord i :: Emission.decorationWords d }

namespace Emission

variable {n : Numbering}

theorem entryNumber_inj {id id' : EntryId} : n.entryNumber id = n.entryNumber id' ↔ id = id' := by
  refine ⟨fun h => ?_, fun h => h ▸ rfl⟩
  obtain ⟨i⟩ := id
  obtain ⟨j⟩ := id'
  simp only [Numbering.entryNumber] at h
  exact congrArg EntryId.mk (by omega)

theorem eq_decorationWords {d : Decoration} {ws : List Word}
    (h : List.Forall₂ n.Resolves d.operands ws) : ws = decorationWords d := by
  cases d with
  | block =>
    cases h with
    | cons hw hnil =>
      cases hw
      cases hnil
      rfl
  | descriptorSet | binding | offset =>
    cases h with
    | cons hw hrest =>
      cases hrest with
      | cons hw' hnil =>
        cases hw
        cases hw'
        cases hnil
        rfl

theorem eq_entryNumber {id : EntryId} {w : Word} (h : n.Resolves (.entry id) w) :
    w = .id (n.entryNumber id) := by
  cases h with
  | entry hk =>
    rw [Numbering.entryId] at hk
    split_ifs at hk
    cases hk
    rfl

/-- A line that shows an annotation is the line of the annotation. -/
theorem eq_annotationLine {a : Annotation} {line : Line}
    (h : line.Shows n none a.mnemonic a.operands) : line = a.line (n.entryNumber a.target) := by
  obtain ⟨result, opcode, operands⟩ := line
  obtain ⟨hresult, hopcode, hoperands⟩ := h
  cases a with
  | entry target d =>
    cases hoperands with
    | cons hw hrest =>
      obtain rfl := eq_entryNumber hw
      obtain rfl := eq_decorationWords hrest
      cases hresult
      cases hopcode
      rfl
  | member target index d =>
    cases hoperands with
    | cons hw hrest =>
      cases hrest with
      | cons hw' hrest =>
        obtain rfl := eq_entryNumber hw
        obtain rfl := eq_decorationWords hrest
        cases hw'
        cases hresult
        cases hopcode
        rfl

theorem not_decoration (op : Opcode) :
    op.mnemonic ≠ "OpDecorate" ∧ op.mnemonic ≠ "OpMemberDecorate" := by
  cases op <;> decide

end Emission

theorem Line.decorates_line (a : Annotation) (k k' : Nat) :
    (a.line k').decorates k = true ↔ k' = k := by
  cases a <;> simp [decorates, Annotation.line]

/-- Lines with another opcode decorate nothing. -/
theorem Line.filter_decorates {lines : List Line} {k : Nat} (h : ∀ line ∈ lines,
      line.opcode ≠ "OpDecorate" ∧ line.opcode ≠ "OpMemberDecorate") :
    lines.filter (decorates k) = [] :=
  List.filter_eq_nil_iff.mpr fun line hline => by simp [decorates, h line hline]

/-- In the listing of a shader an entry is decorated with what is said of it. -/
theorem Shader.decorationsOf_eq {s : Shader} {n : Numbering} {l : Listing}
    (h : s.listingWith n = .ok l) (hn : n.Covers s.body.toList) (id : EntryId) :
    l.decorationsOf (n.entryNumber id) =
      (s.code.about id).map (·.line (n.entryNumber id)) := by
  obtain ⟨-, p, hlines⟩ := sections_of_listingWith h hn
  have hcapabilities : (s.capabilities.map fun c =>
      ({ opcode := "OpCapability", operands := [.plain c.name] } : Line)).filter
        (Line.decorates (n.entryNumber id)) = [] := Line.filter_decorates (by simp)
  have himports : p.imports.filter (Line.decorates (n.entryNumber id)) = [] :=
    Line.filter_decorates fun line hline => by
      obtain ⟨_, -, _, -, rfl⟩ := forall₂_exists_of_mem p.imports_show hline
      simp
  have hentries : p.entries.filter (Line.decorates (n.entryNumber id)) = [] :=
    Line.filter_decorates fun line hline => by
      obtain ⟨_, -, _, -, hshows⟩ := forall₂_exists_of_mem p.entries_show hline
      exact hshows.opcode ▸ Emission.not_decoration _
  have hstream : p.stream.filter (Line.decorates (n.entryNumber id)) = [] :=
    Line.filter_decorates fun line hline => by
      obtain ⟨_, -, _, _, -, -, hshows⟩ := forall₂_exists_of_mem p.stream_shows hline
      exact hshows.opcode ▸ Emission.not_decoration _
  have hannotations : p.annotations =
      s.code.annotations.toList.map fun a => a.line (n.entryNumber a.target) := by
    have hall := Emission.filterMap_of_forall₂ (g := some) <|
      p.annotations_show.imp fun _ _ h => congrArg some (Emission.eq_annotationLine h)
    rwa [List.filterMap_some, List.filterMap_eq_map'] at hall
  have habout : p.annotations.filter (Line.decorates (n.entryNumber id)) =
      (s.code.about id).map (·.line (n.entryNumber id)) := by
    have hmine : (Line.decorates (n.entryNumber id) ∘ fun a : Annotation =>
        a.line (n.entryNumber a.target)) = fun a => decide (a.target = id) := by
      funext a
      rw [Bool.eq_iff_iff, Function.comp_apply, Line.decorates_line, Emission.entryNumber_inj,
        decide_eq_true_iff]
    rw [hannotations, List.filter_map, hmine, Module.about]
    refine List.map_congr_left fun a ha => ?_
    rw [of_decide_eq_true (List.mem_filter.mp ha).2]
  rw [Listing.decorationsOf, hlines, Sections.lines]
  simp only [List.filter_append, List.filter_cons, hcapabilities, himports, hentries, hstream,
    habout]
  simp [Line.decorates]

/-! ### Shaders -/

/-- What is told of a buffer is true of the variable at its place, and the listing has the
same offsets, set and binding. -/
structure Shader.Tells (s : Shader) (n : Numbering) (l : Listing) (place : Nat)
    (x : EntryId × GlobalVar) (b : Buffer) : Prop where
  descriptorSet : b.descriptorSet = 0
  binding : b.binding = place
  block : ∃ block, s.code.table.IsType x.2.ty (.pointer .storageBuffer block) ∧
    b.Describes s.code block ∧
    l.decorationsOf (n.entryNumber block) =
      { opcode := "OpDecorate", operands := [.id (n.entryNumber block), .plain "Block"] } ::
        (b.members.map (·.offset)).zipIdx.map fun (offset, i) =>
          { opcode := "OpMemberDecorate",
            operands := [.id (n.entryNumber block), .plain (toString i), .plain "Offset",
              .plain (toString offset)] }
  decorations : l.decorationsOf (n.entryNumber x.1) =
    [{ opcode := "OpDecorate",
       operands := [.id (n.entryNumber x.1), .plain "DescriptorSet", .plain (toString 0)] },
     { opcode := "OpDecorate",
       operands := [.id (n.entryNumber x.1), .plain "Binding", .plain (toString place)] }]

/-- A buffer that is described as it is declared is told of. -/
theorem Shader.tells_of_declares {s : Shader} {n : Numbering} {l : Listing} {bs : List BufferDecl}
    {place : Nat} {d : BufferDecl} {x : EntryId × GlobalVar} {b : Buffer} (h : s.code.Declares bs)
    (hwritten : s.listingWith n = .ok l) (hn : n.Covers s.body.toList)
    (hd : bs[place]? = some d) (hx : s.code.bufferVars[place]? = some x)
    (hb : b.Shows s.code d place) : s.Tells n l place x b := by
  obtain ⟨hplace, rfl⟩ := List.getElem?_eq_some_iff.mp hx
  obtain ⟨hplace', rfl⟩ := List.getElem?_eq_some_iff.mp hd
  obtain ⟨hid, hty⟩ : s.code.bufferVars[place].1 = bs[place].buffer ∧
      s.code.table.IsType s.code.bufferVars[place].2.ty
        (.pointer .storageBuffer bs[place].block) := h.vars.get hplace hplace'
  have hdecorations := decorationsOf_eq hwritten hn
  refine ⟨hb.descriptorSet, hb.binding, ⟨_, hty, hb.describes, ?_⟩, ?_⟩
  · rw [hdecorations, h.blocks _ (List.getElem_mem hplace'), BufferDecl.blockNotes, List.map_cons,
      List.map_map, hb.members]
    rfl
  · rw [hdecorations, hid, h.buffers place _ hd]
    rfl

variable {ρ : Type} [RandomSource ρ] [BoundedRandomSource ρ]

/-- Surroundings are told of as many storage buffers as the configuration asks for, in the
order of their bindings, and of each what is true of it and stands in the listing, to which
the text of the shader reads back. -/
theorem Config.buffers_of_shaderFrom {c : Config} {source : ρ} {s : Shader}
    (h : c.shaderFrom source = .ok s) : ∃ n l buffers, s.numbering = some n ∧ s.listing = .ok l ∧
      s.text = .ok l.render ∧ Listing.read l.render = .ok l ∧ s.buffers = .ok buffers ∧
      s.code.bufferVars.length = c.storageBuffers ∧ buffers.length = c.storageBuffers ∧
      ∀ i x b, s.code.bufferVars[i]? = some x → buffers[i]? = some b → s.Tells n l i x b := by
  obtain ⟨_, n, l, -, hnumbering, hcovers, hlisting, hwritten, htext, hread⟩ :=
    listing_of_shaderFrom h
  obtain ⟨bs, hcount, hdeclares, -⟩ := declares_of_shaderFrom h
  obtain ⟨buffers, hbuffers, hlength, hshows⟩ := Shader.buffers_answers hdeclares
  refine ⟨n, l, buffers, hnumbering, hlisting, htext, hread, hbuffers,
    hdeclares.vars.length_eq.trans hcount, hlength.trans hcount, fun i x b hx hb => ?_⟩
  have hd := List.getElem?_eq_getElem (hlength ▸ (List.getElem?_eq_some_iff.mp hb).1)
  exact Shader.tells_of_declares hdeclares hwritten hcovers hd hx (hshows i _ b hd hb)

theorem Config.buffers_buffered : ∃ s, Config.buffered.shaderFrom Script.buffered = .ok s ∧
    ∃ n l buffers, s.numbering = some n ∧ s.listing = .ok l ∧ s.text = .ok l.render ∧
      Listing.read l.render = .ok l ∧ s.buffers = .ok buffers ∧
      s.code.bufferVars.length = Config.buffered.storageBuffers ∧
      buffers.length = Config.buffered.storageBuffers ∧
      ∀ i x b, s.code.bufferVars[i]? = some x → buffers[i]? = some b → s.Tells n l i x b := by
  obtain ⟨s, hs, -⟩ := buffered_shaderFrom
  exact ⟨s, hs, buffers_of_shaderFrom hs⟩

example : ((Config.buffered.shaderFrom Script.buffered).toOption.bind fun s =>
    (s.code.buffersOf s.code.table.vars).toOption).map (fun buffers =>
      buffers.map fun b => (b.binding, b.members.map (·.offset), b.size)) =
    some [(0, [0, 4], 8), (1, [0, 12], 16), (2, [0, 4], 8)] := by
  decide +kernel

end ShaderGen
