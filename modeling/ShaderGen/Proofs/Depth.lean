import ShaderGen.Proofs.Bounding
import ShaderGen.Shader.Stats

/-!
The depth of selections. A block has a depth by its grammar, where a selection is one deeper
than the deeper of its arms. The counts of a shader know no grammar: they follow the stream
and keep the merge labels of open selections. On a block without repeated instructions the
two agree, and the block leaves the open labels as they were.
-/

namespace ShaderGen

namespace Module

variable {m m' : Module}

/-- A block in which selections lie in each other to the given depth. A selection is one
deeper than the deeper one of its arms. -/
inductive HasDepth (m : Module) : Nat → List InstrId → Prop
  | nil : HasDepth m 0 []
  | statement {id : InstrId} {i : Instr} {rest : List InstrId} {depth : Nat}
      (hi : m.instrs[id.index]? = some i) (hop : i.opcode.isMarker = false)
      (hrest : HasDepth m depth rest) : HasDepth m depth (id :: rest)
  | selection {condition : Value} {header branch merge yes no yesExit noExit : InstrId}
      {yesArm noArm rest : List InstrId} {yesDepth noDepth depth : Nat}
      (hmarkers : m.Markers condition header branch merge yes no yesExit noExit)
      (hyesArm : HasDepth m yesDepth yesArm) (hnoArm : HasDepth m noDepth noArm)
      (hrest : HasDepth m depth rest) :
      HasDepth m (max (max yesDepth noDepth + 1) depth)
        ([header, branch, yes] ++ yesArm ++ [yesExit, no] ++ noArm ++ [noExit, merge] ++ rest)

theorem HasDepth.grow {depth : Nat} {stream : List InstrId} (h : m.HasDepth depth stream)
    (he : m.Extends m') : m'.HasDepth depth stream := by
  induction h with
  | nil => exact .nil
  | statement hi hop _ ih => exact .statement (he.instr hi) hop ih
  | selection hmarkers _ _ _ ihyes ihno ih => exact .selection (hmarkers.grow he) ihyes ihno ih

theorem HasDepth.append {a b : List InstrId} {depth depth' : Nat} (ha : m.HasDepth depth a)
    (hb : m.HasDepth depth' b) : m.HasDepth (max depth depth') (a ++ b) := by
  induction ha with
  | nil => rwa [Nat.zero_max]
  | statement hi hop _ ih => exact .statement hi hop ih
  | selection hmarkers hyes hno _ _ _ ih =>
    rw [List.append_assoc, Nat.max_assoc]
    exact .selection hmarkers hyes hno ih

/-- A scoped stream has a depth. -/
theorem Scoped.hasDepth {seen : InstrId → Prop} {stream defs : List InstrId}
    (h : m.Scoped seen stream defs) : ∃ depth, m.HasDepth depth stream := by
  induction h with
  | nil => exact ⟨0, .nil⟩
  | stmt hi hop _ _ ih =>
    obtain ⟨depth, hrest⟩ := ih
    simp only [Opcode.isStatement, Bool.and_eq_true, Bool.not_eq_true'] at hop
    exact ⟨depth, .statement hi hop.1 hrest⟩
  | selection hheader hbranch _ hyes _ hyesExit hno _ hnoExit hmerge _ ihyes ihno ih =>
    obtain ⟨_, hyesArm⟩ := ihyes
    obtain ⟨_, hnoArm⟩ := ihno
    obtain ⟨_, hrest⟩ := ih
    exact ⟨_, .selection ⟨hheader, hbranch, hyes, hyesExit, hno, hnoExit, hmerge⟩
      hyesArm hnoArm hrest⟩

/-- The instructions of a stream with their ids. -/
def listing (m : Module) (stream : List InstrId) : List (InstrId × Instr) :=
  stream.filterMap fun id => (m.instrs[id.index]?).map (id, ·)

theorem listing_append (a b : List InstrId) : m.listing (a ++ b) = m.listing a ++ m.listing b :=
  List.filterMap_append

theorem listing_cons {id : InstrId} {i : Instr} (hi : m.instrs[id.index]? = some i)
    (rest : List InstrId) : m.listing (id :: rest) = (id, i) :: m.listing rest := by
  simp [listing, hi]

end Module

namespace Stats

variable {opened after after' : List InstrId} {m : Module} {id : InstrId} {i : Instr}

/-! ### Following a stream -/

/-- The merge labels of the selections open behind a stream, given those open in front of
it. -/
def openBehind (opened : List InstrId) (stream : List (InstrId × Instr)) : List InstrId :=
  stream.foldl (fun opened x => openAfter opened x.1 x.2) opened

/-- The most selections that are open at a time along a stream, those open in front of it
included. -/
def peak (opened : List InstrId) (stream : List (InstrId × Instr)) : Nat :=
  max opened.length (selectionDepth stream opened)

theorem peak_cons (opened : List InstrId) (id : InstrId) (i : Instr)
    (rest : List (InstrId × Instr)) :
    peak opened ((id, i) :: rest) = max opened.length (peak (openAfter opened id i) rest) := rfl

theorem peak_empty (stream : List (InstrId × Instr)) : peak [] stream = selectionDepth stream [] :=
  Nat.zero_max _

theorem openBehind_append (opened : List InstrId) (a b : List (InstrId × Instr)) :
    openBehind opened (a ++ b) = openBehind (openBehind opened a) b := List.foldl_append

theorem peak_append (opened : List InstrId) (a b : List (InstrId × Instr)) :
    peak opened (a ++ b) = max (peak opened a) (peak (openBehind opened a) b) := by
  induction a generalizing opened with
  | nil => simp [peak, openBehind, selectionDepth]
  | cons x a ih =>
    obtain ⟨id, i⟩ := x
    rw [List.cons_append, peak_cons, ih, peak_cons, Nat.max_assoc]
    rfl

theorem length_le_peak (opened : List InstrId) (stream : List (InstrId × Instr)) :
    opened.length ≤ peak opened stream := Nat.le_max_left _ _

/-- Along a stream the open selections change from one list to another, and at most so many
are open at a time. -/
structure Passes (m : Module) (opened : List InstrId) (stream : List InstrId)
    (after : List InstrId) (most : Nat) : Prop where
  behind : openBehind opened (m.listing stream) = after
  peak : peak opened (m.listing stream) = most

theorem Passes.nil : Passes m opened [] opened opened.length :=
  ⟨rfl, Nat.max_eq_left (Nat.zero_le _)⟩

theorem Passes.append {a b : List InstrId} {n n' : Nat} (ha : Passes m opened a after n)
    (hb : Passes m after b after' n') : Passes m opened (a ++ b) after' (max n n') where
  behind := by rw [Module.listing_append, openBehind_append, ha.behind, hb.behind]
  peak := by rw [Module.listing_append, peak_append, ha.behind, ha.peak, hb.peak]

theorem Passes.single (hi : m.instrs[id.index]? = some i) (h : openAfter opened id i = after) :
    Passes m opened [id] after (max opened.length after.length) where
  behind := by
    rw [Module.listing_cons hi]
    exact h
  peak := by
    rw [Module.listing_cons hi, peak_cons, h]
    simp [Module.listing, Stats.peak, selectionDepth]

/-- Only headers and the innermost open label change what is open. -/
theorem openAfter_of_ne (hheader : i.opcode ≠ .selectionMerge)
    (hlabel : i.opcode = .label → opened.head? ≠ some id) : openAfter opened id i = opened := by
  unfold openAfter
  split
  · contradiction
  · exact if_neg (hlabel ‹_›)
  · rfl

theorem Passes.plain (hi : m.instrs[id.index]? = some i) (hheader : i.opcode ≠ .selectionMerge)
    (hlabel : i.opcode = .label → opened.head? ≠ some id) :
    Passes m opened [id] opened opened.length := by
  simpa using Passes.single hi (openAfter_of_ne hheader hlabel)

/-- Where no selection is open, a label closes none. -/
theorem Passes.plains {stream : List InstrId} (h : ∀ id ∈ stream, ∃ i,
    m.instrs[id.index]? = some i ∧ i.opcode ≠ .selectionMerge) : Passes m [] stream [] 0 := by
  induction stream with
  | nil => exact .nil
  | cons id rest ih =>
    obtain ⟨i, hi, hheader⟩ := h id (by simp)
    have hfirst : Passes m [] [id] [] 0 := .plain hi hheader fun _ => nofun
    exact hfirst.append (ih fun id hid => h id (by simp [hid]))

/-- The label and the exit of an arm open and close nothing. -/
theorem Passes.arm {label exit target : InstrId} {arm : List InstrId} {depth : Nat}
    (hlabel : m.instrs[label.index]? = some ⟨.label, none, []⟩)
    (hopened : opened.head? ≠ some label)
    (harm : Passes m opened arm opened (opened.length + depth))
    (hexit : m.instrs[exit.index]? = some ⟨.branch, none, [.instr target]⟩) :
    Passes m opened ([label] ++ arm ++ [exit]) opened (opened.length + depth) := by
  have hfirst : Passes m opened [label] _ _ := .plain hlabel nofun fun _ => hopened
  have hlast : Passes m opened [exit] _ _ := .plain hexit nofun nofun
  simpa using (hfirst.append harm).append hlast

/-- A block leaves the open selections as they were, and its own lie on top of them. -/
theorem Passes.block {depth : Nat} {stream : List InstrId} (h : m.HasDepth depth stream)
    (hnodup : stream.Nodup) (hopened : ∀ id ∈ stream, opened.head? ≠ some id) :
    Passes m opened stream opened (opened.length + depth) := by
  induction h generalizing opened with
  | nil => exact .nil
  | @statement _ i _ _ hi hop _ ih =>
    have hne {op : Opcode} (hmarker : op.isMarker = true) : i.opcode ≠ op := by
      rintro rfl
      exact Bool.false_ne_true (hop.symm.trans hmarker)
    have hrest := ih (List.nodup_cons.mp hnodup).2 fun id hid => hopened id (by simp [hid])
    have hfirst : Passes m opened [_] _ _ := .plain hi (hne rfl) fun heq => absurd heq (hne rfl)
    simpa using hfirst.append hrest
  | @selection _ header branch merge yes no yesExit noExit yesArm noArm rest yesDepth noDepth depth
      hmarkers _ _ _ ihyes ihno ih =>
    simp only [List.append_assoc, List.cons_append, List.nil_append] at hnodup ⊢
    have hnodups : yesArm.Nodup ∧ noArm.Nodup ∧ rest.Nodup := by
      simp only [List.nodup_cons, List.nodup_append] at hnodup
      tauto
    have hmerge : merge ∉ [yes] ∧ merge ∉ yesArm ∧ merge ∉ [no] ∧ merge ∉ noArm := by
      simp only [List.nodup_cons, List.nodup_append, List.mem_append, List.mem_cons] at hnodup
      simp only [List.mem_singleton]
      grind
    -- The merge label is the innermost open one until it is met, which is behind the arms.
    have hinner {part : List InstrId} (hpart : merge ∉ part) :
        ∀ id ∈ part, (merge :: opened).head? ≠ some id := by
      rintro id hid heq
      exact hpart (Option.some.inj heq ▸ hid)
    have hyes := Passes.arm hmarkers.yes (hinner hmerge.1 _ (by simp))
      (ihyes hnodups.1 (hinner hmerge.2.1)) hmarkers.yesExit
    have hno := Passes.arm hmarkers.no (hinner hmerge.2.2.1 _ (by simp))
      (ihno hnodups.2.1 (hinner hmerge.2.2.2)) hmarkers.noExit
    have hheader : Passes m opened [header] (merge :: opened) _ := .single hmarkers.header rfl
    have hbranch : Passes m (merge :: opened) [branch] _ _ := .plain hmarkers.branch nofun nofun
    have hclose : Passes m (merge :: opened) [merge] opened _ := .single hmarkers.merge (if_pos rfl)
    have hrest : Passes m opened rest _ _ := ih hnodups.2.2 fun id hid => hopened id (by simp [hid])
    have hall := (hheader.append hbranch).append ((hyes.append hno).append (hclose.append hrest))
    simp only [List.cons_append, List.nil_append, List.append_assoc, List.length_cons] at hall ⊢
    convert hall using 1
    omega

/-! ### Functions -/

/-- Selections open in a function are closed in it. -/
theorem Passes.function {ty : EntryId} {f : FunctionParts} {depth : Nat} (h : m.IsFunction ty f)
    (hdepth : m.HasDepth depth f.body) (hnodup : f.body.Nodup) :
    Passes m [] f.stream [] depth := by
  have hhead : Passes m [] (f.opening :: f.params ++ f.entry :: f.vars) [] 0 := by
    refine .plains fun id hid => ?_
    simp only [List.cons_append, List.mem_cons, List.mem_append] at hid
    rcases hid with rfl | hid | rfl | hid
    · obtain ⟨_, _, _, hopening, _⟩ := h.opens
      exact ⟨_, hopening, nofun⟩
    · obtain ⟨ty, hparam⟩ := h.parameter hid
      exact ⟨_, hparam, nofun⟩
    · exact ⟨_, h.entry, nofun⟩
    · obtain ⟨i, hi, hop⟩ := h.vars id hid
      exact ⟨i, hi, by rw [hop]; nofun⟩
  have hlast : Passes m [] [f.ret, f.closing] [] 0 := by
    refine .plains fun id hid => ?_
    simp only [List.mem_cons, List.not_mem_nil, or_false] at hid
    rcases hid with rfl | rfl
    · exact ⟨_, h.ret, nofun⟩
    · exact ⟨_, h.closing, nofun⟩
  simpa [FunctionParts.stream] using
    (hhead.append (.block hdepth hnodup fun _ _ => by simp)).append hlast

/-- Along functions nothing is open at the end of each, and what is open at most is the depth
of the deepest. -/
theorem Passes.functions {fs : List FunctionParts} {depths : List Nat}
    (hfs : ∀ f ∈ fs, ∃ ty, m.IsFunction ty f)
    (h : List.Forall₂ (fun f depth => m.HasDepth depth f.body) fs depths)
    (hnodup : (fs.flatMap FunctionParts.stream).Nodup) :
    Passes m [] (fs.flatMap FunctionParts.stream) [] (depths.foldr max 0) := by
  induction h with
  | nil => exact .nil
  | cons hf _ ih =>
    rename_i f _ fs _ _
    obtain ⟨ty, hfun⟩ := hfs f (by simp)
    rw [List.flatMap_cons] at hnodup ⊢
    have hbody : f.body.Sublist f.stream :=
      (List.sublist_append_right _ _).trans (List.sublist_append_left _ _)
    have hfirst : Passes m [] f.stream [] _ :=
      .function hfun hf (hnodup.of_append_left.sublist hbody)
    exact hfirst.append (ih (fun f hf => hfs f (by simp [hf])) hnodup.of_append_right)

/-! ### Bounded streams -/

/-- A modulo opens and closes nothing, and neither does the access behind it. -/
theorem Passes.bounded {m' : Module} {stream stream' : List InstrId} {most : Nat}
    (h : DynamicIndex.Bounded m m' stream stream')
    (hall : ∀ id ∈ stream, ∃ i, m.instrs[id.index]? = some i)
    (hp : Passes m opened stream after most) : Passes m' opened stream' after most := by
  suffices heq : openBehind opened (m'.listing stream') = openBehind opened (m.listing stream) ∧
      Stats.peak opened (m'.listing stream') = Stats.peak opened (m.listing stream) from
    ⟨heq.1.trans hp.behind, heq.2.trans hp.peak⟩
  clear hp
  induction h generalizing opened with
  | nil => exact ⟨rfl, rfl⟩
  | keep hkeep _ ih =>
    obtain ⟨i, hi⟩ := hall _ List.mem_cons_self
    obtain ⟨hbehind, hpeak⟩ := @ih (openAfter opened _ i)
      fun id hid => hall id (List.mem_cons_of_mem _ hid)
    rw [Module.listing_cons hi, Module.listing_cons (hkeep i hi), peak_cons, peak_cons, hpeak]
    exact ⟨hbehind, rfl⟩
  | @guard id modulo i slot _ _ _ hguards _ ih =>
    obtain ⟨op, ty, length, hop, hmodulo⟩ := hguards.modulo
    have hmod : op ≠ .selectionMerge ∧ op ≠ .label := by rcases hop with rfl | rfl <;> decide
    have haccess : i.opcode ≠ .selectionMerge ∧ i.opcode ≠ .label := by
      have hslot := hguards.access
      constructor <;> (intro heq; rw [heq] at hslot; cases hslot)
    have hstays {j : Instr} {id : InstrId}
        (hj : j.opcode ≠ .selectionMerge ∧ j.opcode ≠ .label) : openAfter opened id j = opened :=
      openAfter_of_ne hj.1 fun hlabel => absurd hlabel hj.2
    have hfirst (operands : List Operand) : openAfter opened modulo ⟨op, ty, operands⟩ = opened :=
      hstays hmod
    have hset : openAfter opened id (i.setOperand slot (.instr modulo)) = opened := hstays haccess
    obtain ⟨hbehind, hpeak⟩ := @ih opened fun id hid => hall id (List.mem_cons_of_mem _ hid)
    rw [Module.listing_cons hguards.instr, Module.listing_cons hmodulo,
      Module.listing_cons hguards.bounded, peak_cons, peak_cons, peak_cons, hfirst, hset,
      hstays haccess, hpeak, ← Nat.max_assoc, Nat.max_self]
    simp only [openBehind, List.foldl_cons, hfirst, hset, hstays haccess] at hbehind ⊢
    exact ⟨hbehind, trivial⟩

/-! ### Counts -/

/-- The families share the instructions of a stream among them. -/
theorem sum_families (stream : List (InstrId × Instr)) :
    (Family.all.map fun family => stream.countP fun x => x.2.opcode.family == family).sum =
      stream.length := by
  induction stream with
  | nil => rfl
  | cons x stream ih =>
    have hone : (Family.all.map fun family =>
        if x.2.opcode.family == family then 1 else 0).sum = 1 := by
      cases x.2.opcode.family <;> rfl
    simp only [List.countP_cons, List.sum_map_add, ih, hone, List.length_cons]

/-- Where every instruction of its body is there, a shader can be counted. -/
theorem collect_eq_ok {s : Shader}
    (h : ∀ id ∈ s.body.toList, ∃ i, s.code.instrs[id.index]? = some i) :
    ∃ stats, collect s = .ok stats ∧
      stats.functions = (s.code.listing s.body.toList).countP (fun x => x.2.opcode == .function) ∧
      stats.maxSelectionDepth = peak [] (s.code.listing s.body.toList) ∧
      stats.ofFamily = (fun family =>
        (s.code.listing s.body.toList).countP fun x => x.2.opcode.family == family) ∧
      (s.code.listing s.body.toList).length = s.body.size := by
  have hlisting : ∀ ids : List InstrId, (∀ id ∈ ids, ∃ i, s.code.instrs[id.index]? = some i) →
      (ids.mapM fun id => return (id, ← s.code.instr id) : Except Fault _) =
        .ok (s.code.listing ids) ∧ (s.code.listing ids).length = ids.length := by
    intro ids hids
    induction ids with
    | nil => exact ⟨rfl, rfl⟩
    | cons id ids ih =>
      obtain ⟨i, hi⟩ := hids id (by simp)
      obtain ⟨hok, hlength⟩ := ih fun id hid => hids id (by simp [hid])
      rw [List.mapM_cons, Module.instr_eq_ok.mpr hi, hok, Module.listing_cons hi]
      exact ⟨rfl, congrArg (· + 1) hlength⟩
  obtain ⟨hok, hlength⟩ := hlisting _ h
  have hcollect : collect s = .ok {
      instructions := s.body.size
      types := s.code.table.typeCount
      constants := s.code.table.constantCount
      globalVariables := s.code.table.vars.length
      functions := (s.code.listing s.body.toList).countP fun x => x.2.opcode == .function
      maxSelectionDepth := selectionDepth (s.code.listing s.body.toList) []
      ofFamily := fun family =>
        (s.code.listing s.body.toList).countP fun x => x.2.opcode.family == family } := by
    rw [collect, hok]
    rfl
  exact ⟨_, hcollect, rfl, (peak_empty _).symm, rfl, hlength⟩

end Stats

end ShaderGen
