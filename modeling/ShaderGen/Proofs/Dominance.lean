import ShaderGen.Proofs.Structure

/-!
Dominance. The place of an instruction is read off the stream from front to back: the
function that was opened last, and the selections that are open with the arms one
is in. A definition encloses a use when it is in the same function and every arm
around it is around the use too. In a body that is built of functions whatever is
read is defined in front of its use by an instruction that encloses it.
-/

namespace ShaderGen

/-- A selection that is open: the label behind it, and that of the arm one is in. -/
structure OpenSelection where
  merge : InstrId
  arm : Option InstrId := none
deriving DecidableEq, Repr

/-- Where an instruction stands: in which function, and in which arms of which
selections, the innermost first. -/
structure Place where
  function : Option InstrId := none
  selections : List OpenSelection := []
deriving DecidableEq, Repr

namespace Place

/-- The place of an instruction, given that of the one in front of it. A selection is
open from its header up to the label behind it, and any label in between begins
an arm. -/
def step (m : Module) (p : Place) (id : InstrId) : Place :=
  match m.instrs[id.index]? with
  | some ⟨.function, _, _⟩ => { function := some id }
  | some ⟨.selectionMerge, _, .value (.instr merge) :: _⟩ =>
    { p with selections := { merge } :: p.selections }
  | some ⟨.label, _, _⟩ =>
    match p.selections with
    | [] => p
    | s :: outer =>
      { p with selections := if s.merge = id then outer else { s with arm := some id } :: outer }
  | _ => p

/-- The place of the last instruction of a stream. -/
def through (m : Module) (p : Place) (ids : List InstrId) : Place := ids.foldl (step m) p

theorem through_nil (m : Module) (p : Place) : p.through m [] = p := rfl

theorem through_cons (m : Module) (p : Place) (id : InstrId) (ids : List InstrId) :
    p.through m (id :: ids) = (p.step m id).through m ids := rfl

theorem through_append (m : Module) (p : Place) (a b : List InstrId) :
    p.through m (a ++ b) = (p.through m a).through m b := List.foldl_append

/-- The place inside of one more selection. -/
def enter (p : Place) (s : OpenSelection) : Place := { p with selections := s :: p.selections }

/-- One place is in the function of another, and in no arm that the other is not in. -/
def Encloses (p q : Place) : Prop := p.function = q.function ∧ p.selections <:+ q.selections

theorem Encloses.refl (p : Place) : p.Encloses p := ⟨rfl, List.suffix_rfl⟩

theorem Encloses.trans {p q r : Place} (h : p.Encloses q) (h' : q.Encloses r) : p.Encloses r :=
  ⟨h.1.trans h'.1, h.2.trans h'.2⟩

theorem Encloses.enter (p : Place) (s : OpenSelection) : p.Encloses (p.enter s) :=
  ⟨rfl, List.suffix_cons s _⟩

end Place

namespace Module

variable {m : Module}

/-- The instructions of a stream with their places. -/
def places (m : Module) : Place → List InstrId → List (InstrId × Place)
  | _, [] => []
  | p, id :: ids => (id, p.step m id) :: places m (p.step m id) ids

/-- Every instruction a stream reads that is no label is known at that point, from a
place that encloses the one where it is read. Known is what was known at the start
and what stands in front. -/
def Dominated (m : Module) : List (InstrId × Place) → Place → List InstrId → Prop
  | _, _, [] => True
  | known, p, id :: ids =>
    (∀ i, m.instrs[id.index]? = some i → ∀ d, Value.instr d ∈ i.usedValues → ¬ m.IsLabel d →
      ∃ q, (d, q) ∈ known ∧ q.Encloses (p.step m id)) ∧
    Dominated m (known ++ [(id, p.step m id)]) (p.step m id) ids

theorem dominated_append {known : List (InstrId × Place)} {p : Place} {a b : List InstrId} :
    m.Dominated known p (a ++ b) ↔ m.Dominated known p a ∧
      m.Dominated (known ++ m.places p a) (p.through m a) b := by
  induction a generalizing known p with
  | nil => simp [Dominated, places, Place.through]
  | cons id a ih =>
    simp only [List.cons_append, Dominated, ih, places, Place.through, List.foldl_cons,
      List.append_assoc, List.nil_append, and_assoc]

theorem places_append {p : Place} {a b : List InstrId} :
    m.places p (a ++ b) = m.places p a ++ m.places (p.through m a) b := by
  induction a generalizing p with
  | nil => rfl
  | cons id a ih => simp only [List.cons_append, places, ih, Place.through_cons]

/-- A stream that reads labels alone. -/
theorem dominated_of_labels {known : List (InstrId × Place)} {p : Place} {ids : List InstrId}
    (h : ∀ id ∈ ids, ∀ i, m.instrs[id.index]? = some i → ∀ d, Value.instr d ∈ i.usedValues →
      m.IsLabel d) : m.Dominated known p ids := by
  induction ids generalizing known p with
  | nil => trivial
  | cons id ids ih =>
    refine ⟨fun i hi d hd hno => ?_, ih fun id hid => h id (by simp [hid])⟩
    exact (hno (h id (by simp) i hi d hd)).elim

/-- A stream that reads nothing. -/
theorem dominated_of_not_reads {known : List (InstrId × Place)} {p : Place} {ids : List InstrId}
    (h : ∀ id ∈ ids, ∀ i, m.instrs[id.index]? = some i → ∀ d, Value.instr d ∉ i.usedValues) :
    m.Dominated known p ids :=
  dominated_of_labels fun id hid i hi d hd => (h id hid i hi d hd).elim

/-- Instructions that neither open nor close anything share their place. -/
theorem places_of_step {p : Place} {ids : List InstrId} (h : ∀ id ∈ ids, p.step m id = p) :
    m.places p ids = ids.map (·, p) ∧ p.through m ids = p := by
  induction ids with
  | nil => exact ⟨rfl, rfl⟩
  | cons id ids ih =>
    obtain ⟨hplaces, hthrough⟩ := ih fun id hid => h id (by simp [hid])
    have hid := h id (by simp)
    simp only [places, Place.through, List.foldl_cons, hid, List.map_cons] at hplaces hthrough ⊢
    exact ⟨by rw [hplaces], hthrough⟩

theorem step_of_opcode {p : Place} {id : InstrId} {i : Instr}
    (hi : m.instrs[id.index]? = some i)
    (hop : i.opcode ∉ [.function, .selectionMerge, .label]) : p.step m id = p := by
  obtain ⟨op, r, operands⟩ := i
  unfold Place.step
  rw [hi]
  split <;> simp_all

/-- A header opens a selection. -/
theorem step_header {p : Place} {id merge : InstrId}
    (hi : m.instrs[id.index]? =
      some ⟨.selectionMerge, none, [.instr merge, .keyword "None"]⟩) :
    p.step m id = p.enter ⟨merge, none⟩ := by
  simp [Place.step, hi, Operand.instr, Place.enter]

/-- A label inside of a selection begins an arm of it. -/
theorem step_arm {p : Place} {id merge : InstrId} {arm : Option InstrId}
    (hi : m.instrs[id.index]? = some ⟨.label, none, []⟩) (hne : merge ≠ id) :
    (p.enter ⟨merge, arm⟩).step m id = p.enter ⟨merge, some id⟩ := by
  simp [Place.step, hi, Place.enter, hne]

/-- The label behind a selection closes it. -/
theorem step_merge {p : Place} {merge : InstrId} {arm : Option InstrId}
    (hi : m.instrs[merge.index]? = some ⟨.label, none, []⟩) :
    (p.enter ⟨merge, arm⟩).step m merge = p := by
  simp [Place.step, hi, Place.enter]

theorem isStatement_step {op : Opcode} (h : op.isStatement = true) :
    op ∉ [.function, .selectionMerge, .label] := by
  intro hmem
  simp only [List.mem_cons, List.not_mem_nil, or_false] at hmem
  rcases hmem with rfl | rfl | rfl <;> cases h

/-- A label reads nothing. -/
theorem dominated_label {known : List (InstrId × Place)} {p : Place} {label : InstrId}
    (hlabel : m.instrs[label.index]? = some ⟨.label, none, []⟩) :
    m.Dominated known p [label] :=
  dominated_of_not_reads fun id hid i hi d => by
    obtain rfl := List.mem_singleton.mp hid
    cases hlabel.symm.trans hi
    exact List.not_mem_nil

/-- The header of a selection and the branch behind it read the condition and labels. -/
theorem dominated_open {known : List (InstrId × Place)} {p : Place}
    {header branch merge yes no : InstrId} {condition : Value}
    (hheader : m.instrs[header.index]? =
      some ⟨.selectionMerge, none, [.instr merge, .keyword "None"]⟩)
    (hbranch : m.instrs[branch.index]? =
      some ⟨.branchConditional, none, [.value condition, .instr yes, .instr no]⟩)
    (hmerge : m.IsLabel merge) (hyes : m.IsLabel yes) (hno : m.IsLabel no)
    (hcondition : ∀ d, condition = .instr d → ∃ q, (d, q) ∈ known ∧ q.Encloses p) :
    m.Dominated known p [header, branch] ∧
      p.through m [header, branch] = p.enter ⟨merge, none⟩ := by
  have hopen : p.step m header = p.enter ⟨merge, none⟩ := step_header hheader
  have hinside : (p.enter ⟨merge, none⟩).step m branch = p.enter ⟨merge, none⟩ :=
    step_of_opcode hbranch (by simp)
  refine ⟨⟨fun i hi d hd hnot => ?_, fun i hi d hd hnot => ?_, trivial⟩, ?_⟩
  · cases hheader.symm.trans hi
    exact (hnot (Instr.reads_merge.mp hd ▸ hmerge)).elim
  · cases hbranch.symm.trans hi
    rw [hopen, hinside]
    rcases Instr.reads_branchConditional.mp hd with hd | rfl | rfl
    · obtain ⟨q, hq, hencloses⟩ := hcondition d hd
      exact ⟨q, List.mem_append_left _ hq, hencloses.trans (.enter p _)⟩
    · exact (hnot hyes).elim
    · exact (hnot hno).elim
  · rw [Place.through_cons, hopen, Place.through_cons, hinside, Place.through_nil]

/-- An arm with its label in front and its exit behind, entered from the header or from
the arm before it. Behind the exit one is still in the arm. -/
theorem dominated_arm {known : List (InstrId × Place)} {p : Place} {label exit merge : InstrId}
    {before : Option InstrId} {arm : List InstrId}
    (hlabel : m.instrs[label.index]? = some ⟨.label, none, []⟩)
    (hexit : m.instrs[exit.index]? = some ⟨.branch, none, [.instr merge]⟩)
    (hmerge : m.IsLabel merge) (hne : merge ≠ label)
    (harm : ∀ known', known ⊆ known' → m.Dominated known' (p.enter ⟨merge, some label⟩) arm ∧
      (p.enter ⟨merge, some label⟩).through m arm = p.enter ⟨merge, some label⟩) :
    m.Dominated known (p.enter ⟨merge, before⟩) ([label] ++ arm ++ [exit]) ∧
      (p.enter ⟨merge, before⟩).through m ([label] ++ arm ++ [exit]) =
        p.enter ⟨merge, some label⟩ := by
  have henter : (p.enter ⟨merge, before⟩).through m [label] = p.enter ⟨merge, some label⟩ :=
    step_arm hlabel hne
  have hleave : (p.enter ⟨merge, some label⟩).through m [exit] = p.enter ⟨merge, some label⟩ :=
    step_of_opcode hexit (by simp)
  have hlast {known' : List (InstrId × Place)} {q : Place} : m.Dominated known' q [exit] :=
    dominated_of_labels fun id hid i hi d hd => by
      obtain rfl := List.mem_singleton.mp hid
      cases hexit.symm.trans hi
      exact Instr.reads_branch.mp hd ▸ hmerge
  simp only [dominated_append, Place.through_append, henter,
    (harm known (List.Subset.refl known)).2, hleave, and_true]
  exact ⟨⟨dominated_label hlabel, (harm _ (List.subset_append_left _ _)).1⟩, hlast⟩

/-- A selection, if what its arms read is known inside of them. Behind the label that
closes it one is where one was in front of its header. -/
theorem dominated_selection {known : List (InstrId × Place)} {p : Place} {condition : Value}
    {header branch merge yes no yesExit noExit : InstrId} {yesArm noArm : List InstrId}
    (hheader : m.instrs[header.index]? =
      some ⟨.selectionMerge, none, [.instr merge, .keyword "None"]⟩)
    (hbranch : m.instrs[branch.index]? =
      some ⟨.branchConditional, none, [.value condition, .instr yes, .instr no]⟩)
    (hyes : m.instrs[yes.index]? = some ⟨.label, none, []⟩)
    (hyesExit : m.instrs[yesExit.index]? = some ⟨.branch, none, [.instr merge]⟩)
    (hno : m.instrs[no.index]? = some ⟨.label, none, []⟩)
    (hnoExit : m.instrs[noExit.index]? = some ⟨.branch, none, [.instr merge]⟩)
    (hmerge : m.instrs[merge.index]? = some ⟨.label, none, []⟩)
    (hmergeYes : merge ≠ yes) (hmergeNo : merge ≠ no)
    (hcondition : ∀ d, condition = .instr d → ∃ q, (d, q) ∈ known ∧ q.Encloses p)
    (hyesArm : ∀ known', known ⊆ known' → m.Dominated known' (p.enter ⟨merge, some yes⟩) yesArm ∧
      (p.enter ⟨merge, some yes⟩).through m yesArm = p.enter ⟨merge, some yes⟩)
    (hnoArm : ∀ known', known ⊆ known' → m.Dominated known' (p.enter ⟨merge, some no⟩) noArm ∧
      (p.enter ⟨merge, some no⟩).through m noArm = p.enter ⟨merge, some no⟩) :
    m.Dominated known p
        ([header, branch, yes] ++ yesArm ++ [yesExit, no] ++ noArm ++ [noExit, merge]) ∧
      p.through m
        ([header, branch, yes] ++ yesArm ++ [yesExit, no] ++ noArm ++ [noExit, merge]) = p := by
  have hlabel : m.IsLabel merge := ⟨_, hmerge, rfl⟩
  obtain ⟨hopens, hopenThrough⟩ := dominated_open hheader hbranch hlabel ⟨_, hyes, rfl⟩
    ⟨_, hno, rfl⟩ hcondition
  have hfirst {known₁ : List (InstrId × Place)} (hsub : known ⊆ known₁) :
      m.Dominated known₁ (p.enter ⟨merge, none⟩) ([yes] ++ yesArm ++ [yesExit]) ∧ _ :=
    dominated_arm hyes hyesExit hlabel hmergeYes fun known' hsub' =>
      hyesArm known' (List.Subset.trans hsub hsub')
  have hsecond {known₁ : List (InstrId × Place)} (hsub : known ⊆ known₁) :
      m.Dominated known₁ (p.enter ⟨merge, some yes⟩) ([no] ++ noArm ++ [noExit]) ∧ _ :=
    dominated_arm hno hnoExit hlabel hmergeNo fun known' hsub' =>
      hnoArm known' (List.Subset.trans hsub hsub')
  have hfirstThrough := (hfirst (List.Subset.refl known)).2
  have hsecondThrough := (hsecond (List.Subset.refl known)).2
  have hclose : (p.enter ⟨merge, some no⟩).through m [merge] = p := step_merge hmerge
  -- The stream is cut where the place changes.
  have hcut : [header, branch, yes] ++ yesArm ++ [yesExit, no] ++ noArm ++ [noExit, merge] =
      [header, branch] ++ (([yes] ++ yesArm ++ [yesExit]) ++
        (([no] ++ noArm ++ [noExit]) ++ [merge])) := by simp
  rw [hcut]
  constructor
  · refine dominated_append.mpr ⟨hopens, ?_⟩
    rw [hopenThrough]
    refine dominated_append.mpr ⟨(hfirst (List.subset_append_left _ _)).1, ?_⟩
    rw [hfirstThrough]
    refine dominated_append.mpr ⟨(hsecond fun _ h => by simp [h]).1, ?_⟩
    rw [hsecondThrough]
    exact dominated_label hmerge
  · rw [Place.through_append, hopenThrough, Place.through_append, hfirstThrough,
      Place.through_append, hsecondThrough, hclose]

/-- In a scoped stream all that is read is known, if what may be read at its start
is; and behind the stream one is where one was in front of it. -/
theorem Scoped.dominated {seen : InstrId → Prop} {stream defs : List InstrId}
    (h : m.Scoped seen stream defs) {known : List (InstrId × Place)} {p : Place}
    (hnodup : stream.Nodup) (hknown : ∀ d, seen d → ∃ q, (d, q) ∈ known ∧ q.Encloses p) :
    m.Dominated known p stream ∧ p.through m stream = p := by
  induction h generalizing known p with
  | nil => exact ⟨trivial, rfl⟩
  | @stmt seen id i rest defs hi hop hreads _ ih =>
    have hstep : p.step m id = p := step_of_opcode hi (isStatement_step hop)
    obtain ⟨_, hnodup⟩ := List.nodup_cons.mp hnodup
    obtain ⟨hrest, hthrough⟩ := @ih (known ++ [(id, p)]) p hnodup fun d hd => by
      rcases hd with hd | rfl
      · obtain ⟨q, hq, hencloses⟩ := hknown d hd
        exact ⟨q, List.mem_append_left _ hq, hencloses⟩
      · exact ⟨p, by simp, .refl p⟩
    refine ⟨⟨fun j hj d hd _ => ?_, ?_⟩, ?_⟩
    · cases hi.symm.trans hj
      rw [hstep]
      exact hknown d (hreads d hd)
    · rw [hstep]
      exact hrest
    · simp only [Place.through, List.foldl_cons, hstep]
      exact hthrough
  | @selection seen condition header branch merge yes no yesExit noExit yesArm noArm rest _ _ _
      hheader hbranch hreads hyes _ hyesExit hno _ hnoExit hmerge _ ihyes ihno ih =>
    -- A stream without repetitions has the label behind the selection in one place only.
    have hcount := List.nodup_iff_count_le_one.mp hnodup merge
    have hmergeYes : merge ≠ yes := by
      rintro rfl
      simp only [List.count_append, List.count_cons_self, List.count_cons] at hcount
      omega
    have hmergeNo : merge ≠ no := by
      rintro rfl
      simp only [List.count_append, List.count_cons_self, List.count_cons] at hcount
      omega
    have hseen {known' : List (InstrId × Place)} {p' : Place} (hsub : known ⊆ known')
        (he : p.Encloses p') : ∀ d, seen d → ∃ q, (d, q) ∈ known' ∧ q.Encloses p' := by
      intro d hd
      obtain ⟨q, hq, hencloses⟩ := hknown d hd
      exact ⟨q, hsub hq, hencloses.trans he⟩
    have hno' := hnodup.of_append_left.of_append_left
    have hyes' := hno'.of_append_left.of_append_left
    -- An arm may read what the selection may; what the other arm defines is not in `seen`.
    obtain ⟨hselection, hthrough⟩ := dominated_selection hheader hbranch hyes hyesExit hno hnoExit
      hmerge hmergeYes hmergeNo (fun d hd => hknown d (hreads d hd))
      (fun known' hsub => @ihyes known' _ hyes'.of_append_right (hseen hsub (.enter p _)))
      (fun known' hsub => @ihno known' _ hno'.of_append_right (hseen hsub (.enter p _)))
    have hrest {known' : List (InstrId × Place)} (hsub : known ⊆ known') :=
      @ih known' p hnodup.of_append_right (hseen hsub (.refl p))
    refine ⟨dominated_append.mpr ⟨hselection, ?_⟩, ?_⟩
    · rw [hthrough]
      exact (hrest (List.subset_append_left _ _)).1
    · rw [Place.through_append, hthrough]
      exact (hrest (List.Subset.refl known)).2

/-- The same of a function, whatever is known in front of it: what its body may read is
defined in its entry block. -/
theorem IsFunction.dominated {ty : EntryId} {f : FunctionParts} (h : m.IsFunction ty f)
    (htyped : ∀ {k : Nat} {i : Instr}, m.instrs[k]? = some i → m.Typed i)
    (hnodup : f.stream.Nodup) (known : List (InstrId × Place)) (p : Place) :
    m.Dominated known p f.stream := by
  let p₀ : Place := { function := some f.opening }
  obtain ⟨r, tys, _, hopening, _⟩ := h.opens
  obtain ⟨defs, hbody⟩ := h.body
  have hs₀ : p.step m f.opening = p₀ := by simp [Place.step, hopening, p₀]
  have hparams : ∀ id ∈ f.params, p₀.step m id = p₀ := fun id hid => by
    obtain ⟨ty, hp⟩ := h.parameter hid
    exact step_of_opcode hp (by simp)
  have hentry : p₀.step m f.entry = p₀ := by simp [Place.step, h.entry, p₀]
  have hvars : ∀ id ∈ f.vars, p₀.step m id = p₀ := fun id hid => by
    obtain ⟨i, hi, hop⟩ := h.vars id hid
    exact step_of_opcode hi (by simp [hop])
  obtain ⟨hplaces, hthrough⟩ := places_of_step hparams
  obtain ⟨hplaces', hthrough'⟩ := places_of_step hvars
  have hbodyNodup : f.body.Nodup := hnodup.of_append_left.of_append_right
  simp only [FunctionParts.stream, dominated_append, places_append, List.cons_append,
    Place.through_append, Place.through_cons, Dominated, places, and_true, hs₀, hentry, hthrough,
    hthrough', hplaces, hplaces']
  have hnone {id : InstrId}
      (hid : id ∈ f.opening :: f.params ++ f.entry :: f.vars ++ [f.ret, f.closing]) :
      ∀ i, m.instrs[id.index]? = some i → ∀ d, Value.instr d ∉ i.usedValues :=
    fun _ hi => h.not_reads htyped hid hi
  have hscoped {known' : List (InstrId × Place)}
      (hknown : ∀ d, d ∈ f.params ∨ d ∈ f.vars → (d, p₀) ∈ known') :=
    hbody.dominated hbodyNodup fun d hd => ⟨p₀, hknown d hd, .refl p₀⟩
  refine ⟨?_, ⟨⟨?_, ?_, ?_⟩, ?_⟩, ?_, ?_⟩
  · exact fun i hi d hd => (hnone (by simp) i hi d hd).elim
  · exact dominated_of_not_reads fun id hid => hnone (by simp [hid])
  · exact fun i hi d hd => (hnone (by simp) i hi d hd).elim
  · exact dominated_of_not_reads fun id hid => hnone (by simp [hid])
  · refine (hscoped fun d hd => ?_).1
    rcases hd with hd | hd <;> simp [hd]
  · exact fun i hi d hd => (hnone (by simp) i hi d hd).elim
  · exact fun i hi d hd => (hnone (by simp) i hi d hd).elim

end Module

/-- In a shader that is made of functions definitions dominate their uses. -/
theorem Shader.Assembled.dominated {c : Config} {s : Shader} {fs : List FunctionParts}
    (hs : s.Assembled c fs) : s.code.Dominated [] {} s.body.toList := by
  have hall (fs : List FunctionParts) (hfs : ∀ f ∈ fs, ∃ ty, s.code.IsFunction ty f)
      (hnodup : (fs.flatMap FunctionParts.stream).Nodup) (known : List (InstrId × Place))
      (p : Place) : s.code.Dominated known p (fs.flatMap FunctionParts.stream) := by
    induction fs generalizing known p with
    | nil => trivial
    | cons f fs ih =>
      obtain ⟨ty, hf⟩ := hfs f (by simp)
      rw [List.flatMap_cons] at hnodup ⊢
      refine Module.dominated_append.mpr ⟨hf.dominated hs.typed hnodup.of_append_left known p, ?_⟩
      exact ih (fun f hf => hfs f (by simp [hf])) hnodup.of_append_right _ _
  have hnodup := hs.occupies.nodup
  rw [hs.body] at hnodup ⊢
  exact hall fs hs.functions hnodup [] {}

end ShaderGen
