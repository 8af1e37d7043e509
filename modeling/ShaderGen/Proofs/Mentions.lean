import ShaderGen.Proofs.Dominance

/-!
What the instructions of a stream mention. A typed instruction mentions entries that
are in the table and instructions that are values or, where it is a branch, labels;
and in a shader that is made of functions a value it reads stands in front of it
and a label it names behind it.
-/

namespace ShaderGen

namespace Table

variable {t : Table} {r : EntryId}

theorem Lanes.lt_size {id scalar : EntryId} {n : Nat} (h : t.Lanes id scalar n) :
    id.index < t.size := by
  cases h with
  | scalar h _ | vector h _ _ => exact lt_size_of_get? h

theorem IntLanes.lt_size {n width : Nat} {signed : Bool} (h : t.IntLanes r n width signed) :
    r.index < t.size := by
  obtain ⟨_, hl, _⟩ := h
  exact hl.lt_size

theorem FloatLanes.lt_size {n width : Nat} (h : t.FloatLanes r n width) : r.index < t.size := by
  obtain ⟨_, hl, _⟩ := h
  exact hl.lt_size

theorem BoolLanes.lt_size {n : Nat} (h : t.BoolLanes r n) : r.index < t.size := by
  obtain ⟨_, hl, _⟩ := h
  exact hl.lt_size

theorem IsData.lt_size (h : t.IsData r) : r.index < t.size := by
  obtain ⟨_, hty, _⟩ := h
  exact lt_size_of_get? hty

variable {c : Config} (hwf : t.WellFormed c)
include hwf

theorem Yields.lt_size {op : Opcode} {args : List EntryId} (h : t.Yields op args r) :
    r.index < t.size := by
  cases h with
  | intUnary _ h | bitUnary _ h | intBinary _ h _ | shift _ h _ => exact h.lt_size
  | floatUnary h | floatBinary _ h => exact h.lt_size
  | boolUnary h | boolBinary _ h | floatTest _ _ h | intCompare _ _ _ _ _ h
  | floatCompare _ _ _ h => exact h.lt_size
  | copy h | load _ h => exact h.lt_size
  | select _ h | convert _ _ h _ _ => exact h.lt_size
  | construct h _ => exact h.lt_size
  | reduceBool _ _ _ h | insertDynamic h _ => exact lt_size_of_get? h
  | vectorTimesScalar h | matrixTimesScalar h | vectorTimesMatrix _ h | matrixTimesMatrix _ _ h
  | outerProduct _ _ h | transpose _ h => exact lt_size_of_get? h.1
  | matrixTimesVector h _ => exact lt_size_of_get? h.2.1
  | dot h =>
    obtain ⟨_, _, hs⟩ := h
    exact lt_size_of_get? hs
  | extractDynamic h _ =>
    obtain ⟨_, _, hty, _⟩ := hwf.entry h
    exact lt_size_of_get? hty

omit hwf in
theorem ExtendedYields.lt_size {op : ExtendedOp} {args : List EntryId}
    (h : t.ExtendedYields op args r) : r.index < t.size := by
  cases h with
  | float _ h => exact h.lt_size
  | signedInt _ h | unsignedInt _ h => exact h.lt_size
  | floatReduce _ _ h | cross _ h _ => exact lt_size_of_get? h

theorem Part.lt_size {id part : EntryId} {i : Nat} (h : t.Part id i part) :
    part.index < t.size := by
  have hearlier {e : Entity} (he : t.get? id = some e) (hr : part ∈ e.refs) :
      part.index < t.size :=
    (hwf.earlier he part hr).trans (lt_size_of_get? he)
  cases h with
  | vector h _ | matrix h _ => exact hearlier h (by simp [Entity.refs, Ty.refs])
  | array h _ _ => exact hearlier h (by simp [Entity.refs, Ty.refs])
  | struct h hi => exact hearlier h (List.mem_of_getElem? hi)

omit hwf in
theorem Part.source_lt_size {id part : EntryId} {i : Nat} (h : t.Part id i part) :
    id.index < t.size := by
  cases h with
  | vector h _ | matrix h _ | array h _ _ | struct h _ => exact lt_size_of_get? h

/-- Both ends of a path that is not empty are in the table. -/
theorem Path.lt_size {id target : EntryId} {is : List Nat} (h : t.Path id is target)
    (hne : is ≠ []) : id.index < t.size ∧ target.index < t.size := by
  induction h with
  | nil => exact absurd rfl hne
  | @cons id part target i is hpart hp ih =>
    refine ⟨hpart.source_lt_size, ?_⟩
    cases is with
    | nil =>
      cases hp
      exact hpart.lt_size hwf
    | cons => exact (ih (by simp)).2

end Table

namespace Module

variable {m : Module}

/-- What an instruction may mention: entries that there are, and instructions that have
a type or, if it is a branch of some kind, are labels. -/
def Mentions (m : Module) (op : Opcode) : Operand → Prop
  | .value (.entry id) => id.index < m.table.size
  | .value (.instr d) => (∃ ty, m.Has (.instr d) ty) ∨
    op ∈ [.selectionMerge, .branchConditional, .branch] ∧ m.IsLabel d
  | .importSet set => set.index < m.imports.size
  | _ => True

theorem Has.mentions {v : Value} {ty : EntryId} (h : m.Has v ty) (op : Opcode) :
    m.Mentions op (.value v) := by
  cases v with
  | entry id =>
    rcases has_entry.mp h with ⟨_, hk, _⟩ | ⟨_, hv, _⟩
    · exact Table.lt_size_of_get? hk
    · exact Table.lt_size_of_get? hv
  | instr d => exact .inl ⟨ty, h⟩

theorem mentions_args {args : List Value} {tys : List EntryId} (h : List.Forall₂ m.Has args tys)
    {o : Operand} (ho : o ∈ args.map Operand.value) (op : Opcode) : m.Mentions op o := by
  obtain ⟨v, hv, rfl⟩ := List.mem_map.mp ho
  have hflip := List.Forall₂.flip (R := fun ty v => m.Has v ty) h
  obtain ⟨ty, _, hty⟩ := forall₂_exists_of_mem hflip hv
  exact hty.mentions op

theorem Typed.mentions {i : Instr} (h : m.Typed i) {o : Operand} (ho : o ∈ i.operands) :
    m.Mentions i.opcode o := by
  cases h with
  | apply hargs _ => exact mentions_args hargs ho _
  | shuffle ha hb _ _ _ _ =>
    rcases List.mem_cons.mp ho with rfl | ho
    · exact ha.mentions _
    rcases List.mem_cons.mp ho with rfl | ho
    · exact hb.mentions _
    obtain ⟨_, _, rfl⟩ := List.mem_map.mp ho
    trivial
  | extract hv _ _ =>
    rcases List.mem_cons.mp ho with rfl | ho
    · exact hv.mentions _
    obtain ⟨_, _, rfl⟩ := List.mem_map.mp ho
    trivial
  | insert ha hv _ _ =>
    rcases List.mem_cons.mp ho with rfl | ho
    · exact ha.mentions _
    rcases List.mem_cons.mp ho with rfl | ho
    · exact hv.mentions _
    obtain ⟨_, _, rfl⟩ := List.mem_map.mp ho
    trivial
  | accessChain hv _ _ hids _ _ =>
    rcases List.mem_cons.mp ho with rfl | ho
    · exact hv.mentions _
    obtain ⟨id, hid, rfl⟩ := List.mem_map.mp ho
    have hflip := List.Forall₂.flip (R := fun n id => m.table.IsIndex id n) hids
    obtain ⟨_, _, _, hk, _⟩ := forall₂_exists_of_mem hflip hid
    exact Table.lt_size_of_get? hk
  | var _ hi =>
    obtain ⟨_, hk, _⟩ := hi
    rcases List.mem_pair.mp ho with rfl | rfl
    · trivial
    · exact Table.lt_size_of_get? hk
  | store hp _ hv _ =>
    rcases List.mem_pair.mp ho with rfl | rfl
    · exact hp.mentions _
    · exact hv.mentions _
  | extended hset hargs _ =>
    rcases List.mem_cons.mp ho with rfl | ho
    · exact (Array.getElem?_eq_some_iff.mp hset).1
    rcases List.mem_cons.mp ho with rfl | ho
    · trivial
    exact mentions_args hargs ho _
  | selectionMerge hm =>
    rcases List.mem_pair.mp ho with rfl | rfl
    · exact .inr ⟨by simp, hm⟩
    · trivial
  | branchConditional hc _ hyes hno =>
    rcases List.mem_cons.mp ho with rfl | ho
    · exact hc.mentions _
    rcases List.mem_pair.mp ho with rfl | rfl
    · exact .inr ⟨by simp, hyes⟩
    · exact .inr ⟨by simp, hno⟩
  | branch hm =>
    obtain rfl := List.mem_singleton.mp ho
    exact .inr ⟨by simp, hm⟩
  | function hty _ =>
    rcases List.mem_pair.mp ho with rfl | rfl
    · trivial
    · exact Table.lt_size_of_get? hty
  | label | ret | functionParameter _ | functionEnd => cases ho

theorem Typed.resultType_lt {c : Config} (hwf : m.table.WellFormed c) {i : Instr}
    (h : m.Typed i) {ty : EntryId} (hty : i.resultType = some ty) :
    ty.index < m.table.size := by
  cases h with
  | apply _ h =>
    cases hty
    exact h.lt_size hwf
  | shuffle _ _ _ _ h _ | accessChain _ _ _ _ _ h | var h _ | function _ h =>
    cases hty
    exact Table.lt_size_of_get? h
  | extract _ hne hp =>
    cases hty
    exact (hp.lt_size hwf hne).2
  | insert _ _ hne hp =>
    cases hty
    exact (hp.lt_size hwf hne).1
  | extended _ _ h =>
    cases hty
    exact h.lt_size
  | functionParameter h =>
    cases hty
    obtain ⟨_, h, _⟩ := h
    exact Table.lt_size_of_get? h
  | _ => cases hty

/-- An instruction has a result type exactly where its opcode asks for one. -/
theorem Typed.isTyped {i : Instr} (h : m.Typed i) :
    i.opcode.isTyped = i.resultType.isSome := by
  cases h with
  | apply _ h => exact h.isTyped
  | _ => rfl

/-- A value is no label. -/
theorem Has.not_isLabel (htyped : ∀ {k : Nat} {i : Instr}, m.instrs[k]? = some i → m.Typed i)
    {d : InstrId} {ty : EntryId} (h : m.Has (.instr d) ty) : ¬ m.IsLabel d := by
  rintro ⟨i, hi, hop⟩
  obtain ⟨j, hj, hty⟩ := has_instr.mp h
  cases hi.symm.trans hj
  have := (htyped hi).isTyped
  rw [hop, hty] at this
  cases this

/-- A branch goes to a label that stands behind it. -/
theorem Scoped.labels_ahead
    (htyped : ∀ {k : Nat} {i : Instr}, m.instrs[k]? = some i → m.Typed i)
    {seen : InstrId → Prop} {stream defs : List InstrId} (h : m.Scoped seen stream defs)
    {id : InstrId} (hid : id ∈ stream) {i : Instr} (hi : m.instrs[id.index]? = some i)
    {d : InstrId} (hd : Value.instr d ∈ i.usedValues) (hlabel : m.IsLabel d) :
    [id, d].Sublist stream := by
  induction h generalizing id i with
  | nil => cases hid
  | @stmt _ _ _ rest _ hj hop _ _ ih =>
    rcases List.mem_cons.mp hid with rfl | hid
    · cases hj.symm.trans hi
      rcases (htyped hi).mentions (Instr.mem_usedValues.mp hd) with ⟨ty, hty⟩ | ⟨hmem, _⟩
      · exact (hty.not_isLabel htyped hlabel).elim
      · simp only [List.mem_cons, List.not_mem_nil, or_false] at hmem
        rcases hmem with h | h | h <;> rw [h] at hop <;> cases hop
    · exact (ih hid hi hd).cons _
  | @selection _ condition header branch merge yes no yesExit noExit yesArm noArm rest _ _ _
      hheader hbranch _ hyes _ hyesExit hno _ hnoExit hmerge _ ihyes ihno ih =>
    -- A marker and its label are a pair of the stream, each further down by what is between.
    have hpair {a d : InstrId} {l : List InstrId} (h : d ∈ l) : [a, d].Sublist (a :: l) :=
      (List.singleton_sublist.mpr h).cons_cons a
    have hmiddle {l l' : List InstrId} (h : l.Sublist l') :
        l.Sublist (header :: branch :: yes :: (yesArm ++ l')) :=
      (((h.trans (List.sublist_append_right _ _)).cons _).cons _).cons _
    have hlast {l l' : List InstrId} (h : l.Sublist l') :
        l.Sublist (header :: branch :: yes :: (yesArm ++ yesExit :: no :: (noArm ++ l'))) :=
      hmiddle (((h.trans (List.sublist_append_right _ _)).cons _).cons _)
    simp only [List.append_assoc, List.cons_append, List.nil_append, List.mem_append,
      List.mem_cons] at hid ⊢
    rcases hid with rfl | rfl | rfl | hid | rfl | rfl | hid | rfl | rfl | hid
    · cases hheader.symm.trans hi
      exact hpair (by simp [Instr.reads_merge.mp hd])
    · cases hbranch.symm.trans hi
      rcases Instr.reads_branchConditional.mp hd with rfl | hd | hd
      · cases htyped hi with
        | branchConditional hc _ _ _ => exact (hc.not_isLabel htyped hlabel).elim
      · exact (hpair (by simp [hd])).cons _
      · exact (hpair (by simp [hd])).cons _
    · cases hyes.symm.trans hi
      cases hd
    · exact ((((ihyes hid hi hd).trans (List.sublist_append_left _ _)).cons _).cons _).cons _
    · cases hyesExit.symm.trans hi
      exact hmiddle (hpair (by simp [Instr.reads_branch.mp hd]))
    · cases hno.symm.trans hi
      cases hd
    · exact hmiddle ((((ihno hid hi hd).trans (List.sublist_append_left _ _)).cons _).cons _)
    · cases hnoExit.symm.trans hi
      exact hlast (hpair (by simp [Instr.reads_branch.mp hd]))
    · cases hmerge.symm.trans hi
      cases hd
    · exact hlast (((ih hid hi hd).cons _).cons _)

theorem mem_of_mem_places {p q : Place} {ids : List InstrId} {d : InstrId}
    (h : (d, q) ∈ m.places p ids) : d ∈ ids := by
  induction ids generalizing p with
  | nil => cases h
  | cons id ids ih =>
    rcases List.mem_cons.mp h with h | h
    · obtain ⟨rfl, _⟩ := Prod.mk.inj h
      exact List.mem_cons_self
    · exact List.mem_cons_of_mem _ (ih h)

end Module

namespace Shader.Assembled

variable {c : Config} {s : Shader} {fs : List FunctionParts} (hs : s.Assembled c fs)
  {a b : List InstrId} {id d : InstrId} (hbody : s.body.toList = a ++ id :: b) {i : Instr}
  (hi : s.code.instrs[id.index]? = some i) (hd : Value.instr d ∈ i.usedValues)
include hs hbody hi hd

theorem mem_front (hno : ¬ s.code.IsLabel d) : d ∈ a := by
  have hdominated := hs.dominated
  rw [hbody, Module.dominated_append] at hdominated
  obtain ⟨q, hq, _⟩ := hdominated.2.1 i hi d hd hno
  exact Module.mem_of_mem_places hq

theorem mem_back (hlabel : s.code.IsLabel d) : d ∈ b := by
  have hnodup := hs.occupies.nodup
  have hid : id ∈ s.body.toList := by simp [hbody]
  rw [hs.body, List.mem_flatMap] at hid
  obtain ⟨f, hf, hid⟩ := hid
  obtain ⟨ty, hfun⟩ := hs.functions f hf
  have hinBody : id ∈ f.body := by
    by_contra hout
    refine hfun.not_reads hs.typed ?_ hi d hd
    simp only [FunctionParts.stream, List.mem_append] at hid ⊢
    tauto
  obtain ⟨defs, hscoped⟩ := hfun.body
  have hpair := hscoped.labels_ahead hs.typed hinBody hi hd hlabel
  have hstream : f.body.Sublist f.stream :=
    (List.sublist_append_right _ _).trans (List.sublist_append_left _ _)
  have hall : [id, d].Sublist (a ++ id :: b) := by
    rw [← hbody, hs.body]
    exact (hpair.trans hstream).trans (List.sublist_flatten_of_mem (List.mem_map_of_mem hf))
  rw [hbody] at hnodup
  obtain ⟨front, back, heq, hfront, hback⟩ := List.sublist_append_iff.mp hall
  cases front with
  | nil =>
    cases heq
    exact List.singleton_sublist.mp (List.cons_sublist_cons.mp hback)
  | cons x front =>
    -- the instruction occurs nowhere else
    rw [List.cons_append, List.cons.injEq] at heq
    have hmem : id ∈ a := hfront.subset (by simp [heq.1])
    exact ((List.nodup_append.mp hnodup).2.2 id hmem id (by simp) rfl).elim

end Shader.Assembled

end ShaderGen
