import ShaderGen.Proofs.Accesses
import ShaderGen.Random.Script

/-!
What bounding the dynamic accesses of a stream keeps. The stream stays the same but
for the modulos: each stands right in front of its access and reads what the
access read, so what was there for the access is there for the modulo, and the
modulo is there for the access. Functions stay functions, and the instructions
of the arena are those of the stream.
-/

namespace ShaderGen

variable {c : Config}

namespace DynamicIndex

variable {m m' m'' : Module}

/-- A stream with its accesses bounded. Every instruction stays as it is, or has a new
modulo in front of it that guards it. -/
inductive Bounded (m m' : Module) : List InstrId → List InstrId → Prop
  | nil : Bounded m m' [] []
  | keep {id : InstrId} {rest rest' : List InstrId}
      (h : ∀ i, m.instrs[id.index]? = some i → m'.instrs[id.index]? = some i)
      (hrest : Bounded m m' rest rest') : Bounded m m' (id :: rest) (id :: rest')
  | guard {id modulo : InstrId} {i : Instr} {slot : Nat} {index : Value}
      {rest rest' : List InstrId} (h : Guards m m' id modulo i slot index)
      (hrest : Bounded m m' rest rest') : Bounded m m' (id :: rest) (modulo :: id :: rest')

/-- What became of a stream does not depend on the instructions outside of it. -/
theorem Bounded.congr {ids ids' : List InstrId} (h : Bounded m' m'' ids ids')
    (hsame : ∀ id ∈ ids, ∀ i, m.instrs[id.index]? = some i ↔ m'.instrs[id.index]? = some i) :
    Bounded m m'' ids ids' := by
  induction h with
  | nil => exact .nil
  | keep h _ ih =>
    refine .keep (fun i hi => h i ((hsame _ (by simp) i).mp hi)) (ih fun id hid => ?_)
    exact hsame id (by simp [hid])
  | guard h _ ih =>
    refine .guard { h with instr := (hsame _ (by simp) _).mpr h.instr } (ih fun id hid => ?_)
    exact hsame id (by simp [hid])

/-- What bounding the accesses of a stream does: it changes the instructions of the
stream, and those that are new are its modulos. -/
theorem boundAll_spec {ids ids' : List InstrId} {count : Nat} (hwf : m.table.WellFormed c)
    (htyped : ∀ {k : Nat} {i : Instr}, m.instrs[k]? = some i → m.Typed i) (hnodup : ids.Nodup)
    (hlt : ∀ id ∈ ids, id.index < m.instrs.size)
    (h : boundAll m ids = .ok (ids', count, m')) :
    Changes c m ids m' ∧ Bounded m m' ids ids' ∧ m.instrs.size ≤ m'.instrs.size ∧
      ∃ new, Occupies new m.instrs.size m'.instrs.size ∧ ids'.Perm (ids ++ new) := by
  induction ids generalizing m m' ids' count with
  | nil =>
    cases h
    exact ⟨⟨le_refl _, hwf, htyped, rfl, fun _ _ _ hi => hi⟩, .nil, Nat.le_refl _, [], .nil _,
      .refl _⟩
  | cons id ids ih =>
    simp only [boundAll, bind_eq_ok] at h
    obtain ⟨⟨inserted, m₁⟩, hbound, ⟨rest, k, m₂⟩, hrest, h⟩ := h
    obtain ⟨hchanges, hcases⟩ := bound_changes hwf htyped hbound
    obtain ⟨hid, hnodup⟩ := List.nodup_cons.mp hnodup
    have hidlt := hlt id (by simp)
    have hgetlt {k : Nat} (hk : k < m.instrs.size) : ∃ i, m.instrs[k]? = some i :=
      ⟨_, Array.getElem?_eq_getElem hk⟩
    have hsize : m.instrs.size ≤ m₁.instrs.size := by
      rcases hcases with ⟨_, hinstrs⟩ | ⟨_, _, _, hsize, _⟩
      · rw [hinstrs]
      · omega
    obtain ⟨hchanges', hbounded, hsize', new, hnew, hperm⟩ :=
      ih hchanges.table hchanges.typed hnodup
        (fun d hd => Nat.lt_of_lt_of_le (hlt d (by simp [hd])) hsize) hrest
    -- the instructions of the rest of the stream are not those that were bounded
    have hsame : ∀ d ∈ ids, ∀ i, m.instrs[d.index]? = some i ↔ m₁.instrs[d.index]? = some i := by
      intro d hd i
      obtain ⟨j, hj⟩ := hgetlt (hlt d (by simp [hd]))
      have hne : d ∉ [id] := by
        rintro hmem
        obtain rfl := List.mem_singleton.mp hmem
        exact hid hd
      rw [hj, hchanges.frame d hne j hj]
    have hall : Changes c m (id :: ids) m₂ := hchanges.trans hchanges'
    replace hbounded := hbounded.congr hsame
    rcases hcases with ⟨rfl, hinstrs⟩ | ⟨modulo, rfl, hslot, hone, i, slot, index, hguards⟩
    · simp only [pure_eq_ok, Prod.mk.injEq] at h
      obtain ⟨rfl, -, rfl⟩ := h
      refine ⟨hall, .keep (fun i hi => hchanges'.frame id hid i (by rwa [hinstrs])) hbounded,
        hsize.trans hsize', new, ?_, hperm.cons id⟩
      rw [← hinstrs]
      exact hnew
    · simp only [pure_eq_ok, Prod.mk.injEq] at h
      obtain ⟨rfl, -, rfl⟩ := h
      have hfresh : modulo ∉ ids := fun hmem => by
        have := hlt modulo (by simp [hmem])
        omega
      obtain ⟨op, ty, length, hop, hmodulo⟩ := hguards.modulo
      refine ⟨hall, .guard { hguards with
          bounded := hchanges'.frame id hid _ hguards.bounded
          modulo := ⟨op, ty, length, hop, hchanges'.frame modulo hfresh _ hmodulo⟩ } hbounded,
        hsize.trans hsize', modulo :: new, ?_, ?_⟩
      · obtain ⟨n⟩ := modulo
        obtain rfl : n = m.instrs.size := hslot
        rw [hone] at hnew hsize'
        exact (Occupies.single _).append hnew (Nat.le_succ _) hsize'
      · have hmiddle : (modulo :: (id :: ids ++ new)).Perm (id :: ids ++ modulo :: new) :=
          List.perm_middle.symm
        exact ((hperm.cons id).cons modulo).trans hmiddle

/-- The writes of bounding keep a relation between modules: a length is interned, and an access
is given a new modulo to use. -/
structure Guarding (R : Module → Module → Prop) : Prop where
  refl (m : Module) : R m m
  trans {m m' m'' : Module} : R m m' → R m' m'' → R m m''
  intern (m : Module) (k : Const) : R m (m.internConst k).2
  guard {m : Module} {id : InstrId} {i j : Instr} (hi : m.instrs[id.index]? = some i)
    (hop : i.opcode ≠ .var) (hmodulo : j.opcode ≠ .var) (slot : Nat) (v : Value) :
    R m ((m.alloc j).2.setOperand id slot v)

namespace Guarding

variable {R : Module → Module → Prop}

theorem bound (hR : Guarding R) {id : InstrId} {inserted : Option InstrId}
    (h : bound m id = .ok (inserted, m')) : R m m' := by
  simp only [DynamicIndex.bound, bind_eq_ok, Module.instr_eq_ok] at h
  obtain ⟨i, hi, _ | a, haccess, h⟩ := h
  · cases h
    exact hR.refl m
  have hop : i.opcode ≠ .var := by
    intro hvar
    rw [access?, hvar] at haccess
    cases haccess
  simp only [bind_eq_ok] at h
  obtain ⟨⟨length, m₁⟩, hconst, already, -, h⟩ := h
  obtain ⟨literal, hk⟩ := Module.exists_internConst hconst
  obtain ⟨-, rfl⟩ := Prod.mk.inj hk
  have h₁ := hR.intern m (.scalar a.indexTy literal)
  cases already with
  | true =>
    cases h
    exact h₁
  | false =>
    cases h
    have hmodulo : (if a.signed then Opcode.sMod else .uMod) ≠ .var := by
      cases a.signed <;> decide
    exact hR.trans h₁ (hR.guard (m := (m.internConst (.scalar a.indexTy literal)).2)
      (j := ⟨_, some a.indexTy, [.value a.index, .entry length]⟩) hi hop hmodulo a.slot _)

theorem boundAll (hR : Guarding R) {ids ids' : List InstrId} {count : Nat}
    (h : boundAll m ids = .ok (ids', count, m')) : R m m' := by
  induction ids generalizing m m' ids' count with
  | nil =>
    cases h
    exact hR.refl m
  | cons id ids ih =>
    simp only [DynamicIndex.boundAll, bind_eq_ok] at h
    obtain ⟨⟨inserted, m₁⟩, hone, ⟨rest, k, m₂⟩, hrest, h⟩ := h
    have h₂ := hR.trans (hR.bound hone) (ih hrest)
    cases inserted with
    | none =>
      cases h
      exact h₂
    | some modulo =>
      cases h
      exact h₂

/-- Numbering writes nothing, so finishing does what bounding does. -/
theorem finish (hR : Guarding R) {s s' : Shader} (h : s.finish = .ok s') : R s.code s'.code := by
  simp only [Shader.finish, Shader.boundIndices, Shader.assignIds, bind_eq_ok, pure_eq_ok] at h
  obtain ⟨_, ⟨⟨_, _, code⟩, hall, rfl⟩, n, -, rfl⟩ := h
  exact hR.boundAll hall

end Guarding

theorem boundAll_answers {ids : List InstrId} (hwf : m.table.WellFormed c)
    (htyped : ∀ {k : Nat} {i : Instr}, m.instrs[k]? = some i → m.Typed i)
    (hlt : ∀ id ∈ ids, id.index < m.instrs.size) :
    ∃ ids' count m', boundAll m ids = .ok (ids', count, m') := by
  induction ids generalizing m with
  | nil => exact ⟨[], 0, m, rfl⟩
  | cons id ids ih =>
    obtain ⟨inserted, m₁, hbound⟩ := bound_answers hwf htyped (hlt id (by simp))
    obtain ⟨hchanges, hcases⟩ := bound_changes hwf htyped hbound
    have hsize : m.instrs.size ≤ m₁.instrs.size := by
      rcases hcases with ⟨_, hinstrs⟩ | ⟨_, _, _, hsize, _⟩
      · rw [hinstrs]
      · omega
    obtain ⟨rest, count, m₂, hrest⟩ := ih hchanges.table hchanges.typed fun d hd =>
      Nat.lt_of_lt_of_le (hlt d (by simp [hd])) hsize
    simp only [boundAll, hbound, hrest, bind, Except.bind, pure, Except.pure]
    cases inserted with
    | none => exact ⟨_, _, _, rfl⟩
    | some => exact ⟨_, _, _, rfl⟩

/-! ### Structure -/

/-- Streams that follow each other are bounded apart. -/
theorem Bounded.of_append {a b l : List InstrId} (h : Bounded m m' (a ++ b) l) :
    ∃ a' b', l = a' ++ b' ∧ Bounded m m' a a' ∧ Bounded m m' b b' := by
  induction a generalizing l with
  | nil => exact ⟨[], l, rfl, .nil, h⟩
  | cons id a ih =>
    rw [List.cons_append] at h
    cases h with
    | keep hkeep hrest =>
      obtain ⟨a', b', rfl, ha, hb⟩ := ih hrest
      exact ⟨id :: a', b', rfl, .keep hkeep ha, hb⟩
    | guard hguards hrest =>
      obtain ⟨a', b', rfl, ha, hb⟩ := ih hrest
      exact ⟨_ :: id :: a', b', rfl, .guard hguards ha, hb⟩

/-- A stream without accesses stays as it is. -/
theorem Bounded.fixed {a a' : List InstrId} (h : Bounded m m' a a')
    (hno : ∀ id ∈ a, ∃ i, m.instrs[id.index]? = some i ∧ slot? i.opcode = none) :
    a' = a ∧ ∀ id ∈ a, ∀ i, m.instrs[id.index]? = some i → m'.instrs[id.index]? = some i := by
  induction h with
  | nil => exact ⟨rfl, by simp⟩
  | keep hkeep _ ih =>
    obtain ⟨rfl, hrest⟩ := ih fun id hid => hno id (by simp [hid])
    refine ⟨rfl, fun id hid => ?_⟩
    rcases List.mem_cons.mp hid with rfl | hid
    · exact hkeep
    · exact hrest id hid
  | guard hguards _ _ =>
    obtain ⟨i, hi, hslot⟩ := hno _ List.mem_cons_self
    cases hi.symm.trans hguards.instr
    rw [hguards.access] at hslot
    cases hslot

/-- A replaced operand is the only value that is new. -/
theorem mem_usedValues_setOperand {i : Instr} {slot : Nat} {v d : Value}
    (h : d ∈ (i.setOperand slot v).usedValues) : d = v ∨ d ∈ i.usedValues := by
  rw [Instr.mem_usedValues] at h ⊢
  rcases List.mem_or_eq_of_mem_set h with h | h
  · exact .inr h
  · exact .inl (by cases h; rfl)

/-- A scoped stream is scoped when its accesses are bounded, and defines no less. -/
theorem Bounded.scoped {seen : InstrId → Prop} {stream defs l : List InstrId}
    (h : m.Scoped seen stream defs) (hb : Bounded m m' stream l) :
    ∃ defs', m'.Scoped seen l defs' := by
  induction h generalizing l with
  | nil =>
    cases hb
    exact ⟨[], .nil⟩
  | stmt hi hop hreads _ ih =>
    cases hb with
    | keep hkeep hrest =>
      obtain ⟨defs', hscoped⟩ := ih hrest
      exact ⟨_, .stmt (hkeep _ hi) hop hreads hscoped⟩
    | guard hguards hrest =>
      obtain ⟨defs', hscoped⟩ := ih hrest
      cases hi.symm.trans hguards.instr
      obtain ⟨op, ty, length, hmodop, hmodulo⟩ := hguards.modulo
      have hindex := Instr.mem_usedValues.mpr (List.mem_of_getElem? hguards.operand)
      have hstatement : op.isStatement = true := by rcases hmodop with rfl | rfl <;> rfl
      -- The modulo reads what the access read, and the access reads the modulo instead.
      refine ⟨_, .stmt hmodulo hstatement ?_ (.stmt hguards.bounded hop ?_
        (hscoped.mono (fun _ _ _ hi => hi) ?_))⟩
      · intro d hd
        have := Instr.mem_usedValues.mp hd
        simp only [Operand.entry, List.mem_cons, Operand.value.injEq, List.not_mem_nil, or_false,
          reduceCtorEq] at this
        exact hreads d (this ▸ hindex)
      · intro d hd
        rcases mem_usedValues_setOperand hd with hd | hd
        · exact .inr (by cases hd; rfl)
        · exact .inl (hreads d hd)
      · exact fun d hd => hd.imp_left .inl
  | selection hheader hbranch hreads hyes _ hyesExit hno _ hnoExit hmerge _ ihyes ihno ih =>
    -- Markers are no accesses, so the stream is bounded between them.
    obtain ⟨l, rest', rfl, hb, hrest⟩ := hb.of_append
    obtain ⟨l, last, rfl, hb, hlast⟩ := hb.of_append
    obtain ⟨l, noArm', rfl, hb, hnoArm⟩ := hb.of_append
    obtain ⟨l, middle, rfl, hb, hmiddle⟩ := hb.of_append
    obtain ⟨first, yesArm', rfl, hfirst, hyesArm⟩ := hb.of_append
    obtain ⟨rfl, kfirst⟩ := hfirst.fixed (by simp [hheader, hbranch, hyes, slot?])
    obtain ⟨rfl, kmiddle⟩ := hmiddle.fixed (by simp [hyesExit, hno, slot?])
    obtain ⟨rfl, klast⟩ := hlast.fixed (by simp [hnoExit, hmerge, slot?])
    obtain ⟨_, hyesArm⟩ := ihyes hyesArm
    obtain ⟨_, hnoArm⟩ := ihno hnoArm
    obtain ⟨_, hrest⟩ := ih hrest
    exact ⟨_, .selection (kfirst _ (by simp) _ hheader) (kfirst _ (by simp) _ hbranch) hreads
      (kfirst _ (by simp) _ hyes) hyesArm (kmiddle _ (by simp) _ hyesExit)
      (kmiddle _ (by simp) _ hno) hnoArm (klast _ (by simp) _ hnoExit)
      (klast _ (by simp) _ hmerge) hrest⟩

/-- Only the body of a function has accesses to bound. -/
theorem Bounded.function {f : FunctionParts} {l : List InstrId} (hle : m ≤ m')
    (hf : ∃ ty, m.IsFunction ty f) (hb : Bounded m m' f.stream l) :
    ∃ body, l = { f with body }.stream ∧
      ∀ ty, m.IsFunction ty f → m'.IsFunction ty { f with body } := by
  obtain ⟨_, hf⟩ := hf
  obtain ⟨l, last, rfl, hb, hlast⟩ := hb.of_append
  obtain ⟨l, body, rfl, hb, hbody⟩ := hb.of_append
  have hhead : ∀ id ∈ f.opening :: f.params ++ f.entry :: f.vars,
      ∃ i, m.instrs[id.index]? = some i ∧ slot? i.opcode = none := by
    intro id hid
    simp only [List.cons_append, List.mem_cons, List.mem_append] at hid
    rcases hid with rfl | hid | rfl | hid
    · obtain ⟨_, _, _, hopening, _⟩ := hf.opens
      exact ⟨_, hopening, rfl⟩
    · obtain ⟨ty, h⟩ := hf.parameter hid
      exact ⟨_, h, rfl⟩
    · exact ⟨_, hf.entry, rfl⟩
    · obtain ⟨i, hi, hop⟩ := hf.vars id hid
      exact ⟨i, hi, by rw [hop]; rfl⟩
  obtain ⟨rfl, khead⟩ := hb.fixed hhead
  obtain ⟨rfl, klast⟩ := hlast.fixed (by simp [hf.ret, hf.closing, slot?])
  refine ⟨body, rfl, fun ty hf => ?_⟩
  obtain ⟨r, tys, hty, hopening, hparams⟩ := hf.opens
  obtain ⟨defs, hscoped⟩ := hf.body
  exact {
    opens := by
      refine ⟨r, tys, hle.table hty, khead _ (by simp) _ hopening, ?_⟩
      have hmem := (List.forall₂_and_left _ _).mpr ⟨fun p (hp : p ∈ f.params) => hp, hparams⟩
      exact hmem.imp fun p ty hp => khead p (by simp [hp.1]) _ hp.2
    entry := khead _ (by simp) _ hf.entry
    vars := fun v hv => by
      obtain ⟨i, hi, hop⟩ := hf.vars v hv
      exact ⟨i, khead v (by simp [show v ∈ f.vars from hv]) _ hi, hop⟩
    body := hbody.scoped hscoped
    ret := klast _ (by simp) _ hf.ret
    closing := klast _ (by simp) _ hf.closing }

theorem Bounded.functions {fs : List FunctionParts} {l : List InstrId} (hle : m ≤ m')
    (hfs : ∀ f ∈ fs, ∃ ty, m.IsFunction ty f)
    (hb : Bounded m m' (fs.flatMap FunctionParts.stream) l) :
    ∃ fs' : List FunctionParts, l = fs'.flatMap FunctionParts.stream ∧
      List.Forall₂ (fun f f' => f'.opening = f.opening ∧
        ∀ ty, m.IsFunction ty f → m'.IsFunction ty f') fs fs' := by
  induction fs generalizing l with
  | nil =>
    cases hb
    exact ⟨[], rfl, .nil⟩
  | cons f fs ih =>
    obtain ⟨first, rest, rfl, hfirst, hrest⟩ := hb.of_append
    obtain ⟨body, rfl, hf⟩ := hfirst.function hle (hfs f (by simp))
    obtain ⟨fs', rfl, hfs'⟩ := ih (fun f hf => hfs f (by simp [hf])) hrest
    exact ⟨{ f with body } :: fs', by simp, .cons ⟨rfl, hf⟩ hfs'⟩

end DynamicIndex

/-! ### Finished shaders -/

/-- The stream of a bounded shader is that of the shader with its accesses bounded. -/
theorem Shader.Assembled.bounded {s s' : Shader} {fs : List FunctionParts} {count : Nat}
    (hs : s.Assembled c fs) (h : s.boundIndices = .ok (count, s')) :
    DynamicIndex.Bounded s.code s'.code s.body.toList s'.body.toList := by
  simp only [Shader.boundIndices, bind_eq_ok] at h
  obtain ⟨⟨body, k, code⟩, hall, h⟩ := h
  simp only [pure_eq_ok, Prod.mk.injEq] at h
  obtain ⟨-, rfl⟩ := h
  exact (DynamicIndex.boundAll_spec hs.table hs.typed hs.occupies.nodup
    (fun id hid => (hs.occupies.mem_iff.mp hid).2) hall).2.1

/-- Bounding the accesses of a shader keeps what it is made of, functions as many as before. -/
theorem Shader.Assembled.boundIndices {s s' : Shader} {fs : List FunctionParts} {count : Nat}
    (hs : s.Assembled c fs) (h : s.boundIndices = .ok (count, s')) :
    ∃ fs', s'.Assembled c fs' ∧ fs'.length = fs.length := by
  simp only [Shader.boundIndices, bind_eq_ok] at h
  obtain ⟨⟨body, k, code⟩, hall, h⟩ := h
  simp only [pure_eq_ok, Prod.mk.injEq] at h
  obtain ⟨-, rfl⟩ := h
  obtain ⟨hchanges, hbounded, hsize, new, hnew, hperm⟩ := DynamicIndex.boundAll_spec hs.table
    hs.typed hs.occupies.nodup (fun id hid => (hs.occupies.mem_iff.mp hid).2) hall
  rw [hs.body] at hbounded
  obtain ⟨fs', hbody, hfs'⟩ := hbounded.functions hchanges.later hs.functions
  refine ⟨fs', ?_, hfs'.length_eq.symm⟩
  exact {
    table := hchanges.table
    typed := hchanges.typed
    annotated := by
      intro a ha
      rw [hchanges.annotations] at ha
      exact Nat.lt_of_lt_of_le (hs.annotated a ha) (Table.size_le hchanges.later.table)
    body := hbody
    occupies := (hs.occupies.append hnew (Nat.zero_le _) hsize).perm hperm.symm
    functions := by
      intro f' hf'
      obtain ⟨f, hf, hkeep⟩ := forall₂_exists_of_mem hfs' hf'
      obtain ⟨ty, hfun⟩ := hs.functions f hf
      exact ⟨ty, hkeep.2 ty hfun⟩
    few := hfs'.length_eq ▸ hs.few
    main := by
      obtain ⟨f, rest, ty, r, rfl, hentry, hfun, hty, hr⟩ := hs.main
      cases hfs' with
      | cons hf hrest =>
        exact ⟨_, _, ty, r, rfl, hentry.trans hf.1.symm, hf.2 ty hfun,
          hchanges.later.table hty, hchanges.later.table hr⟩ }

/-- A finished shader is made of functions and has the ids of its own stream. -/
theorem Shader.Assembled.boundIndices_answers {s : Shader} {fs : List FunctionParts}
    (hs : s.Assembled c fs) : ∃ count s', s.boundIndices = .ok (count, s') := by
  obtain ⟨body, count, code, hall⟩ := DynamicIndex.boundAll_answers hs.table hs.typed
    fun id hid => (hs.occupies.mem_iff.mp hid).2
  refine ⟨count, { s with code, body := body.toArray, numbering := none }, ?_⟩
  simp only [Shader.boundIndices, hall, bind, Except.bind]
  rfl

theorem Shader.Assembled.finish {s s' : Shader} {fs : List FunctionParts}
    (hs : s.Assembled c fs) (h : s.finish = .ok s') :
    ∃ fs' n, s'.Assembled c fs' ∧ s'.numbering = some n ∧
      Numbering.assign s'.code s'.body.toList = .ok n ∧ fs'.length = fs.length := by
  simp only [Shader.finish, Shader.assignIds, bind_eq_ok, pure_eq_ok] at h
  obtain ⟨⟨count, s₁⟩, hbound, n, hassign, rfl⟩ := h
  obtain ⟨fs', hs₁, hlength⟩ := hs.boundIndices hbound
  exact ⟨fs', n, ⟨hs₁.table, hs₁.typed, hs₁.annotated, hs₁.body, hs₁.occupies, hs₁.functions,
    hs₁.few, hs₁.main⟩, rfl, hassign, hlength⟩

/-- What is finished is bounded. -/
theorem Shader.Assembled.finish_bounded {s s' : Shader} {fs : List FunctionParts}
    (hs : s.Assembled c fs) (h : s.finish = .ok s') :
    DynamicIndex.Bounded s.code s'.code s.body.toList s'.body.toList := by
  simp only [Shader.finish, Shader.assignIds, bind_eq_ok, pure_eq_ok] at h
  obtain ⟨⟨count, s₁⟩, hbound, n, -, rfl⟩ := h
  have hbounded := hs.bounded hbound
  exact hbounded

/-- A configuration gives a shader if it is valid, its program ends and can be finished. -/
theorem Config.shaderFrom_eq_ok {ρ : Type} [RandomSource ρ] {source : ρ} {s : Shader} :
    c.shaderFrom source = .ok s ↔ c.validate = .ok () ∧ ∃ program state,
      Gen.program.run c (.start source) = (.ok program, state) ∧ program.finish = .ok s := by
  unfold shaderFrom
  rcases c.validate with _ | _
  · simp
  · rcases Gen.program.run c (.start source) with ⟨(_ | _) | program, state⟩
    · simp
    · simp
    · rcases hfinish : program.finish with _ | finished
      · simp [hfinish]
      · simp [hfinish, pure, Except.pure]

/-- Every shader of a configuration is made of functions. -/
theorem Config.assembled_of_shaderFrom {ρ : Type} [RandomSource ρ] [BoundedRandomSource ρ]
    {source : ρ} {s : Shader} (h : c.shaderFrom source = .ok s) :
    ∃ fs n, s.Assembled c fs ∧ s.numbering = some n ∧
      Numbering.assign s.code s.body.toList = .ok n := by
  obtain ⟨hvalid, program, state, hrun, hfinish⟩ := shaderFrom_eq_ok.mp h
  have hprogram := Gen.program_ends (c.maxFunctions_ne_zero hvalid) source
  obtain ⟨-, fs, hassembled⟩ := hprogram.of_run_ok hrun
  obtain ⟨fs, n, hs, hnumbering, hassign, -⟩ := hassembled.finish hfinish
  exact ⟨fs, n, hs, hnumbering, hassign⟩

/-! ### A shader -/

/-- A configuration of small shaders. -/
def Config.small : Config where
  maxTypes := 5
  maxConstants := 3
  maxFunctions := 1
  maxDepth := 2
  mutationProbability := 0.0
  weighting := .uniform
  extendedInstructions := false
  capabilities := []
  storageBuffers := 0
  privateVariables := 0

/-- The choices of a shader with a selection. In one arm a variable is read and written
and a vector accessed at what was read, in the other numbers are added, and behind
the arms the vector is accessed at a constant. -/
def Script.selection : Script :=
  ⟨[0, 1, 0, 1, 3, 1, 0, 1, 0, 0, 0, 2, 0, 1, 3, 3, 0, 1, 0, 1, 0,
    1, 0, 78, 0, 1, 0, 0, 1, 0, 1, 0, 1, 0, 1, 0, 70, 0, 0, 1, 0, 2, 0, 0, 0, 1, 0, 6, 0, 0, 0,
    1, 0, 70, 0, 0, 0]⟩

/-- The opcodes of the body of a shader. -/
def Shader.opcodes (s : Shader) : List Opcode :=
  s.body.toList.filterMap fun id => Instr.opcode <$> s.code.instrs[id.index]?

/-- The choices end in a shader, with a modulo in front of each access. -/
theorem Config.small_shaderFrom : ∃ s, Config.small.shaderFrom Script.selection = .ok s ∧
    s.opcodes = [.function, .label, .var, .selectionMerge, .branchConditional, .label, .load,
      .sMod, .vectorExtractDynamic, .store, .branch, .label, .iAdd, .branch, .label, .sMod,
      .vectorExtractDynamic, .ret, .functionEnd] := by
  have h : (Shader.opcodes <$> Config.small.shaderFrom Script.selection).toOption =
      some [.function, .label, .var, .selectionMerge, .branchConditional, .label, .load,
        .sMod, .vectorExtractDynamic, .store, .branch, .label, .iAdd, .branch, .label, .sMod,
        .vectorExtractDynamic, .ret, .functionEnd] := by decide +kernel
  exact map_eq_ok.mp (toOption_eq_some.mp h)

end ShaderGen
