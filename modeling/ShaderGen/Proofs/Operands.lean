import ShaderGen.Proofs.Variables
import ShaderGen.Statement.Memory

/-!
Operands and what is made of them. An operand that is found has a type, the type
passes the test of the search, and a statement among operands is visible. A
statement is produced by searching, interning and adding one instruction: it is
enough that the instruction keeps its typing rule and reads what was found.
-/

namespace ShaderGen

variable {ρ : Type} {c : Config} {s s' : State ρ} {scope : ScopeId}

/-- A value may be read in a scope: it is an entry or a visible statement. -/
def State.Reads (s : State ρ) (scope : ScopeId) (v : Value) : Prop :=
  ∀ d, v = .instr d → d ∈ s.scopes.visible scope

theorem State.Reads.after {v : Value} (h : s.Reads scope v) (q : Quiet c s s') :
    s'.Reads scope v := by
  unfold State.Reads
  rw [q.scopes]
  exact h

theorem State.reads_entry (id : EntryId) : s.Reads scope (.entry id) := fun _ h => by cases h

/-! ### Searches -/

theorem mem_statementsWhere {test : Predicate} {vs : List Value} {v : Value}
    (h : s.statementsWhere scope test = .ok vs) (hv : v ∈ vs) :
    ∃ ty, s.code.Has v ty ∧ test s.code ty = .ok true ∧ s.Reads scope v := by
  simp only [State.statementsWhere, State.visible, bind_eq_ok, pure_eq_ok] at h
  obtain ⟨visible, hvisible, ids, hids, rfl⟩ := h
  split_ifs at hvisible
  cases hvisible
  obtain ⟨id, hid, rfl⟩ := List.mem_map.mp hv
  obtain ⟨hid, hyields⟩ := mem_of_filterM hids hid
  have hreads : s.Reads scope (.instr id) := fun d hd => by cases hd; exact hid
  simp only [State.yields, bind_eq_ok, Module.instr_eq_ok] at hyields
  obtain ⟨i, hi, hyields⟩ := hyields
  split at hyields
  · rename_i ty hty
    split_ifs at hyields
    · exact ⟨ty, Module.has_instr.mpr ⟨i, hi, hty⟩, hyields, hreads⟩
    · cases hyields
  · cases hyields

theorem mem_constantsWhere {test : Predicate} {vs : List Value} {v : Value}
    (h : s.constantsWhere test = .ok vs) (hv : v ∈ vs) :
    ∃ ty, s.code.Has v ty ∧ test s.code ty = .ok true ∧ s.Reads scope v := by
  simp only [State.constantsWhere, bind_eq_ok, pure_eq_ok] at h
  obtain ⟨ks, hks, rfl⟩ := h
  obtain ⟨⟨id, k⟩, hid, rfl⟩ := List.mem_map.mp hv
  obtain ⟨hk, htest⟩ := mem_of_filterM hks hid
  exact ⟨k.ty, Module.has_entry.mpr (.inl ⟨k, Table.mem_constants.mp hk, rfl⟩), htest,
    State.reads_entry id⟩

theorem mem_operandsWhere {test : Predicate} {vs : List Value} {v : Value}
    (h : s.operandsWhere scope test = .ok vs) (hv : v ∈ vs) :
    ∃ ty, s.code.Has v ty ∧ test s.code ty = .ok true ∧ s.Reads scope v := by
  simp only [State.operandsWhere, bind_eq_ok, pure_eq_ok] at h
  obtain ⟨as, ha, bs, hb, rfl⟩ := h
  rcases List.mem_append.mp hv with hv | hv
  · exact mem_statementsWhere ha hv
  · exact mem_constantsWhere hb hv

theorem mem_pointersWhere {test : Predicate} {vs : List Value} {v : Value}
    (h : Gen.pointersWhere s scope test = .ok vs) (hv : v ∈ vs) :
    ∃ ty, s.code.Has v ty ∧ Predicate.pointerTo test s.code ty = .ok true ∧ s.Reads scope v := by
  simp only [Gen.pointersWhere, bind_eq_ok, pure_eq_ok] at h
  obtain ⟨as, ha, bs, hb, rfl⟩ := h
  rcases List.mem_append.mp hv with hv | hv
  · exact mem_statementsWhere ha hv
  · obtain ⟨⟨id, x⟩, hid, rfl⟩ := List.mem_map.mp hv
    obtain ⟨hx, htest⟩ := mem_of_filterM hb hid
    exact ⟨x.ty, Module.has_entry.mpr (.inr ⟨x, Table.mem_vars.mp hx, rfl⟩), htest,
      State.reads_entry id⟩

namespace Gen

variable [RandomSource ρ]

/-- A draw among the hits of a search. -/
theorem hit_quietly (hs : s.Sound c) {vs : List Value} {test : Predicate}
    (hvs : ∀ v ∈ vs, ∃ ty, s.code.Has v ty ∧ test s.code ty = .ok true ∧ s.Reads scope v) :
    Quietly c s (pick vs) fun v s' =>
      ∃ ty, s'.code.Has v ty ∧ test s'.code ty = .ok true ∧ s'.Reads scope v := by
  refine (pick_quietly hs vs).mono ?_
  rintro v s' q ⟨hv, hcode⟩
  obtain ⟨ty, hty, htest, hreads⟩ := hvs v hv
  rw [hcode]
  exact ⟨ty, hty, htest, hreads.after q⟩

theorem operand_quietly (hs : s.Sound c) (scope : ScopeId) (test : Predicate) :
    Quietly c s (operand scope test) fun v s' =>
      ∃ ty, s'.code.Has v ty ∧ test s'.code ty = .ok true ∧ s'.Reads scope v := by
  refine (Quietly.ask hs).seq ?_
  rintro vs s - ⟨rfl, hvs⟩
  exact hit_quietly hs fun v hv => mem_operandsWhere hvs hv

theorem operandOf_quietly (hs : s.Sound c) (scope : ScopeId) (ty : EntryId) :
    Quietly c s (operandOf scope ty) fun v s' => s'.code.Has v ty ∧ s'.Reads scope v := by
  refine (operand_quietly hs scope _).mono ?_
  rintro v s' _ ⟨ty', hty, htest, hreads⟩
  exact ⟨Predicate.exactly_eq_true.mp htest ▸ hty, hreads⟩

omit [RandomSource ρ] in
theorem typeOf_quietly (hs : s.Sound c) (v : Value) :
    Quietly c s (typeOf v) fun ty s' => s' = s ∧ s.code.Has v ty := by
  refine (Quietly.query hs).seq ?_
  rintro o s - ⟨rfl, ho⟩
  refine Quietly.require _ hs fun ty hty => ⟨rfl, ?_⟩
  rw [hty] at ho
  exact ho

theorem typedOperand_quietly (hs : s.Sound c) (scope : ScopeId) (test : Predicate) :
    Quietly c s (typedOperand scope test) fun x s' =>
      s'.code.Has x.1 x.2 ∧ test s'.code x.2 = .ok true ∧ s'.Reads scope x.1 := by
  refine (operand_quietly hs scope test).seq ?_
  rintro v s₁ q₁ ⟨ty, hty, htest, hreads⟩
  refine (typeOf_quietly q₁.sound v).seq ?_
  rintro ty' s₁ - ⟨rfl, hty'⟩
  obtain rfl := hty.unique hty'
  exact .pure q₁.sound ⟨hty, htest, hreads⟩

/-- A pointer, with where it points and to what. -/
theorem pointerOperand_quietly (hs : s.Sound c) (scope : ScopeId) (test : Predicate) :
    Quietly c s (pointerOperand scope test) fun x s' => ∃ ty, s'.code.Has x.1 ty ∧
      s'.code.table.IsType ty (.pointer x.2.1 x.2.2) ∧ test s'.code x.2.2 = .ok true ∧
        s'.Reads scope x.1 := by
  refine (Quietly.ask hs).seq ?_
  rintro vs s - ⟨rfl, hvs⟩
  refine (hit_quietly hs fun v hv => mem_pointersWhere hvs hv).seq ?_
  rintro v s₁ q₁ ⟨ty, hty, htest, hreads⟩
  refine (typeOf_quietly q₁.sound v).seq ?_
  rintro ty' s₁ - ⟨rfl, hty'⟩
  obtain rfl := hty.unique hty'
  refine (Quietly.query q₁.sound).seq ?_
  rintro o s₁ - ⟨rfl, ho⟩
  refine (Quietly.require (fun x s' => s' = s₁ ∧ o = some x) q₁.sound fun _ h => ⟨rfl, h⟩).seq ?_
  rintro ⟨storage, pointee⟩ s₁ - ⟨rfl, rfl⟩
  obtain ⟨storage', pointee', hpointer, htest⟩ := Predicate.isType_of_pointerTo htest
  have hfound := Module.pointee?_eq_ok ho
  cases hfound.unique hpointer
  exact .pure q₁.sound ⟨ty, hty, hfound, htest, hreads⟩

end Gen

end ShaderGen
