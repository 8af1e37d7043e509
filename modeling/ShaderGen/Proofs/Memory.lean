import ShaderGen.Proofs.Production
import ShaderGen.Statement.Memory

/-!
Statements about storage keep their typing rules. A variable of a function starts
with a constant of its type; what is read or written behind a pointer has the type
the pointer leads to, and a pointer to a part follows the parts of the type.
-/

namespace ShaderGen

/-- No composite has more than eight parts. -/
theorem Table.Part.lt {t : Table} {c : Config} (hwf : t.WellFormed c) {id part : EntryId} {i : Nat}
    (h : t.Part id i part) : i < 8 := by
  cases h with
  | vector h hi =>
    obtain ⟨⟨_, _⟩, _⟩ := hwf.entry h
    omega
  | matrix h hi =>
    obtain ⟨⟨_, _⟩, _⟩ := hwf.entry h
    omega
  | array h hl hi =>
    obtain ⟨_, n, ⟨_, hk, _⟩, _, _⟩ := hwf.entry h
    cases hk.unique hl
    omega
  | struct h hi =>
    obtain ⟨⟨_, _⟩, _⟩ := hwf.entry h
    have := (List.getElem?_eq_some_iff.mp hi).1
    omega

theorem Ty.isData_of_mem {cat : Category} {ty : Ty} (hcat : cat.isType = true) (hne : cat ≠ .type)
    (h : ty.opcode ∈ cat.members) : ty.isData = true := by
  cases ty <;> first
    | rfl
    | (cases cat <;> simp [Ty.opcode, Category.members, Category.isType] at h hcat hne)

theorem Ty.isData_of_isComposite {ty : Ty} (h : ty.isComposite = true) : ty.isData = true := by
  cases ty <;> first | rfl | (simp [Ty.isComposite] at h)

theorem Table.IsOf.isData {t : Table} {id : EntryId} {cat : Category} (hcat : cat.isType = true)
    (hne : cat ≠ .type) (h : t.IsOf id cat) : t.IsData id := by
  obtain ⟨ty, hty, hmem⟩ := h
  exact ⟨ty, hty, Ty.isData_of_mem hcat hne hmem⟩

theorem Table.Arity.isData {t : Table} {id : EntryId} {n : Nat} (h : t.Arity id n) :
    t.IsData id := by
  cases h with
  | vector h => exact ⟨_, h, rfl⟩
  | matrix h => exact ⟨_, h, rfl⟩
  | array h => exact ⟨_, h, rfl⟩
  | struct h => exact ⟨_, h, rfl⟩

/-- The type of a constant is one whose values can be copied. -/
theorem Table.HasConst.isData {t : Table} {c : Config} (hwf : t.WellFormed c) {id ty : EntryId}
    (h : t.HasConst id ty) : t.IsData ty := by
  obtain ⟨k, hk, rfl⟩ := h
  have hrules := hwf.entry hk
  cases k with
  | bool => exact ⟨_, hrules, rfl⟩
  | scalar =>
    obtain ⟨_, _, hty, -⟩ | ⟨_, hty, -⟩ := hrules
    · exact ⟨_, hty, rfl⟩
    · exact ⟨_, hty, rfl⟩
  | composite =>
    obtain ⟨harity, -⟩ := hrules
    exact harity.isData

/-- The parts of a composite can be stored and copied. -/
theorem Table.Part.isData {t : Table} {c : Config} (hwf : t.WellFormed c) {id part : EntryId}
    {i : Nat} (h : t.Part id i part) : t.IsData part := by
  cases h with
  | vector h hi => exact (hwf.entry h).2.isData rfl (by decide)
  | matrix h hi =>
    obtain ⟨_, scalar, rows, hcol, _⟩ := hwf.entry h
    exact ⟨_, hcol, rfl⟩
  | array h hl hi => exact (hwf.entry h).1.isData rfl (by decide)
  | struct h hi => exact ((hwf.entry h).2 _ (List.mem_of_getElem? hi)).isData rfl (by decide)

theorem Table.Path.isData {t : Table} {c : Config} (hwf : t.WellFormed c) {id target : EntryId}
    {path : List Nat} (h : t.Path id path target) (hid : t.IsData id) : t.IsData target := by
  induction h with
  | nil => exact hid
  | cons hpart _ ih => exact ih (hpart.isData hwf)

namespace Gen

variable {ρ : Type} [RandomSource ρ] {c : Config} {s : State ρ}

/-! ### Variables -/

/-- A new variable of a function is one instruction. -/
theorem newVariable_function_leads (hs : s.Sound c) (scope : ScopeId) {ty : EntryId}
    (hty : s.code.table.IsData ty) :
    Leads c s (newVariable .function ty) fun s v s' =>
      ∃ id, v = .instr id ∧ Produces c scope s { visible := [id], hoisted := [id] } s' := by
  have hR : Rebases (ρ := ρ) c fun s v s' =>
      ∃ id, v = Value.instr id ∧ Produces c scope s { visible := [id], hoisted := [id] } s' := by
    rintro s s₁ v s' q ⟨id, hv, hp⟩
    exact ⟨id, hv, rebases_produces q hp⟩
  refine (Quietly.internType hs (.pointer .function ty) hty).lead hR
    fun pointer s₁ q₁ hpointer => ?_
  refine (initializer_quietly q₁.sound ty).lead hR fun initial s₂ q₂ hinitial => ?_
  refine Ends.bind ((alloc_steadily q₂.sound (.var (q₂.table_le hpointer) hinitial)).mono
    (fun id s₃ h => ?_) fun _ _ he => he.halts)
  exact ⟨id, rfl, h.hoists rfl⟩

theorem localVariable_leads (hs : s.Sound c) (scope : ScopeId) :
    Leads c s localVariable (Produces c scope) := by
  refine (variableType_quietly hs).lead rebases_produces fun ty s₁ q₁ hty => ?_
  refine (newVariable_function_leads q₁.sound scope hty).seq ?_
  rintro _ s₂ ⟨id, rfl, hp⟩
  exact hp

/-! ### Loads and stores -/

theorem load_leads (hs : s.Sound c) (scope : ScopeId) :
    Leads c s (load scope) (Produces c scope) := by
  refine (pointerOperand_quietly hs scope _).lead rebases_produces ?_
  rintro ⟨pointer, storage, pointee⟩ s₁ q₁ ⟨ty, hpointer, hty, htest, hreads⟩
  exact apply_leads q₁.sound [pointer] (.cons hpointer .nil) (by simpa using hreads)
    (.load hty (Predicate.isData_of_data htest))

theorem store_leads (hs : s.Sound c) (scope : ScopeId) :
    Leads c s (store scope) (Produces c scope) := by
  refine (pointerOperand_quietly hs scope _).lead rebases_produces ?_
  rintro ⟨pointer, storage, pointee⟩ s₁ q₁ ⟨ty, hpointer, hty, htest, hreads⟩
  have hdata := Predicate.isData_of_data htest
  refine (operandOf_quietly q₁.sound scope pointee).lead rebases_produces ?_
  rintro v s₂ q₂ ⟨hv, hreads'⟩
  have htyped : s₂.code.Typed ⟨.store, none, [.value pointer, .value v]⟩ :=
    .store (hpointer.mono q₂.later) (q₂.table_le hty) hv (hdata.mono q₂.table_le)
  refine Ends.bind ((alloc_steadily q₂.sound htyped).mono (fun id s₃ h => ?_)
    fun _ _ he => he.halts)
  refine h.produces rfl (fun u hu => ?_) (by simp)
  have hmem : u ∈ [pointer, v] := hu
  simp at hmem
  rcases hmem with rfl | rfl
  · exact hreads.after q₂
  · exact hreads'

/-! ### Pointers to parts -/

variable [BoundedRandomSource ρ]

theorem randomPart_quietly (hs : s.Sound c) (ty : EntryId) :
    Quietly c s (randomPart ty) fun x s' => s'.code.table.Part ty x.1 x.2 := by
  refine (Quietly.query hs).seq ?_
  rintro n s - ⟨rfl, _⟩
  refine (range_quietly hs (Nat.zero_le _)).seq fun index s₁ q₁ _ => ?_
  exact .part q₁.sound fun part hpart => .pure q₁.sound hpart

/-- Constants that lead along parts, one level at least into a composite. -/
theorem constantPath_quietly (levels : Nat) (hs : s.Sound c) {ty : EntryId} {t : Ty}
    (ht : s.code.table.IsType ty t) :
    Quietly c s (constantPath levels ty) fun x s' => ∃ path,
      List.Forall₂ s'.code.table.IsIndex x.1 path ∧ s'.code.table.Path ty path x.2 ∧
        (levels ≠ 0 → t.isComposite = true → path ≠ []) := by
  induction levels generalizing s ty t with
  | zero => exact .pure hs ⟨[], .nil, .nil, by simp⟩
  | succ levels ih =>
    refine (Quietly.typeAt hs _).seq ?_
    rintro t' s - ⟨rfl, ht'⟩
    obtain rfl := ht.unique ht'
    split
    · refine (randomPart_quietly hs ty).seq ?_
      rintro ⟨index, part⟩ s₁ q₁ hpart
      have hlt := hpart.lt q₁.sound.table
      refine (indexConstant_quietly q₁.sound (by omega)).seq fun constant s₂ q₂ hconstant => ?_
      obtain ⟨pt, hpt, _⟩ := (hpart.mono q₂.table_le).isData q₂.sound.table
      refine (ih q₂.sound hpt).seq ?_
      rintro ⟨ids, target⟩ s₃ q₃ ⟨path, hids, hpath, _⟩
      exact .pure q₃.sound ⟨index :: path, .cons (hconstant.mono q₃.table_le) hids,
        .cons (hpart.mono (q₂.trans q₃).table_le) hpath, by simp⟩
    · rename_i hnot
      exact .pure hs ⟨[], .nil, .nil, fun _ hc => absurd hc hnot⟩

theorem accessChain_leads (hs : s.Sound c) (scope : ScopeId) :
    Leads c s (accessChain scope) (Produces c scope) := by
  refine (pointerOperand_quietly hs scope _).lead rebases_produces ?_
  rintro ⟨base, storage, pointee⟩ s₁ q₁ ⟨pty, hbase, hpty, htest, hreads⟩
  obtain ⟨t, ht, hcomposite⟩ := Predicate.ofTy_eq_true.mp htest
  refine (range_quietly q₁.sound (by decide)).lead rebases_produces fun levels s₂ q₂ hlevels => ?_
  refine (constantPath_quietly levels q₂.sound (q₂.table_le ht)).lead rebases_produces ?_
  rintro ⟨ids, target⟩ s₃ q₃ ⟨path, hids, hpath, hne⟩
  have htarget := hpath.isData q₃.sound.table
    ⟨t, (q₂.trans q₃).table_le ht, Ty.isData_of_isComposite hcomposite⟩
  refine (Quietly.internType q₃.sound (.pointer storage target) htarget).lead rebases_produces
    fun r s₄ q₄ hr => ?_
  have q := q₂.trans (q₃.trans q₄)
  refine emit_leads q₄.sound (.accessChain (hbase.mono q.later) (q.table_le hpty)
    (hne (by omega) hcomposite) (hids.imp fun _ _ h => h.mono q₄.table_le)
    (hpath.mono q₄.table_le) hr) rfl fun v hv => ?_
  rcases List.mem_cons.mp hv with hv | hv
  · cases hv
    exact hreads.after q
  · -- the indices are constants, which may be read anywhere
    obtain ⟨id, _, hid⟩ := List.mem_map.mp hv
    cases hid
    exact State.reads_entry id

end Gen

end ShaderGen
