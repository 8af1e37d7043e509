import ShaderGen.Proofs.Bounding
import ShaderGen.Proofs.CalmEntries

/-!
The entries of a session's tables. A table grows at its end and nowhere else, so the
tables a session has had are the initial parts of the one it ends with; and since
entries mention earlier ones only, an initial part of a well-formed table is
well-formed too. What that means is said here in the words of the questions that a
module answers: how many parts there are and of which types, and that the search for
a base type, the zero of a type and a constant of it come to an end.
-/

namespace ShaderGen

/-! ### Initial parts -/

section Initial

variable {c : Config} {t t' : Table} (hle : t ≤ t')
include hle

/-- A slot in the range of an initial part of a table holds the same there. -/
theorem Table.get?_of_lt_size {id : EntryId} {e : Entity} (h : t'.get? id = some e)
    (hlt : id.index < t.size) : t.get? id = some e := by
  have hget : t.get? id = some t.entries[id.index] := Array.getElem?_eq_getElem hlt
  rw [hget, ← hle hget, h]

theorem Table.HasConst.restrict {id ty : EntryId} (h : t'.HasConst id ty)
    (hlt : id.index < t.size) : t.HasConst id ty := by
  obtain ⟨k, hk, hty⟩ := h
  exact ⟨k, Table.get?_of_lt_size hle hk hlt, hty⟩

omit hle in
/-- What the entry of a slot in the range mentions is in the range too. -/
theorem Table.refs_lt_size (hwf : t'.WellFormed c) {id : EntryId} {e : Entity}
    (h : t'.get? id = some e) (hlt : id.index < t.size) : ∀ r ∈ e.refs, r.index < t.size :=
  fun r hr => (hwf.earlier h r hr).trans hlt

variable (hwf : t'.WellFormed c)
include hwf

/-- The length of an array is in front of the array. -/
theorem Table.length_of_lt_size {id element length ty : EntryId} {n : Nat}
    (ha : t'.IsType id (.array element length)) (hk : t'.IsConst length (.scalar ty (.uint n)))
    (hlt : id.index < t.size) : t.IsConst length (.scalar ty (.uint n)) :=
  Table.get?_of_lt_size hle hk
    (Table.refs_lt_size hwf ha hlt length (by simp [Entity.refs, Ty.refs]))

theorem Table.Arity.restrict {id : EntryId} {n : Nat} (h : t'.Arity id n)
    (hlt : id.index < t.size) : t.Arity id n := by
  cases h with
  | vector h => exact .vector (Table.get?_of_lt_size hle h hlt)
  | matrix h => exact .matrix (Table.get?_of_lt_size hle h hlt)
  | array h hk =>
    exact .array (Table.get?_of_lt_size hle h hlt) (Table.length_of_lt_size hle hwf h hk hlt)
  | struct h => exact .struct (Table.get?_of_lt_size hle h hlt)

theorem Table.Part.restrict {id part : EntryId} {i : Nat} (h : t'.Part id i part)
    (hlt : id.index < t.size) : t.Part id i part := by
  cases h with
  | vector h hi => exact .vector (Table.get?_of_lt_size hle h hlt) hi
  | matrix h hi => exact .matrix (Table.get?_of_lt_size hle h hlt) hi
  | array h hk hi =>
    exact .array (Table.get?_of_lt_size hle h hlt) (Table.length_of_lt_size hle hwf h hk hlt) hi
  | struct h hi => exact .struct (Table.get?_of_lt_size hle h hlt) hi

theorem Ty.WellFormed.restrict {ty : Ty} (h : ty.WellFormed c t')
    (hrefs : ∀ r ∈ ty.refs, r.index < t.size) : ty.WellFormed c t := by
  have hof {id : EntryId} {cat : Category} (hof : t'.IsOf id cat) (hid : id ∈ ty.refs) :
      t.IsOf id cat := by
    obtain ⟨u, hu, hmem⟩ := hof
    exact ⟨u, Table.get?_of_lt_size hle hu (hrefs id hid), hmem⟩
  cases ty with
  | void | bool | int | float => exact h
  | vector => exact ⟨h.1, hof h.2 (by simp [Ty.refs])⟩
  | matrix column =>
    obtain ⟨hn, scalar, rows, hcol, width, hscalar⟩ := h
    have hlt := hrefs column (by simp [Ty.refs])
    have hlt' := Table.refs_lt_size hwf hcol hlt scalar (by simp [Entity.refs, Ty.refs])
    exact ⟨hn, scalar, rows, Table.get?_of_lt_size hle hcol hlt, width,
      Table.get?_of_lt_size hle hscalar hlt'⟩
  | array element length =>
    obtain ⟨he, n, ⟨ty, hk, hty⟩, hn⟩ := h
    have hlt := hrefs length (by simp [Ty.refs])
    have hlt' := Table.refs_lt_size hwf hk hlt ty (by simp [Entity.refs, Const.refs])
    exact ⟨hof he (by simp [Ty.refs]), n, ⟨ty, Table.get?_of_lt_size hle hk hlt,
      Table.get?_of_lt_size hle hty hlt'⟩, hn⟩
  | struct => exact ⟨h.1, fun m hm => hof (h.2 m hm) hm⟩
  | pointer storage pointee =>
    obtain ⟨u, hu, hdata⟩ := h
    exact ⟨u, Table.get?_of_lt_size hle hu (hrefs pointee (by simp [Ty.refs])), hdata⟩
  | function result params =>
    exact ⟨Table.get?_of_lt_size hle h.1 (hrefs result (by simp [Ty.refs])),
      fun p hp => hof (h.2 p hp) (List.mem_cons_of_mem _ hp)⟩

theorem Const.WellFormed.restrict {k : Const} (h : k.WellFormed t')
    (hrefs : ∀ r ∈ k.refs, r.index < t.size) : k.WellFormed t := by
  cases k with
  | bool ty => exact Table.get?_of_lt_size hle h (hrefs ty (by simp [Const.refs]))
  | scalar ty =>
    have hlt := hrefs ty (by simp [Const.refs])
    rcases h with ⟨width, signed, hty, hfits⟩ | ⟨width, hty, hshown⟩
    · exact .inl ⟨width, signed, Table.get?_of_lt_size hle hty hlt, hfits⟩
    · exact .inr ⟨width, Table.get?_of_lt_size hle hty hlt, hshown⟩
  | composite ty parts =>
    have hlt := hrefs ty (by simp [Const.refs])
    refine ⟨h.1.restrict hle hwf hlt, fun i p hp => ?_⟩
    obtain ⟨part, hpart, hconst⟩ := h.2 i p hp
    have hp' := hrefs p (List.mem_cons_of_mem _ (List.mem_of_getElem? hp))
    exact ⟨part, hpart.restrict hle hwf hlt, hconst.restrict hle hp'⟩

theorem GlobalVar.WellFormed.restrict {v : GlobalVar} (h : v.WellFormed t')
    (hrefs : ∀ r ∈ v.refs, r.index < t.size) : v.WellFormed t := by
  obtain ⟨ty, storage, initial, serial⟩ := v
  obtain ⟨pointee, hty, h⟩ := h
  have hlt := hrefs ty (by simp [GlobalVar.refs])
  refine ⟨pointee, Table.get?_of_lt_size hle hty hlt, ?_⟩
  cases storage with
  | function => exact h
  | modulePrivate =>
    obtain ⟨k, hk, hconst⟩ := h
    dsimp only at hk
    subst hk
    exact ⟨k, rfl, hconst.restrict hle (hrefs k (by simp [GlobalVar.refs]))⟩
  | storageBuffer =>
    obtain ⟨⟨members, hmembers⟩, hnone⟩ := h
    have hpointee := Table.refs_lt_size hwf hty hlt pointee (by simp [Entity.refs, Ty.refs])
    exact ⟨⟨members, Table.get?_of_lt_size hle hmembers hpointee⟩, hnone⟩

/-- An initial part of a well-formed table is well-formed. -/
theorem Table.WellFormed.of_le : t.WellFormed c where
  entry := by
    intro id e he
    have hrefs := Table.refs_lt_size hwf (hle he) (Table.lt_size_of_get? he)
    have h := hwf.entry (hle he)
    cases e with
    | type => exact Ty.WellFormed.restrict hle hwf h hrefs
    | const => exact Const.WellFormed.restrict hle hwf h hrefs
    | var => exact GlobalVar.WellFormed.restrict hle hwf h hrefs
  earlier he := hwf.earlier (hle he)

end Initial

/-! ### Rules as answers -/

/-- The entries of a module are in order: each mentions earlier ones only and keeps
the rules of its kind. -/
structure Module.EntriesInOrder (m : Module) : Prop where
  earlier : ∀ {id e}, m.entity id = .ok e → ∀ r ∈ e.refs, r.index < id.index
  /-- The search for the base type of a type ends, at a type that is its own. -/
  baseType : ∀ {id ty}, m.typeAt id = .ok ty → ∃ base bty, m.baseType id = .ok base ∧
    m.typeAt base = .ok bty ∧ bty.isVector = false ∧ bty.isMatrix = false
  vector : ∀ {id element n}, m.typeAt id = .ok (.vector element n) →
    (2 ≤ n ∧ n ≤ 4) ∧ ∃ ty, m.typeAt element = .ok ty ∧ ty.isScalar = true
  matrix : ∀ {id column n}, m.typeAt id = .ok (.matrix column n) → (2 ≤ n ∧ n ≤ 4) ∧
    ∃ scalar rows width, m.typeAt column = .ok (.vector scalar rows) ∧
      m.typeAt scalar = .ok (.float width)
  array : ∀ {id element length}, m.typeAt id = .ok (.array element length) →
    (∃ ty, m.typeAt element = .ok ty ∧ (ty.isScalar || ty.isVector) = true) ∧
      ∃ ty n, m.constantAt? length = .ok (some (.scalar ty (.uint n))) ∧
        m.typeAt ty = .ok (.int 32 false) ∧ 1 ≤ n ∧ n ≤ 8
  struct : ∀ {id members}, m.typeAt id = .ok (.struct members) →
    (1 ≤ members.length ∧ members.length ≤ 4) ∧ ∀ x ∈ members, ∃ ty, m.typeAt x = .ok ty ∧
      ty.opcode ≠ .typeStruct ∧ ty.isPointer = false ∧ ty.isData = true
  function : ∀ {id result params}, m.typeAt id = .ok (.function result params) →
    m.typeAt result = .ok .void ∧
      ∀ p ∈ params, ∃ ty, m.typeAt p = .ok ty ∧ (ty.isScalar || ty.isVector) = true
  /-- The literal of an integer has the form of its type's signedness, and fits. -/
  integer : ∀ {id ty value width signed}, m.constantAt? id = .ok (some (.scalar ty value)) →
    m.typeAt ty = .ok (.int width signed) → value.Fits width signed
  composite : ∀ {id ty parts}, m.constantAt? id = .ok (some (.composite ty parts)) →
    m.componentCount ty = .ok parts.length ∧ ∀ i p, parts[i]? = some p →
      ∃ k, m.memberType? ty i = .ok (some k.ty) ∧ m.constantAt? p = .ok (some k)
  modulePrivate : ∀ {id v}, m.variableAt? id = .ok (some v) → v.storage = .modulePrivate →
    ∃ initial k, m.typeAt v.ty = .ok (.pointer .modulePrivate k.ty) ∧
      v.initializer = some initial ∧ m.constantAt? initial = .ok (some k)
  buffer : ∀ {id v}, m.variableAt? id = .ok (some v) → v.storage = .storageBuffer →
    ∃ pointee members, m.typeAt v.ty = .ok (.pointer .storageBuffer pointee) ∧
      m.typeAt pointee = .ok (.struct members) ∧ v.initializer = none

namespace Module

variable {c : Config} {m : Module} {id : EntryId}

theorem entity_eq_ok {e : Entity} : m.entity id = .ok e ↔ m.table.get? id = some e := by
  unfold entity
  rcases m.table.get? id with _ | _ <;> simp

theorem constantAt?_eq_some {k : Const} :
    m.constantAt? id = .ok (some k) ↔ m.table.IsConst id k := by
  unfold constantAt? entity Table.IsConst
  rcases m.table.get? id with _ | _ | _ | _ <;> simp [Functor.map, Except.map, Entity.const?]

theorem variableAt?_eq_some {v : GlobalVar} :
    m.variableAt? id = .ok (some v) ↔ m.table.get? id = some (.var v) := by
  unfold variableAt? entity
  rcases m.table.get? id with _ | _ | _ | _ <;> simp [Functor.map, Except.map, Entity.var?]

theorem ends_baseType (hwf : m.table.WellFormed c) {ty : Ty} (h : m.table.IsType id ty) :
    ∃ base bty, m.baseType id = .ok base ∧ m.typeAt base = .ok bty ∧ bty.isVector = false ∧
      bty.isMatrix = false := by
  have hscalar {scalar : EntryId} {n : Nat} {v : EntryId} (hl : m.table.Lanes v scalar n)
      (hbase : m.baseType id = .ok scalar) : ∃ base bty, m.baseType id = .ok base ∧
        m.typeAt base = .ok bty ∧ bty.isVector = false ∧ bty.isMatrix = false := by
    obtain ⟨bty, hb, hs⟩ := hl.isScalar
    exact ⟨scalar, bty, hbase, typeAt_eq_ok.mpr hb, not_vector_of_isScalar hs⟩
  cases ty with
  | vector =>
    have hl := Predicate.lanes_of_vector hwf h
    exact hscalar hl (baseType_of_lanes hl)
  | matrix =>
    obtain ⟨scalar, rows, hm⟩ := Predicate.isMatrix_of_isType hwf h
    exact hscalar hm.2.lanes (baseType_of_isMatrix hm)
  | _ => exact ⟨id, _, baseTypeWithin_of_isType h rfl rfl, typeAt_eq_ok.mpr h, rfl, rfl⟩

end Module

/-- What an array or a parameter may be: a scalar or a vector. -/
theorem Ty.isScalar_or_isVector {cat : Category} {ty : Ty}
    (hcat : cat = .arrayElementType ∨ cat = .arithmeticType) (h : ty.opcode ∈ cat.members) :
    (ty.isScalar || ty.isVector) = true := by
  rcases hcat with rfl | rfl
  all_goals cases ty <;> first | rfl | (revert h; simp [Ty.opcode, Category.members])

theorem Table.WellFormed.entriesInOrder {c : Config} {m : Module} (hwf : m.table.WellFormed c) :
    m.EntriesInOrder where
  earlier h := hwf.earlier (Module.entity_eq_ok.mp h)
  baseType h := Module.ends_baseType hwf (Module.typeAt_eq_ok.mp h)
  vector h := by
    obtain ⟨hn, ty, hty, hmem⟩ := hwf.entry (Module.typeAt_eq_ok.mp h)
    exact ⟨hn, ty, Module.typeAt_eq_ok.mpr hty, Ty.isScalar_of_mem hmem⟩
  matrix h := by
    obtain ⟨hn, scalar, rows, hcol, width, hscalar⟩ := hwf.entry (Module.typeAt_eq_ok.mp h)
    exact ⟨hn, scalar, rows, width, Module.typeAt_eq_ok.mpr hcol, Module.typeAt_eq_ok.mpr hscalar⟩
  array h := by
    obtain ⟨⟨ty, hty, hmem⟩, n, ⟨lty, hk, hlty⟩, hn⟩ := hwf.entry (Module.typeAt_eq_ok.mp h)
    exact ⟨⟨ty, Module.typeAt_eq_ok.mpr hty, Ty.isScalar_or_isVector (.inl rfl) hmem⟩, lty, n,
      Module.constantAt?_eq_some.mpr hk, Module.typeAt_eq_ok.mpr hlty, hn⟩
  struct h := by
    obtain ⟨hn, hmembers⟩ := hwf.entry (Module.typeAt_eq_ok.mp h)
    refine ⟨hn, fun x hx => ?_⟩
    obtain ⟨ty, hty, hmem⟩ := hmembers x hx
    have hdata := Ty.isData_of_mem (show Category.structMemberType.isType from rfl)
      (by decide) hmem
    refine ⟨ty, Module.typeAt_eq_ok.mpr hty, fun hop => ?_, ?_, hdata⟩
    · rw [hop] at hmem
      exact absurd hmem (by decide)
    · cases ty <;> first | rfl | cases hdata
  function h := by
    obtain ⟨hr, hparams⟩ := hwf.entry (Module.typeAt_eq_ok.mp h)
    refine ⟨Module.typeAt_eq_ok.mpr hr, fun p hp => ?_⟩
    obtain ⟨ty, hty, hmem⟩ := hparams p hp
    exact ⟨ty, Module.typeAt_eq_ok.mpr hty, Ty.isScalar_or_isVector (.inr rfl) hmem⟩
  integer h hty := by
    have hty := Module.typeAt_eq_ok.mp hty
    rcases hwf.entry (Module.constantAt?_eq_some.mp h) with ⟨_, _, hint, hfits⟩ | ⟨_, hfloat, _⟩
    · cases hty.unique hint
      exact hfits
    · cases hty.unique hfloat
  composite h := by
    obtain ⟨harity, hparts⟩ := hwf.entry (Module.constantAt?_eq_some.mp h)
    refine ⟨Module.componentCount_of_arity hwf harity, fun i p hp => ?_⟩
    obtain ⟨part, hpart, k, hk, rfl⟩ := hparts i p hp
    exact ⟨k, Module.memberType?_of_part hwf hpart, Module.constantAt?_eq_some.mpr hk⟩
  modulePrivate := by
    rintro id v h hstorage
    obtain ⟨pointee, hty, hrest⟩ := hwf.entry (Module.variableAt?_eq_some.mp h)
    rw [hstorage] at hty hrest
    obtain ⟨initial, hinitial, k, hk, rfl⟩ := hrest
    exact ⟨initial, k, Module.typeAt_eq_ok.mpr hty, hinitial, Module.constantAt?_eq_some.mpr hk⟩
  buffer := by
    rintro id v h hstorage
    obtain ⟨pointee, hty, hrest⟩ := hwf.entry (Module.variableAt?_eq_some.mp h)
    rw [hstorage] at hty hrest
    obtain ⟨⟨members, hmembers⟩, hnone⟩ := hrest
    exact ⟨pointee, members, Module.typeAt_eq_ok.mpr hty, Module.typeAt_eq_ok.mpr hmembers, hnone⟩

/-! ### Sessions -/

section Sessions

variable {ρ : Type} [RandomSource ρ] [BoundedRandomSource ρ] {c : Config}

omit [RandomSource ρ] [BoundedRandomSource ρ] in
/-- The zero of a type is found, or the type has none. -/
theorem Gen.zero_ends {s : State ρ} (hs : s.Sound c) {ty : EntryId}
    (hty : s.code.table.HoldsType ty) : Ends (zero ty) c s
      (fun id s' => s'.code.table.HasConst id ty) (fun e _ => e = .infeasible) :=
  ((zero_quietly hs ty).and (zero_calmly hs hty)).mono (fun _ _ h => h.1.2)
    fun _ _ h => Calmly.eq_infeasible h.2

/-- A constant of a type is found, or the type has none. -/
theorem Gen.constantOf_ends {s : State ρ} (hs : s.Sound c) {ty : EntryId}
    (hty : s.code.table.HoldsType ty) : Ends (constantOf ty) c s
      (fun id s' => s'.code.table.HasConst id ty) (fun e _ => e = .infeasible) :=
  ((constantOf_quietly hs ty).and (constantOf_calmly hs hty)).mono (fun _ _ h => h.1.2)
    fun _ _ h => Calmly.eq_infeasible h.2

namespace Config

theorem small_validate : small.validate = .ok () := by
  obtain ⟨s, hs, _⟩ := small_shaderFrom
  rcases h : small.validate with e | _
  · simp [shaderFrom, h] at hs
  · rfl

end Config

end Sessions

end ShaderGen
