import ShaderGen.Proofs.Conservation
import ShaderGen.Proofs.EmissionErrors

/-!
Ids and the changes made after they were assigned. A change of the stream discards the
ids; the module can grow under them. What was assigned stays right as long as the table
and the imports do not grow: new instructions are not in the stream and annotations have
no ids. A shader that can be written at all is written as it would be with ids assigned
anew.
-/

namespace ShaderGen

/-! ### Modules in range that grow -/

namespace Module

variable {m m' : Module}

/-- Interning what is in range keeps a module in range. -/
theorem InRange.intern (hm : m.InRange) {e : Entity} (hrefs : ∀ r ∈ e.refs, r.index < m.table.size)
    (htyped : ∀ k, e = .const k → ∃ t, m.table.IsType k.ty t) : (m.intern e).2.InRange := by
  have hle : m.table.size ≤ (m.intern e).2.table.size := Table.size_le (m.table.le_intern e)
  have hold {x : Entity} (hx : x ∈ (m.intern e).2.table.entries) :
      x ∈ m.table.entries ∨ x = e := by
    obtain ⟨j, hj⟩ := Array.mem_iff_getElem?.mp hx
    rcases @Table.get?_intern_cases _ _ _ ⟨j⟩ hj with hthere | ⟨hnew, -⟩
    · exact .inl (Array.mem_of_getElem? hthere)
    · exact .inr hnew
  exact {
    annotations := fun a ha => (hm.annotations a ha).trans_le hle
    entries := fun x hx r hr => by
      rcases hold hx with hthere | rfl
      · exact (hm.entries x hthere r hr).trans_le hle
      · exact (hrefs r hr).trans_le hle
    constants := fun k hk => by
      have htype : ∃ t, m.table.IsType k.ty t := by
        rcases hold hk with hthere | heq
        · exact hm.constants k hthere
        · exact htyped k heq.symm
      exact htype.imp fun _ ht => m.table.le_intern e ht
    results := fun i hi ty hty => (hm.results i hi ty hty).trans_le hle
    operands := fun i hi r hr => (hm.operands i hi r hr).trans_le hle
    imports := hm.imports }

/-- The entries and imports an instruction mentions exist. -/
structure Admits (m : Module) (i : Instr) : Prop where
  result : ∀ ty ∈ i.resultType, ty.index < m.table.size
  operands : ∀ r, .entry r ∈ i.operands → r.index < m.table.size
  imports : ∀ set, .importSet set ∈ i.operands → set.index < m.imports.size

/-- A module stays in range if each of its instructions was there, or is admitted. -/
theorem InRange.withInstrs (hm : m.InRange) {instrs : Array Instr}
    (h : ∀ i ∈ instrs, i ∈ m.instrs ∨ m.Admits i) : ({ m with instrs } : Module).InRange where
  annotations := hm.annotations
  entries := hm.entries
  constants := hm.constants
  results i hi := (h i hi).elim (hm.results i) (·.result)
  operands i hi := (h i hi).elim (hm.operands i) (·.operands)
  imports i hi := (h i hi).elim (hm.imports i) (·.imports)

theorem InRange.alloc (hm : m.InRange) {i : Instr} (hi : m.Admits i) : (m.alloc i).2.InRange :=
  hm.withInstrs fun j hj => by
    rcases Array.mem_push.mp hj with hthere | rfl
    · exact .inl hthere
    · exact .inr hi

theorem InRange.admits (hm : m.InRange) {i : Instr} (hi : i ∈ m.instrs) : m.Admits i where
  result := hm.results i hi
  operands := hm.operands i hi
  imports := hm.imports i hi

/-- An operand may be replaced by an instruction. -/
theorem Admits.setOperand {i : Instr} (hi : m.Admits i) (slot : Nat) (d : InstrId) :
    m.Admits (i.setOperand slot (.instr d)) := by
  have hold {o : Operand} (ho : o ∈ (i.setOperand slot (.instr d)).operands) (hne : o ≠ .instr d) :
      o ∈ i.operands := (List.mem_or_eq_of_mem_set ho).resolve_right hne
  exact ⟨hi.result, fun r hr => hi.operands r (hold hr nofun),
    fun set hset => hi.imports set (hold hset nofun)⟩

theorem InRange.setOperand (hm : m.InRange) (id : InstrId) (slot : Nat) (d : InstrId) :
    (m.setOperand id slot (.instr d)).InRange := by
  refine hm.withInstrs fun i hi => ?_
  obtain ⟨j, hj⟩ := Array.mem_iff_getElem?.mp hi
  rw [Array.getElem?_modify] at hj
  split_ifs at hj
  · obtain ⟨i', hi', rfl⟩ := Option.map_eq_some_iff.mp hj
    exact .inr ((hm.admits (Array.mem_of_getElem? hi')).setOperand slot d)
  · exact .inl (Array.mem_of_getElem? hj)

theorem InRange.annotate (hm : m.InRange) {a : Annotation} (ha : a.target.index < m.table.size) :
    (m.annotate a).InRange where
  annotations b hb := by
    rcases Array.mem_push.mp hb with hthere | rfl
    · exact hm.annotations b hthere
    · exact ha
  entries := hm.entries
  constants := hm.constants
  results := hm.results
  operands := hm.operands
  imports := hm.imports

/-- Importing a set can only add to the imports. -/
theorem importSet_eq (m : Module) (name : String) : ∃ imports, m.imports.size ≤ imports.size ∧
    (m.importSet name).2 = { m with imports } := by
  unfold importSet
  split
  · exact ⟨m.imports, le_refl _, rfl⟩
  · exact ⟨m.imports.push name, by simp, rfl⟩

theorem InRange.withImports (hm : m.InRange) {imports : Array String}
    (hle : m.imports.size ≤ imports.size) : ({ m with imports } : Module).InRange :=
  { hm with imports := fun i hi set hset => (hm.imports i hi set hset).trans_le hle }

end Module

namespace DynamicIndex

variable {m m' : Module}

/-- Bounding an access keeps a module in range. -/
theorem inRange_of_bound {id : InstrId} {inserted : Option InstrId} (hm : m.InRange)
    (h : bound m id = .ok (inserted, m')) : m'.InRange := by
  simp only [bound, bind_eq_ok, Module.instr_eq_ok] at h
  obtain ⟨i, hi, _ | a, haccess, h⟩ := h
  · cases h
    exact hm
  obtain ⟨-, ⟨-, -, hindex, -⟩, t, ht, -⟩ := access?_eq_some.mp haccess
  have htype : m.table.IsType a.indexTy t := Module.typeAt_eq_ok.mp ht
  have hlt : a.indexTy.index < m.table.size := (Array.getElem?_eq_some_iff.mp htype).1
  simp only [bind_eq_ok] at h
  obtain ⟨⟨length, m₁⟩, hconst, already, -, h⟩ := h
  obtain ⟨literal, hk⟩ := Module.exists_internConst hconst
  obtain ⟨hlength, rfl⟩ := Prod.mk.inj hk
  have h₁ : (m.internConst (.scalar a.indexTy literal)).2.InRange :=
    hm.intern (by simpa [Entity.refs, Const.refs] using hlt) (by rintro _ ⟨⟩; exact ⟨t, htype⟩)
  cases already with
  | true =>
    cases h
    exact h₁
  | false =>
    cases h
    refine (h₁.alloc ?_).setOperand _ _ _
    have hle := Table.size_le (m.table.le_intern (.const (.scalar a.indexTy literal)))
    have hthere := Table.get?_intern m.table (.const (.scalar a.indexTy literal))
    have hlength : length.index < (m.internConst (.scalar a.indexTy literal)).2.table.size := by
      rw [← hlength]
      exact (Array.getElem?_eq_some_iff.mp hthere).1
    refine ⟨fun ty hty => ?_, fun r hr => ?_, fun set hset => ?_⟩
    · cases hty
      exact hlt.trans_le hle
    · -- the index was an operand already
      rcases List.mem_pair.mp hr with heq | heq
      · have hmem : .entry r ∈ i.operands := List.mem_of_getElem? (heq ▸ hindex)
        exact (hm.operands i (Array.mem_of_getElem? hi) r hmem).trans_le hle
      · cases heq
        exact hlength
    · rcases List.mem_pair.mp hset with heq | heq
      · cases heq
      · cases heq

theorem inRange_of_boundAll {ids ids' : List InstrId} {count : Nat} (hm : m.InRange)
    (h : boundAll m ids = .ok (ids', count, m')) : m'.InRange := by
  induction ids generalizing m m' ids' count with
  | nil =>
    cases h
    exact hm
  | cons id ids ih =>
    simp only [boundAll, bind_eq_ok] at h
    obtain ⟨⟨inserted, m₁⟩, hone, ⟨rest, k, m₂⟩, hrest, h⟩ := h
    have h₂ := ih (inRange_of_bound hm hone) hrest
    cases inserted with
    | none =>
      cases h
      exact h₂
    | some modulo =>
      cases h
      exact h₂

end DynamicIndex

/-! ### Numbering again -/

namespace Numbering

/-- Two numberings that give the same ids. -/
structure Agrees (n n' : Numbering) : Prop where
  imports : n.imports = n'.imports
  entries : n.entries = n'.entries
  instr : ∀ id, n.instrId? id = n'.instrId? id

/-- A larger arena gives the instructions of a stream the same ids. -/
theorem number_agrees {ids ids' more : Array (Option Nat)} {next next' : Nat}
    {body : List InstrId} (hsize : ids.size ≤ more.size)
    (hids : ∀ j : Nat, ids[j]?.join = more[j]?.join)
    (h : number ids next body = .ok (ids', next')) :
    ∃ more', number more next body = .ok (more', next') ∧
      ∀ j : Nat, ids'[j]?.join = more'[j]?.join := by
  induction body generalizing ids more next with
  | nil =>
    cases h
    exact ⟨more, rfl, hids⟩
  | cons d body ih =>
    rw [number] at h
    split_ifs at h with hlt
    rw [number, dif_pos (hlt.trans_le hsize)]
    refine ih (by simpa using hsize) (fun j => ?_) h
    rw [Array.getElem?_set, Array.getElem?_set]
    split_ifs
    · rfl
    · exact hids j

/-- Whether the table and the imports have grown is all that matters to the ids of a stream. -/
theorem assign_agrees {m m' : Module} {body : List InstrId} {n : Numbering}
    (h : assign m body = .ok n) (himports : m.imports.size = m'.imports.size)
    (htable : m.table.size = m'.table.size) (hinstrs : m.instrs.size ≤ m'.instrs.size) :
    ∃ n', assign m' body = .ok n' ∧ n.Agrees n' := by
  simp only [assign, bind_eq_ok, pure_eq_ok] at h
  obtain ⟨⟨ids, next⟩, hnumber, next', hnext, rfl⟩ := h
  have hnone (j : Nat) : (Array.replicate m.instrs.size (none : Option Nat))[j]?.join =
      (Array.replicate m'.instrs.size none)[j]?.join := by
    rw [Array.getElem?_replicate, Array.getElem?_replicate]
    split_ifs <;> rfl
  obtain ⟨more, hmore, hagrees⟩ := number_agrees (by simpa using hinstrs) hnone hnumber
  rw [himports, htable] at hmore
  refine ⟨⟨m'.imports.size, m'.table.size, more, next'⟩, ?_, himports, htable,
    fun id => hagrees id.index⟩
  simp only [assign, hmore, hnext, bind, Except.bind]
  rfl

/-- Ids from `first` on, of which no two are the same. -/
structure Spread (first : Nat) (ids : Array (Option Nat)) (next : Nat) : Prop where
  bounds : ∀ j k : Nat, ids[j]? = some (some k) → first ≤ k ∧ k < next
  distinct : ∀ i j k : Nat, ids[i]? = some (some k) → ids[j]? = some (some k) → i = j

theorem Spread.set {first next : Nat} {ids : Array (Option Nat)} (h : Spread first ids next)
    (hfirst : first ≤ next) {i : Nat} (hi : i < ids.size) :
    Spread first (ids.set i (some next)) (next + 1) where
  bounds j k hk := by
    rw [Array.getElem?_set] at hk
    split_ifs at hk with hj
    · cases hk
      exact ⟨hfirst, Nat.lt_succ_self _⟩
    · exact (h.bounds j k hk).imp_right Nat.lt_succ_of_lt
  distinct a b k ha hb := by
    -- the new id is larger than those handed out before
    rw [Array.getElem?_set] at ha hb
    split_ifs at ha hb with hia hib hib
    · exact hia.symm.trans hib
    · cases ha
      exact absurd (h.bounds b _ hb).2 (Nat.lt_irrefl _)
    · cases hb
      exact absurd (h.bounds a _ ha).2 (Nat.lt_irrefl _)
    · exact h.distinct a b k ha hb

theorem spread_of_number {first next next' : Nat} {ids ids' : Array (Option Nat)}
    {body : List InstrId} (hids : Spread first ids next) (hfirst : first ≤ next)
    (h : number ids next body = .ok (ids', next')) : Spread first ids' next' := by
  induction body generalizing ids next with
  | nil =>
    cases h
    exact hids
  | cons d body ih =>
    rw [number] at h
    split_ifs at h with hlt
    exact ih (hids.set hfirst hlt) (hfirst.trans (Nat.le_succ _)) h

end Numbering

/-- What has an id. -/
inductive Numbered where
  | importSet (id : ImportId)
  | entry (id : EntryId)
  | instr (id : InstrId)

/-- The id of something. -/
inductive Numbering.Gives (n : Numbering) : Numbered → Nat → Prop where
  | importSet {id : ImportId} {k : Nat} (h : n.importId id = .ok k) : Gives n (.importSet id) k
  | entry {id : EntryId} {k : Nat} (h : n.entryId id = .ok k) : Gives n (.entry id) k
  | instr {id : InstrId} {k : Nat} (h : n.instrId? id = some k) : Gives n (.instr id) k

/-- What is written in a shader: its imports, its entries and its stream. -/
def Shader.Has (s : Shader) : Numbered → Prop
  | .importSet id => id.index < s.code.imports.size
  | .entry id => id.index < s.code.table.size
  | .instr id => id ∈ s.body

/-- Everything in a shader has an id, and nothing else has the same. -/
structure Shader.Identified (s : Shader) (n : Numbering) : Prop where
  all : ∀ x, s.Has x → ∃ k, n.Gives x k
  distinct : ∀ x y k, n.Gives x k → n.Gives y k → x = y

namespace Numbering

theorem gives_importSet {n : Numbering} {id : ImportId} {k : Nat}
    (h : n.Gives (.importSet id) k) : id.index < n.imports ∧ k = id.index + 1 := by
  cases h with
  | importSet h =>
    rw [importId] at h
    split_ifs at h with hlt
    cases h
    exact ⟨hlt, rfl⟩

theorem gives_entry {n : Numbering} {id : EntryId} {k : Nat}
    (h : n.Gives (.entry id) k) : id.index < n.entries ∧ k = n.imports + id.index + 1 := by
  cases h with
  | entry h =>
    rw [entryId] at h
    split_ifs at h with hlt
    cases h
    exact ⟨hlt, rfl⟩

theorem gives_instr {n : Numbering} {id : InstrId} {k : Nat} (h : n.Gives (.instr id) k) :
    n.instrs[id.index]? = some (some k) := by
  cases h with
  | instr h => exact Option.join_eq_some_iff.mp h

/-- Assigning gives the instructions ids behind those of the imports and the entries. -/
theorem spread_of_assign {m : Module} {body : List InstrId} {n : Numbering}
    (h : assign m body = .ok n) : Spread (n.imports + n.entries + 1) n.instrs n.next := by
  simp only [assign, bind_eq_ok, pure_eq_ok] at h
  obtain ⟨⟨ids, next⟩, hnumber, next', hnext, rfl⟩ := h
  have hstart : Spread (m.imports.size + m.table.size + 1) (Array.replicate m.instrs.size none)
      (m.imports.size + m.table.size + 1) :=
    ⟨fun j k hk => by simp [Array.getElem?_replicate] at hk,
      fun i j k hk => by simp [Array.getElem?_replicate] at hk⟩
  have hend := spread_of_number hstart (Nat.le_refl _) hnumber
  rw [Fault.checkWord] at hnext
  split_ifs at hnext
  cases hnext
  exact hend

/-- The ids of the three kinds are ranges one behind the other. -/
theorem distinct_of_assign {m : Module} {body : List InstrId} {n : Numbering}
    (h : assign m body = .ok n) (x y : Numbered) (k : Nat) (hx : n.Gives x k)
    (hy : n.Gives y k) : x = y := by
  have hspread := spread_of_assign h
  cases x with
  | importSet a =>
    obtain ⟨ha, rfl⟩ := gives_importSet hx
    cases y with
    | importSet b =>
      obtain ⟨-, hb⟩ := gives_importSet hy
      exact congrArg Numbered.importSet (congrArg ImportId.mk (by omega))
    | entry b =>
      have := gives_entry hy
      omega
    | instr b =>
      have := hspread.bounds _ _ (gives_instr hy)
      omega
  | entry a =>
    obtain ⟨ha, rfl⟩ := gives_entry hx
    cases y with
    | importSet b =>
      have := gives_importSet hy
      omega
    | entry b =>
      obtain ⟨-, hb⟩ := gives_entry hy
      exact congrArg Numbered.entry (congrArg EntryId.mk (by omega))
    | instr b =>
      have := hspread.bounds _ _ (gives_instr hy)
      omega
  | instr a =>
    have ha := hspread.bounds _ _ (gives_instr hx)
    cases y with
    | importSet b =>
      have := gives_importSet hy
      omega
    | entry b =>
      have := gives_entry hy
      omega
    | instr b =>
      have hindex := hspread.distinct _ _ _ (gives_instr hx) (gives_instr hy)
      exact congrArg Numbered.instr (congrArg InstrId.mk hindex)

/-- Ids that serve a shader name all of it. -/
theorem Serves.identified {n : Numbering} {m : Module} {s : Shader}
    (hn : n.Serves s.code s.body.toList) (h : assign m s.body.toList = .ok n) :
    s.Identified n where
  all x hx := by
    cases x with
    | importSet id => exact ⟨id.index + 1, .importSet (if_pos (hn.imports ▸ hx))⟩
    | entry id => exact ⟨n.imports + id.index + 1, .entry (if_pos (hn.entries ▸ hx))⟩
    | instr id =>
      obtain ⟨k, hk⟩ := hn.instr.mpr (Array.mem_toList_iff.mpr hx)
      exact ⟨k, .instr hk⟩
  distinct := distinct_of_assign h

end Numbering

/-! ### The same ids, the same text -/

namespace Emission

variable {n n' : Numbering} (h : n.Agrees n')
include h

theorem importLine_congr : importLine n = importLine n' := by
  funext index name
  simp only [importLine, Numbering.importId, h.imports]

theorem entryWord_congr : entryWord n = entryWord n' := by
  funext id
  simp only [entryWord, Numbering.entryId, h.imports, h.entries]

theorem valueId_congr : valueId n = valueId n' := by
  funext v
  cases v with
  | entry id => simp only [valueId, Numbering.entryId, h.imports, h.entries]
  | instr id => simp only [valueId, h.instr]

theorem annotationLine_congr : annotationLine n = annotationLine n' := by
  funext a
  cases a <;> simp only [annotationLine, entryWord_congr h]

theorem typeWords_congr : typeWords n = typeWords n' := by
  funext t
  cases t <;> simp only [typeWords, entryWord_congr h]

theorem entryLine_congr (m : Module) : entryLine m n = entryLine m n' := by
  funext id e
  simp only [entryLine, Numbering.entryId, constWords, varWords, h.imports, h.entries,
    typeWords_congr h, entryWord_congr h]

theorem operandWord_congr : operandWord n = operandWord n' := by
  funext o
  cases o <;> simp only [operandWord, valueId_congr h, Numbering.importId, h.imports]

theorem instrLine_congr (m : Module) : instrLine m n = instrLine m n' := by
  funext id
  simp only [instrLine, resultTypeWords, entryWord_congr h, operandWord_congr h, valueId_congr h]

end Emission

namespace Shader

open Emission

variable {s s' : Shader} {n n' : Numbering}

theorem listingWith_congr (h : n.Agrees n') (s : Shader) : s.listingWith n = s.listingWith n' := by
  simp only [listingWith, importLine_congr h, valueId_congr h, annotationLine_congr h,
    entryLine_congr h, instrLine_congr h]

/-- Imports without ids are not written. -/
theorem imports_size_le {lines : List Line} (h : s.code.imports.toList.zipIdx.mapM
    (fun p => importLine n p.2 p.1) = .ok lines) : s.code.imports.size ≤ n.imports := by
  refine Nat.le_of_not_lt fun hlt => ?_
  have hmem : (s.code.imports[n.imports], n.imports) ∈ s.code.imports.toList.zipIdx := by
    simp [List.mem_zipIdx_iff_getElem?, hlt]
  obtain ⟨line, hline⟩ := exists_mapM_eq_ok.mp ⟨lines, h⟩ _ hmem
  simp only [importLine, bind_eq_ok, checked_eq_ok, Numbering.importId] at hline
  obtain ⟨k, hk, -⟩ := hline
  rw [if_neg (Nat.lt_irrefl _)] at hk
  cases hk

/-- Entries without ids are not written. -/
theorem table_size_le {lines : List Line} (h : s.code.table.entries.toList.zipIdx.mapM
    (fun p => entryLine s.code n ⟨p.2⟩ p.1) = .ok lines) : s.code.table.size ≤ n.entries := by
  refine Nat.le_of_not_lt fun hlt => ?_
  obtain ⟨e, he⟩ : ∃ e, s.code.table.entries[n.entries]? = some e :=
    ⟨_, Array.getElem?_eq_getElem hlt⟩
  have hmem : (e, n.entries) ∈ s.code.table.entries.toList.zipIdx := by
    simp [List.mem_zipIdx_iff_getElem?, he]
  obtain ⟨line, hline⟩ := exists_mapM_eq_ok.mp ⟨lines, h⟩ _ hmem
  simp only [entryLine, bind_eq_ok, checked_eq_ok, Numbering.entryId] at hline
  obtain ⟨k, hk, -⟩ := hline
  rw [if_neg (Nat.lt_irrefl _)] at hk
  cases hk

theorem covered_of_listingWith {l : Listing} (h : s.listingWith n = .ok l) :
    s.code.imports.size ≤ n.imports ∧ s.code.table.size ≤ n.entries := by
  simp only [listingWith, bind_eq_ok] at h
  obtain ⟨_, himports, _, -, _, -, _, hentries, -⟩ := h
  exact ⟨imports_size_le himports, table_size_le hentries⟩

end Shader

/-! ### Outgrown ids -/

namespace Emission

/-- All that can go wrong is that something has no id. -/
def LacksIds {α : Type} (x : Except EmissionError α) : Prop :=
  ∀ e, x = .error e → e = .fault .unknownId

namespace LacksIds

variable {α β : Type} {n : Numbering}

theorem pure (a : α) : LacksIds (Pure.pure a) := nofun

theorem bind {x : Except EmissionError α} {f : α → Except EmissionError β} (hx : LacksIds x)
    (hf : ∀ a, LacksIds (f a)) : LacksIds (x >>= f) := by
  intro e he
  rcases bind_eq_error.mp he with he | ⟨a, -, he⟩
  · exact hx e he
  · exact hf a e he

theorem mapM {f : α → Except EmissionError β} {xs : List α} (hf : ∀ a ∈ xs, LacksIds (f a)) :
    LacksIds (xs.mapM f) := by
  intro e he
  obtain ⟨_, a, _, rfl, -, he⟩ := mapM_eq_error.mp he
  exact hf a (by simp) e he

theorem entryId (n : Numbering) (id : EntryId) : LacksIds (checked (n.entryId id)) := by
  rw [Numbering.entryId]
  split_ifs
  · rintro _ ⟨⟩
  · rintro _ ⟨⟩
    rfl

theorem importLine (n : Numbering) (index : Nat) (name : String) :
    LacksIds (Emission.importLine n index name) := by
  refine .bind ?_ fun _ => .pure _
  rw [Numbering.importId]
  split_ifs
  · rintro _ ⟨⟩
  · rintro _ ⟨⟩
    rfl

theorem entryWord (n : Numbering) (id : EntryId) : LacksIds (Emission.entryWord n id) := by
  rw [Emission.entryWord, Numbering.entryId]
  split_ifs
  · rintro _ ⟨⟩
  · rintro _ ⟨⟩
    rfl

theorem annotationLine (n : Numbering) (a : Annotation) :
    LacksIds (Emission.annotationLine n a) := by
  cases a with
  | entry => exact .bind (.entryWord n _) fun _ => .pure _
  | member => exact .bind (.entryWord n _) fun _ => .pure _

theorem typeWords (n : Numbering) (t : Ty) : LacksIds (Emission.typeWords n t) := by
  cases t with
  | vector | matrix | pointer => exact .bind (.entryWord n _) fun _ => .pure _
  | array => exact .bind (.entryWord n _) fun _ => .bind (.entryWord n _) fun _ => .pure _
  | struct => exact .mapM fun id _ => .entryWord n id
  | function =>
    exact .bind (.entryWord n _) fun _ => .bind (.mapM fun id _ => .entryWord n id) fun _ => .pure _
  | _ => exact .pure _

theorem constWords {m : Module} {k : Const} (hk : ∃ t, m.table.IsType k.ty t) :
    LacksIds (Emission.constWords m n k) := by
  refine .bind (.entryWord n _) fun _ => ?_
  cases k with
  | bool => exact .pure _
  | scalar ty value =>
    obtain ⟨t, ht⟩ := hk
    have htype : checked (m.typeAt ty) = .ok t := checked_eq_ok.mpr (Module.typeAt_eq_ok.mpr ht)
    simp only [htype]
    exact .pure _
  | composite => exact .bind (.mapM fun id _ => .entryWord n id) fun _ => .pure _

theorem entryLine {m : Module} {id : EntryId} {e : Entity}
    (he : ∀ k, e = .const k → ∃ t, m.table.IsType k.ty t) :
    LacksIds (Emission.entryLine m n id e) := by
  refine .bind (.entryId n id) fun _ => ?_
  cases e with
  | type t => exact .bind (.typeWords n t) fun _ => .pure _
  | const k => exact .bind (.constWords (he k rfl)) fun _ => .pure _
  | var v =>
    exact .bind (.bind (.entryWord n _) fun _ =>
      .bind (.mapM fun id _ => .entryWord n id) fun _ => .pure _) fun _ => .pure _

end LacksIds

end Emission

namespace Shader

open Emission

variable {s s' : Shader} {n : Numbering}

/-- Ids that the imports or the table have outgrown run out, behind an entry point that has
none perhaps. -/
theorem listingWith_outgrown {m : Module} (hs : s.code.InRange) (hn : n.Serves m s.body.toList)
    (h : n.imports < s.code.imports.size ∨ n.entries < s.code.table.size) :
    s.listingWith n = .error (.fault .unknownId) ∨
      s.listingWith n = .error (.unassignedInstr s.entryPoint) ∧
        s.code.imports.size ≤ n.imports ∧ s.entryPoint ∉ s.body.toList := by
  have himports : LacksIds (s.code.imports.toList.zipIdx.mapM fun p => importLine n p.2 p.1) :=
    .mapM fun _ _ => .importLine n _ _
  have hannotations : LacksIds (s.code.annotations.toList.mapM (annotationLine n)) :=
    .mapM fun a _ => .annotationLine n a
  have hentries : LacksIds (s.code.table.entries.toList.zipIdx.mapM fun p =>
      entryLine s.code n ⟨p.2⟩ p.1) := by
    refine .mapM fun p hp => .entryLine fun k hk => ?_
    rw [List.mem_zipIdx_iff_getElem?, hk] at hp
    exact hs.constants k (Array.mem_toList_iff.mp (List.mem_of_getElem? hp))
  simp only [listingWith]
  rcases hlines : s.code.imports.toList.zipIdx.mapM (fun p => importLine n p.2 p.1) with e | imports
  · obtain rfl := himports e hlines
    rw [hlines]
    exact .inl rfl
  rcases hentry : valueId n (.instr s.entryPoint) with e | entry
  · obtain ⟨hout, rfl⟩ := (valueId_instr_eq_error hn).mp hentry
    rw [hlines]
    exact .inr ⟨rfl, imports_size_le hlines, hout⟩
  rcases hnotes : s.code.annotations.toList.mapM (annotationLine n) with e | annotations
  · obtain rfl := hannotations e hnotes
    rw [hlines]
    exact .inl rfl
  rcases hdeclared : s.code.table.entries.toList.zipIdx.mapM
      (fun p => entryLine s.code n ⟨p.2⟩ p.1) with e | entries
  · obtain rfl := hentries e hdeclared
    rw [hlines, hdeclared]
    exact .inl rfl
  · have := imports_size_le hlines
    have := table_size_le hdeclared
    omega

/-! ### What happens to a shader -/

/-- A shader in use, with the module its ids were assigned for unless they have been discarded.
The module may be added to at any time, with what mentions nothing outside of it; only a change
of the stream discards the ids. -/
inductive History : Option Module → Shader → Prop where
  | start {s : Shader} (hcode : s.code.InRange) (hids : s.numbering = none) : History none s
  | assignIds {asOf : Option Module} {s s' : Shader} (h : History asOf s)
    (hs : s.assignIds = .ok s') : History (some s.code) s'
  | setBody {asOf : Option Module} {s : Shader} (h : History asOf s) (body : Array InstrId) :
    History none (s.setBody body)
  | boundIndices {asOf : Option Module} {s s' : Shader} {count : Nat} (h : History asOf s)
    (hs : s.boundIndices = .ok (count, s')) : History none s'
  | intern {asOf : Option Module} {s : Shader} (h : History asOf s) (e : Entity)
    (hrefs : ∀ r ∈ e.refs, r.index < s.code.table.size)
    (htyped : ∀ k, e = .const k → ∃ t, s.code.table.IsType k.ty t) :
    History asOf { s with code := (s.code.intern e).2 }
  | alloc {asOf : Option Module} {s : Shader} (h : History asOf s) (i : Instr)
    (hi : s.code.Admits i) : History asOf { s with code := (s.code.alloc i).2 }
  | annotate {asOf : Option Module} {s : Shader} (h : History asOf s) (a : Annotation)
    (ha : a.target.index < s.code.table.size) :
    History asOf { s with code := s.code.annotate a }
  | importSet {asOf : Option Module} {s : Shader} (h : History asOf s) (name : String) :
    History asOf { s with code := (s.code.importSet name).2 }

/-- What a history says of the ids: there are none, or they were assigned for the stream as it
is and a module that can only have grown. -/
structure Dated (asOf : Option Module) (s : Shader) : Prop where
  code : s.code.InRange
  discarded : asOf = none → s.numbering = none
  assigned : ∀ m ∈ asOf, ∃ n, s.numbering = some n ∧
    Numbering.assign m s.body.toList = .ok n ∧ m.imports.size ≤ s.code.imports.size ∧
    m.table.size ≤ s.code.table.size ∧ m.instrs.size ≤ s.code.instrs.size

/-- Adding to the module keeps the ids. -/
theorem Dated.grow {asOf : Option Module} (hs : s.Dated asOf) {code : Module}
    (hcode : code.InRange) (himports : s.code.imports.size ≤ code.imports.size)
    (htable : s.code.table.size ≤ code.table.size)
    (hinstrs : s.code.instrs.size ≤ code.instrs.size) : { s with code }.Dated asOf where
  code := hcode
  discarded := hs.discarded
  assigned m hm := by
    obtain ⟨n, hnumbering, hn, himports', htable', hinstrs'⟩ := hs.assigned m hm
    exact ⟨n, hnumbering, hn, himports'.trans himports, htable'.trans htable,
      hinstrs'.trans hinstrs⟩

/-- Without ids, there is nothing to keep. -/
theorem dated_none (hcode : s.code.InRange) (hids : s.numbering = none) : s.Dated none where
  code := hcode
  discarded _ := hids
  assigned := nofun

theorem Dated.assignIds {asOf : Option Module} (hs : s.Dated asOf) (h : s.assignIds = .ok s') :
    s'.Dated (some s.code) := by
  simp only [Shader.assignIds, bind_eq_ok, pure_eq_ok] at h
  obtain ⟨n, hn, rfl⟩ := h
  refine ⟨hs.code, ?_, ?_⟩
  · rintro ⟨⟩
  · rintro _ ⟨⟩
    exact ⟨n, rfl, hn, le_refl _, le_refl _, le_refl _⟩

theorem Dated.boundIndices {asOf : Option Module} {count : Nat} (hs : s.Dated asOf)
    (h : s.boundIndices = .ok (count, s')) : s'.Dated none := by
  simp only [Shader.boundIndices, bind_eq_ok, pure_eq_ok] at h
  obtain ⟨⟨body, k, code⟩, hbound, h⟩ := h
  cases h
  exact dated_none (DynamicIndex.inRange_of_boundAll hs.code hbound) rfl

theorem History.dated {asOf : Option Module} (h : History asOf s) : s.Dated asOf := by
  induction h with
  | start hcode hids => exact dated_none hcode hids
  | assignIds _ hs ih => exact ih.assignIds hs
  | setBody _ body ih => exact dated_none ih.code rfl
  | boundIndices _ hs ih => exact ih.boundIndices hs
  | intern _ e hrefs htyped ih =>
    exact ih.grow (ih.code.intern hrefs htyped) (le_refl _)
      (Table.size_le (Table.le_intern _ e)) (le_refl _)
  | alloc _ i hi ih =>
    exact ih.grow (ih.code.alloc hi) (le_refl _) (le_refl _) (by simp [Module.alloc])
  | annotate _ a ha ih =>
    exact ih.grow (ih.code.annotate ha) (le_refl _) (le_refl _) (le_refl _)
  | @importSet _ s _ name ih =>
    obtain ⟨imports, hle, heq⟩ := s.code.importSet_eq name
    rw [heq]
    exact ih.grow (ih.code.withImports hle) hle (le_refl _) (le_refl _)

/-- Ids for the table and the imports as they are were assigned after these last grew. -/
theorem Dated.ungrown {asOf : Option Module} (hs : s.Dated asOf) (hn : s.numbering = some n)
    (himports : s.code.imports.size ≤ n.imports) (htable : s.code.table.size ≤ n.entries) :
    ∀ m ∈ asOf, m.imports.size = s.code.imports.size ∧ m.table.size = s.code.table.size := by
  intro m hm
  obtain ⟨_, hn', hassign, himports', htable', -⟩ := hs.assigned m hm
  cases hn.symm.trans hn'
  have hserves := Numbering.assign_serves hassign
  exact ⟨le_antisymm himports' (himports.trans_eq hserves.imports),
    le_antisymm htable' (htable.trans_eq hserves.entries)⟩

/-- If only instructions and annotations were added, the ids serve as new ones would. -/
theorem Dated.fresh {asOf : Option Module} (hs : s.Dated asOf) (hn : s.numbering = some n)
    (himports : s.code.imports.size ≤ n.imports) (htable : s.code.table.size ≤ n.entries) :
    n.Serves s.code s.body.toList ∧ s.Identified n ∧
      ∃ s', s.assignIds = .ok s' ∧ s.text = s'.text := by
  cases asOf with
  | none => cases hn.symm.trans (hs.discarded rfl)
  | some m =>
    obtain ⟨himports, htable⟩ := hs.ungrown hn himports htable m rfl
    obtain ⟨_, hn', hassign, -, -, hinstrs⟩ := hs.assigned m rfl
    cases hn.symm.trans hn'
    have hserves := Numbering.assign_serves hassign
    have hnow : n.Serves s.code s.body.toList :=
      ⟨hserves.imports.trans himports, hserves.entries.trans htable, hserves.instr,
        fun id hid => (hserves.arena id hid).trans_le hinstrs⟩
    obtain ⟨n', hanew, hagrees⟩ := Numbering.assign_agrees hassign himports htable hinstrs
    refine ⟨hnow, hnow.identified hassign, { s with numbering := some n' }, ?_, ?_⟩
    · simp only [Shader.assignIds, hanew, bind, Except.bind]
      rfl
    · have hlisting : s.listing = s.listingWith n := by rw [listing, hn]
      rw [text, hlisting, listingWith_congr hagrees]
      rfl

/-- What goes wrong in a shader with ids of its own is never a fault. -/
theorem Fails.ne_fault {e : EmissionError} (h : s.Fails e) (f : Fault) : e ≠ .fault f := by
  cases h with
  | entryPoint => exact nofun
  | stream _ _ _ _ he => cases he <;> exact nofun

/-- No text shows an outdated id. Once the stream has been touched, there is no text before
ids are assigned again. A text there is is the one that ids assigned anew would give, and
everything in it has an id of its own. As long as neither the table nor the imports have grown
since the ids were assigned, what the shader answers is what it would answer with new ids: the
text, or what is wrong with the stream. And once one of them has grown, the ids are used past
their end, which is no answer but a fault; only an entry point without an id can come before
that. -/
theorem text_of_history {asOf : Option Module} {s : Shader} (h : History asOf s) :
    (asOf = none → s.text = .error .idsNotAssigned) ∧
    (∀ t, s.text = .ok t →
      (∀ m ∈ asOf, m.imports.size = s.code.imports.size ∧ m.table.size = s.code.table.size) ∧
      ∃ n s', s.numbering = some n ∧ s.Identified n ∧ s.assignIds = .ok s' ∧ s'.text = .ok t) ∧
    (∀ m ∈ asOf, m.imports.size = s.code.imports.size → m.table.size = s.code.table.size →
      ∃ n s', s.numbering = some n ∧ s.Identified n ∧ s.assignIds = .ok s' ∧ s.text = s'.text ∧
        (∀ e, s.text = .error e ↔ s.Fails e) ∧ ∀ f, s.text ≠ .error (.fault f)) ∧
    ∀ m ∈ asOf, m.imports.size < s.code.imports.size ∨ m.table.size < s.code.table.size →
      s.text = .error (.fault .unknownId) ∨ s.text = .error (.unassignedInstr s.entryPoint) ∧
        m.imports.size = s.code.imports.size ∧ s.entryPoint ∉ s.body.toList := by
  have hs := h.dated
  refine ⟨fun hnone => ?_, fun t ht => ?_, fun m hm himports htable => ?_, fun m hm hgrown => ?_⟩
  · rw [text, listing, hs.discarded hnone]
    rfl
  · obtain ⟨l, hl, -⟩ := map_eq_ok.mp ht
    cases hn : s.numbering with
    | none =>
      rw [listing, hn] at hl
      cases hl
    | some n =>
      rw [listing, hn] at hl
      obtain ⟨himports, htable⟩ := covered_of_listingWith hl
      obtain ⟨-, hids, s', hs', htext⟩ := hs.fresh hn himports htable
      exact ⟨hs.ungrown hn himports htable, n, s', rfl, hids, hs', htext.symm.trans ht⟩
  · obtain ⟨n, hn, hassign, -⟩ := hs.assigned m hm
    have hserves := Numbering.assign_serves hassign
    obtain ⟨hnow, hids, s', hs', htext⟩ := hs.fresh hn
      (himports.symm.trans hserves.imports.symm).le (htable.symm.trans hserves.entries.symm).le
    have hfails (e : EmissionError) : s.text = .error e ↔ s.Fails e := by
      rw [text, map_eq_error, listing, hn]
      exact listingWith_eq_error hnow hs.code
    exact ⟨n, s', hn, hids, hs', htext, hfails, fun f hf => ((hfails _).mp hf).ne_fault f rfl⟩
  · obtain ⟨n, hn, hassign, himports, -⟩ := hs.assigned m hm
    have hserves := Numbering.assign_serves hassign
    rw [← hserves.imports, ← hserves.entries] at hgrown
    simp only [text, map_eq_error, listing, hn]
    refine (listingWith_outgrown hs.code hserves hgrown).imp_right ?_
    rintro ⟨herror, hle, hout⟩
    exact ⟨herror, le_antisymm himports (hle.trans_eq hserves.imports), hout⟩

/-- A shader without types, with its whole arena as its stream. -/
def bare (instrs : List Instr) : Shader where
  code := { instrs := instrs.toArray }
  body := ((List.range instrs.length).map InstrId.mk).toArray
  entryPoint := ⟨0⟩

theorem bare_history {instrs : List Instr}
    (h : ∀ i ∈ instrs, i.resultType = none ∧ i.operands = []) : History none (bare instrs) := by
  refine .start ⟨nofun, by simp [bare, Table.empty], by simp [bare, Table.empty], ?_, ?_, ?_⟩ rfl
  · intro i hi ty hty
    rw [(h i (by simpa [bare] using hi)).1] at hty
    cases hty
  · intro i hi r hr
    rw [(h i (by simpa [bare] using hi)).2] at hr
    cases hr
  · intro i hi set hset
    rw [(h i (by simpa [bare] using hi)).2] at hset
    cases hset

/-- A label is written under its id while more labels are made, but no longer once one of them
is put in the stream; and once a type is interned, there is no id left for it. -/
theorem text_of_history_label :
    (∃ s t, History (some (bare [⟨.label, none, []⟩]).code) s ∧
      s.code.instrs.size = 2 ∧ s.text = .ok t ∧
      (s.setBody #[⟨0⟩, ⟨1⟩]).text = .error .idsNotAssigned) ∧
    ∃ s, History (some (bare [⟨.label, none, []⟩]).code) s ∧
      s.code.table.entries = #[.type .void] ∧ s.text = .error (.fault .unknownId) := by
  have hstart : History none (bare [⟨.label, none, []⟩]) := bare_history (by simp)
  obtain ⟨s, hs⟩ : ∃ s, (bare [⟨.label, none, []⟩]).assignIds = .ok s := ⟨_, rfl⟩
  have hgrown := (hstart.assignIds hs).alloc ⟨.label, none, []⟩ ⟨nofun, nofun, nofun⟩
  have houtgrown := (hstart.assignIds hs).intern (.type .void) (by simp [Entity.refs, Ty.refs])
    nofun
  cases hs
  obtain ⟨n, s', -, -, hanew, hsame, -⟩ := (text_of_history hgrown).2.2.1 _ rfl rfl rfl
  obtain ⟨t, ht⟩ : ∃ t, s'.text = .ok t := by
    cases hanew
    exact ⟨_, rfl⟩
  refine ⟨⟨_, t, hgrown, rfl, hsame.trans ht, (text_of_history (hgrown.setBody _)).1 rfl⟩,
    _, houtgrown, rfl, ?_⟩
  rcases (text_of_history houtgrown).2.2.2 _ rfl (.inr (by decide)) with h | ⟨-, -, hout⟩
  · exact h
  · exact absurd (by decide) hout

end Shader

end ShaderGen
