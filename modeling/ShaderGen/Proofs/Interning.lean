import Mathlib.Data.List.Induction
import Mathlib.Data.List.Nodup
import ShaderGen.Proofs.Shapes

/-!
What a table is after any interning. It holds each entity that was interned once, in the
order in which they first came, and a slot is found by what it holds. So a slot that was
handed out denotes the same entity for good, and equal entities have equal slots. All this is
said of tables whose slots have numbers of 32 bits, and then every slot that is answered has
one.
-/

namespace ShaderGen.Table

variable {t : Table} {e : Entity}

/-! ### One entity more -/

theorem find?_eq_none_iff : t.find? e = none ↔ e ∉ t.entries := by
  refine ⟨find?_eq_none, fun hnot => ?_⟩
  cases hfind : t.find? e with
  | none => rfl
  | some id => exact absurd (Array.mem_iff_getElem?.mpr ⟨_, find?_eq_some hfind⟩) hnot

/-- A new entity goes to the end. -/
theorem intern_of_find?_eq_none (h : t.find? e = none) :
    t.intern e = (⟨⟨t.size⟩, true⟩, t.push e h) := by
  unfold intern
  split
  · rename_i id hfind
    rw [h] at hfind
    cases hfind
  · rfl

/-- An entity that is there keeps its slot. -/
theorem intern_of_find?_eq_some {id : EntryId} (h : t.find? e = some id) :
    t.intern e = (⟨id, false⟩, t) := by
  unfold intern
  split
  · rename_i id' hfind
    cases h.symm.trans hfind
    rfl
  · rename_i hnone
    rw [h] at hnone
    cases hnone

theorem entries_intern (t : Table) (e : Entity) : (t.intern e).2.entries.toList =
    if e ∈ t.entries then t.entries.toList else t.entries.toList ++ [e] := by
  by_cases he : e ∈ t.entries
  · rw [if_pos he, intern_of_mem he]
  · rw [if_neg he, intern_of_find?_eq_none (find?_eq_none_iff.mpr he), push, Array.toList_push]

/-- A slot that holds something has a number of 32 bits. -/
theorem Addressable.index_lt {id : EntryId} (ht : t.Addressable) (h : t.get? id = some e) :
    id.index < UInt32.size := Nat.lt_of_lt_of_le (lt_size_of_get? h) ht

/-- What interning an entity answers, and what it makes of a table. -/
structure Interns (t : Table) (e : Entity) (answer : Interned) (t' : Table) : Prop where
  holds : t'.get? answer.id = some e
  inserted : answer.inserted = true ↔ e ∉ t.entries
  grows : answer.inserted = true → t'.size = t.size + 1
  same : answer.inserted = false → t' = t
  keeps : ∀ id e', t.get? id = some e' → t'.get? id = some e'
  word : answer.id.index < UInt32.size

theorem interns (t : Table) (e : Entity) (h : (t.intern e).2.Addressable) :
    t.Interns e (t.intern e).1 (t.intern e).2 where
  holds := t.get?_intern e
  inserted := by
    unfold intern
    split
    · rename_i id hfind
      simp [Array.mem_iff_getElem?.mpr ⟨_, find?_eq_some hfind⟩]
    · rename_i hnone
      simp [find?_eq_none hnone]
  grows := by
    unfold intern
    split
    · intro h
      cases h
    · simp [push, size]
  same := by
    unfold intern
    split
    · exact fun _ => rfl
    · intro h
      cases h
  keeps _ _ h := get?_intern_of_get? h
  word := h.index_lt (t.get?_intern e)

/-! ### Any number of entities -/

theorem ofList_append (es es' : List Entity) :
    ofList (es ++ es') = es'.foldl (fun t e => (t.intern e).2) (ofList es) := List.foldl_append

/-- The entries are the entities that were interned, each where it first came. -/
theorem entries_ofList (es : List Entity) : (ofList es).entries.toList = es.eraseDups := by
  induction es using List.reverseRecOn with
  | nil => rfl
  | append_singleton es e ih =>
    have hmem : e ∈ (ofList es).entries ↔ e ∈ es := by
      rw [← Array.mem_toList_iff, ih, List.mem_eraseDups]
    rw [ofList_append, List.foldl_cons, List.foldl_nil, entries_intern, List.eraseDups_append, ih,
      List.removeAll]
    by_cases he : e ∈ es
    · simp [hmem, he]
    · simp [hmem, he, List.eraseDups_cons]

theorem ofList_le_append (es es' : List Entity) : ofList es ≤ ofList (es ++ es') := by
  rw [ofList_append]
  generalize ofList es = t
  induction es' generalizing t with
  | nil => exact le_refl t
  | cons e es' ih => exact (t.le_intern e).trans (ih _)

/-- No entity has two slots. -/
theorem entries_nodup (t : Table) : t.entries.toList.Nodup := by
  refine List.nodup_iff_getElem?_ne_getElem?.mpr fun i j hij hj heq => ?_
  have hat : t.get? ⟨j⟩ = some t.entries.toList[j] := by
    rw [get?, ← Array.getElem?_toList, List.getElem?_eq_getElem hj]
  have hat' : t.get? ⟨i⟩ = some t.entries.toList[j] := by
    rw [get?, ← Array.getElem?_toList, heq, List.getElem?_eq_getElem hj]
  have hsame := (find?_eq_some_iff.mpr hat').symm.trans (find?_eq_some_iff.mpr hat)
  cases hsame
  omega

/-! ### Kinds of entries -/

/-- The slots of the entries of one kind are those of a part of all entries. -/
theorem slots_select {α : Type} (t : Table) (kind : Entity → Option α) :
    (t.select kind).map (·.1.index) =
      (t.entries.toList.zipIdx.filter fun p => (kind p.1).isSome).map Prod.snd := by
  rw [select]
  induction t.entries.toList.zipIdx with
  | nil => rfl
  | cons p ps ih =>
    rw [List.filterMap_cons, List.filter_cons]
    cases hkind : kind p.1 with
    | none => simpa [hkind] using ih
    | some a => simpa [hkind] using ih

theorem slots_select_sorted {α : Type} (t : Table) (kind : Entity → Option α) :
    ((t.select kind).map (·.1.index)).Pairwise (· < ·) := by
  rw [slots_select]
  have hall : (t.entries.toList.zipIdx.map Prod.snd).Pairwise (· < ·) := by
    rw [List.zipIdx_map_snd]
    exact List.pairwise_lt_range'
  exact hall.sublist (List.filter_sublist.map Prod.snd)

/-- The slots of a table are those of its types, its constants and its variables. -/
theorem slots_perm (t : Table) : (t.types.map (·.1.index) ++ t.constants.map (·.1.index) ++
    t.vars.map (·.1.index)).Perm (List.range t.size) := by
  have hrange : t.entries.toList.zipIdx.map Prod.snd = List.range t.size := by
    rw [List.zipIdx_map_snd, List.range_eq_range', size, Array.length_toList]
  rw [types, constants, vars, slots_select, slots_select, slots_select, ← hrange,
    ← List.map_append, ← List.map_append]
  refine List.Perm.map _ ?_
  induction t.entries.toList.zipIdx with
  | nil => exact .nil
  | cons p ps ih =>
    obtain ⟨_ | _ | _, i⟩ := p
    · exact ih.cons _
    · exact .trans (.append_right _ List.perm_middle) (ih.cons _)
    · exact List.perm_middle.trans (ih.cons _)

theorem select_push {α : Type} (kind : Entity → Option α) (h : t.find? e = none) :
    (t.push e h).select kind =
      t.select kind ++ ((kind e).map fun a => ((⟨t.size⟩ : EntryId), a)).toList := by
  simp only [select, push, Array.toList_push, List.zipIdx_append, List.filterMap_append,
    Array.length_toList, size, List.zipIdx_cons, List.zipIdx_nil, List.filterMap_cons,
    List.filterMap_nil, Nat.zero_add]
  cases kind e with
  | none => rfl
  | some a => rfl

theorem select_intern_of_none {α : Type} {kind : Entity → Option α} (t : Table)
    (h : kind e = none) : (t.intern e).2.select kind = t.select kind := by
  unfold intern
  split
  · rfl
  · rw [select_push, h, Option.map_none, Option.toList_none, List.append_nil]

/-! ### Tables -/

/-- What a table knows of the entities that were interned in it, from first to last. -/
structure Records (t : Table) (es : List Entity) : Prop where
  distinct : t.entries.toList.Nodup
  firsts : t.entries.toList = es.eraseDups
  inverse : ∀ e id, t.find? e = some id ↔ t.get? id = some e
  types : ∀ id ty, (id, ty) ∈ t.types ↔ t.get? id = some (.type ty)
  constants : ∀ id k, (id, k) ∈ t.constants ↔ t.get? id = some (.const k)
  vars : ∀ id v, (id, v) ∈ t.vars ↔ t.get? id = some (.var v)
  sorted : (t.types.map (·.1.index)).Pairwise (· < ·) ∧
    (t.constants.map (·.1.index)).Pairwise (· < ·) ∧ (t.vars.map (·.1.index)).Pairwise (· < ·)
  partition : (t.types.map (·.1.index) ++ t.constants.map (·.1.index) ++
    t.vars.map (·.1.index)).Perm (List.range t.size)
  words : ∀ id e, t.get? id = some e → id.index < UInt32.size

/-- Whatever was interned, as long as the slots have numbers of 32 bits, a table records it; one
entity more is interned as it should, and what a slot denotes outlasts whatever is interned
after that, even more than there are numbers for. -/
theorem ofList_records {es : List Entity} (hes : (ofList es).Addressable) :
    (ofList es).Records es ∧
    (∀ e, (ofList (es ++ [e])).Addressable →
      (ofList es).Interns e ((ofList es).intern e).1 (ofList (es ++ [e]))) ∧
    ∀ es' id e, (ofList es).get? id = some e → (ofList (es ++ es')).get? id = some e := by
  refine ⟨?_, fun e he => ?_, fun es' _ _ h => ofList_le_append es es' h⟩
  · exact {
      distinct := entries_nodup _
      firsts := entries_ofList es
      inverse := fun _ _ => find?_eq_some_iff
      types := fun _ _ => mem_types
      constants := fun _ _ => mem_constants
      vars := fun _ _ => mem_vars
      sorted := ⟨slots_select_sorted _ _, slots_select_sorted _ _, slots_select_sorted _ _⟩
      partition := slots_perm _
      words := fun _ _ => hes.index_lt }
  · have hone : ofList (es ++ [e]) = ((ofList es).intern e).2 := by
      rw [ofList_append, List.foldl_cons, List.foldl_nil]
    rw [hone] at he ⊢
    exact interns _ e he

/-- Types and constants that are nearly equal, and two that come again. -/
def nearlyEqual : List Entity :=
  [.type (.int 32 true), .type (.int 32 false), .const (.scalar ⟨0⟩ (.int 1)),
    .type (.int 32 true), .const (.scalar ⟨1⟩ (.uint 1)), .type (.int 32 false)]

/-- Nearly equal entities are different, and equal ones have one slot. -/
theorem ofList_nearlyEqual :
    (ofList nearlyEqual).entries.toList =
      [.type (.int 32 true), .type (.int 32 false), .const (.scalar ⟨0⟩ (.int 1)),
        .const (.scalar ⟨1⟩ (.uint 1))] ∧
    (ofList nearlyEqual).find? (.const (.scalar ⟨1⟩ (.uint 1))) = some ⟨3⟩ ∧
    ((ofList nearlyEqual).intern (.type .bool)).1.inserted = true ∧
    (ofList (nearlyEqual ++ [.type .bool, .type .void])).get? ⟨1⟩ =
      some (.type (.int 32 false)) := by
  obtain ⟨hrecords, hinterns, hkeeps⟩ := @ofList_records nearlyEqual (by decide +kernel)
  have hentries : (ofList nearlyEqual).entries.toList =
      [.type (.int 32 true), .type (.int 32 false), .const (.scalar ⟨0⟩ (.int 1)),
        .const (.scalar ⟨1⟩ (.uint 1))] := hrecords.firsts.trans (by decide +kernel)
  refine ⟨hentries, (hrecords.inverse _ _).mpr (by decide +kernel), ?_, ?_⟩
  · refine (hinterns (.type .bool) (by decide +kernel)).inserted.mpr ?_
    rw [← Array.mem_toList_iff, hentries]
    decide
  · exact hkeeps _ ⟨1⟩ _ (by decide +kernel)

end ShaderGen.Table
