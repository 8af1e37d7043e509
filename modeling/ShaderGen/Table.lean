import ShaderGen.Entity

/-!
The entity table: an insertion-ordered list without repetitions. It is kept twice, as the
entities by slot and as a map from entities to slots, and the two are inverse. Interning an
entity that is already there gives its slot back, and a new one goes to the end, so the
slot of an entity never changes. `get?_intern` and `intern_of_mem` say what interning does
to the table.
-/

namespace ShaderGen

/-- Entities in order of first insertion. -/
structure Table where
  /-- The entities by slot. -/
  entries : Array Entity
  /-- The slot of each entity. -/
  slots : List (Entity × EntryId)
  agree : ∀ e id, slots.lookup e = some id ↔ entries[id.index]? = some e
deriving Repr

/-- What interning an entity answers. -/
structure Interned where
  /-- The slot that holds the entity. -/
  id : EntryId
  /-- Whether the entity was new. -/
  inserted : Bool
deriving DecidableEq, Repr

namespace Table

/-- The table without entries. -/
def empty : Table where
  entries := #[]
  slots := []
  agree _ _ := by simp

instance : Inhabited Table := ⟨empty⟩

/-- The number of entries. -/
def size (t : Table) : Nat := t.entries.size

/-- Every slot has a number of 32 bits, which is what an id has room for; past the last of
them the ids would start again from zero. -/
def Addressable (t : Table) : Prop := t.size ≤ UInt32.size

instance (t : Table) : Decidable t.Addressable := inferInstanceAs (Decidable (_ ≤ _))

/-- The entry in a slot. -/
def get? (t : Table) (id : EntryId) : Option Entity := t.entries[id.index]?

/-- The slot of an entity. -/
def find? (t : Table) (e : Entity) : Option EntryId := t.slots.lookup e

/-- An entity is found in the slot that holds it. -/
theorem find?_eq_some_iff {t : Table} {e : Entity} {id : EntryId} :
    t.find? e = some id ↔ t.get? id = some e := t.agree e id

/-- Puts an entity that is not there at the end. -/
def push (t : Table) (e : Entity) (h : t.find? e = none) : Table where
  entries := t.entries.push e
  slots := (e, ⟨t.size⟩) :: t.slots
  agree e' id := by
    have hagree := t.agree e' id
    rw [List.lookup_cons, Array.getElem?_push]
    by_cases he : e' = e
    · subst he
      rw [beq_self_eq_true]
      constructor
      · rintro ⟨⟩
        exact if_pos rfl
      · intro hget
        split at hget
        · rename_i hid
          exact congrArg (fun i => some (EntryId.mk i)) hid.symm
        · have hfind : t.find? e' = some id := hagree.mpr hget
          rw [h] at hfind
          cases hfind
    · rw [beq_false_of_ne he]
      refine hagree.trans ?_
      split
      · rename_i hid
        simp [hid, Ne.symm he]
      · exact Iff.rfl

/-- Adds an entity at the end unless it is there already. The id of a new one is not checked
to be a word; in an `Addressable` table it is one. -/
def intern (t : Table) (e : Entity) : Interned × Table :=
  match h : t.find? e with
  | some id => (⟨id, false⟩, t)
  | none => (⟨⟨t.size⟩, true⟩, t.push e h)

/-- The table after interning one entity after the other. -/
def ofList (es : List Entity) : Table := es.foldl (fun t e => (t.intern e).2) empty

/-- The entries of one kind with their slots, in slot order. -/
def select {α : Type} (t : Table) (kind : Entity → Option α) : List (EntryId × α) :=
  t.entries.toList.zipIdx.filterMap fun (e, i) => (kind e).map fun a => (⟨i⟩, a)

/-- The types with their slots. -/
def types (t : Table) : List (EntryId × Ty) := t.select Entity.type?

/-- The constants with their slots. -/
def constants (t : Table) : List (EntryId × Const) := t.select Entity.const?

/-- The variables with their slots. -/
def vars (t : Table) : List (EntryId × GlobalVar) := t.select Entity.var?

/-- The number of entries of one kind. -/
def count {α : Type} (t : Table) (kind : Entity → Option α) : Nat :=
  t.entries.foldl (fun n e => if (kind e).isSome then n + 1 else n) 0

/-- The number of types. -/
def typeCount (t : Table) : Nat := t.count Entity.type?

/-- The number of constants. -/
def constantCount (t : Table) : Nat := t.count Entity.const?

theorem find?_eq_some {t : Table} {e : Entity} {id : EntryId} (h : t.find? e = some id) :
    t.get? id = some e := find?_eq_some_iff.mp h

theorem find?_eq_none {t : Table} {e : Entity} (h : t.find? e = none) : e ∉ t.entries := by
  intro hmem
  obtain ⟨i, hi⟩ := Array.mem_iff_getElem?.mp hmem
  have hfind : t.find? e = some ⟨i⟩ := find?_eq_some_iff.mpr hi
  rw [h] at hfind
  cases hfind

/-- The slot interning answers holds the entity. -/
theorem get?_intern (t : Table) (e : Entity) :
    (t.intern e).2.get? (t.intern e).1.id = some e := by
  unfold intern
  split
  · rename_i id h
    exact find?_eq_some h
  · simp [get?, size, push]

/-- Interning leaves every filled slot as it was. -/
theorem get?_intern_of_get? {t : Table} {e e' : Entity} {id : EntryId}
    (h : t.get? id = some e') : (t.intern e).2.get? id = some e' := by
  unfold intern
  split
  · exact h
  · simp only [get?, push] at h ⊢
    rw [Array.getElem?_push]
    obtain ⟨hlt, _⟩ := Array.getElem?_eq_some_iff.mp h
    rw [if_neg (by omega)]
    exact h

/-- Interning an entity that is there changes nothing. -/
theorem intern_of_mem {t : Table} {e : Entity} (h : e ∈ t.entries) : (t.intern e).2 = t := by
  unfold intern
  split
  · rfl
  · rename_i hnone
    exact absurd h (find?_eq_none hnone)

end Table

end ShaderGen
