import Mathlib.Algebra.Order.Ring.Int
import ShaderGen.Config.Basic
import ShaderGen.Proofs.Shapes

/-!
Well-formed entries. Every entry of the table of a session keeps the rules of its
kind, which speak of the entries it mentions, and mentions earlier entries only.
Interning an entry that keeps its rules keeps those of all others, whether the
entry is new or a slot that was filled before is answered.
-/

namespace ShaderGen

/-! ### Mentioned entries -/

/-- The entries a type mentions. -/
def Ty.refs : Ty → List EntryId
  | void | bool | int .. | float .. => []
  | vector part _ | matrix part _ => [part]
  | array element length => [element, length]
  | struct members => members
  | pointer _ pointee => [pointee]
  | function result params => result :: params

/-- The entries a constant mentions. -/
def Const.refs : Const → List EntryId
  | bool ty _ | scalar ty _ => [ty]
  | composite ty parts => ty :: parts

/-- The entries a variable of the module mentions. -/
def GlobalVar.refs (v : GlobalVar) : List EntryId := v.ty :: v.initializer.toList

/-- The entries an entry mentions. -/
def Entity.refs : Entity → List EntryId
  | type t => t.refs
  | const k => k.refs
  | var v => v.refs

/-! ### Rules -/

/-- An integer literal of the form the signedness asks for, within the range of
its width. -/
def Literal.Fits (width : Nat) (signed : Bool) : Literal → Prop
  | int v => signed = true ∧ -2 ^ (width - 1) ≤ v ∧ v < 2 ^ (width - 1)
  | uint v => signed = false ∧ v < 2 ^ width
  | float _ => False

/-- The format in which float literals of a width are shown. -/
def Literal.shownIn (width : Nat) : Decimal.FloatFormat := if width ≤ 32 then .single else .double

/-- A float literal that the format of its width holds, so that nothing is lost
when it is shown. -/
def Literal.IsShown (width : Nat) : Literal → Prop
  | float word =>
    ∃ shown, word.toNat = Decimal.FloatFormat.double.ofReading ((shownIn width).decode shown)
  | _ => False

namespace Table

/-- The slot holds a type that a category produces. -/
def IsOf (t : Table) (id : EntryId) (c : Category) : Prop :=
  ∃ ty, t.IsType id ty ∧ ty.opcode ∈ c.members

/-- The slot holds a type whose values can be stored and copied. -/
def IsData (t : Table) (id : EntryId) : Prop := ∃ ty, t.IsType id ty ∧ ty.isData = true

/-- The slot holds a constant of exactly the type. -/
def HasConst (t : Table) (id ty : EntryId) : Prop := ∃ k, t.IsConst id k ∧ k.ty = ty

/-- The slot holds the unsigned 32-bit constant of a number. -/
def IsIndex (t : Table) (id : EntryId) (n : Nat) : Prop :=
  ∃ ty, t.IsConst id (.scalar ty (.uint n)) ∧ t.IsType ty (.int 32 false)

end Table

/-- The rules of a type. An integer has an enabled width, or the width of an
enabled float, which a bitcast gives it. -/
def Ty.WellFormed (c : Config) (t : Table) : Ty → Prop
  | void | bool => True
  | int width _ => width ∈ c.intWidths ∨ width ∈ c.floatWidths
  | float width => width ∈ c.floatWidths
  | vector element count => (2 ≤ count ∧ count ≤ 4) ∧ t.IsOf element .scalarType
  | matrix column count =>
    (2 ≤ count ∧ count ≤ 4) ∧ ∃ scalar rows, t.IsFloatVector column scalar rows
  | array element length =>
    t.IsOf element .arrayElementType ∧ ∃ n, t.IsIndex length n ∧ 1 ≤ n ∧ n ≤ 8
  | struct members =>
    (1 ≤ members.length ∧ members.length ≤ 4) ∧ ∀ m ∈ members, t.IsOf m .structMemberType
  | pointer _ pointee => t.IsData pointee
  | function result params => t.IsType result .void ∧ ∀ p ∈ params, t.IsOf p .arithmeticType

/-- The rules of a constant: its value is one of its type, and a composite has a
part for each part of its type. -/
def Const.WellFormed (t : Table) : Const → Prop
  | bool ty _ => t.IsType ty .bool
  | scalar ty value =>
    (∃ width signed, t.IsType ty (.int width signed) ∧ value.Fits width signed) ∨
      ∃ width, t.IsType ty (.float width) ∧ value.IsShown width
  | composite ty parts => t.Arity ty parts.length ∧
      ∀ i p, parts[i]? = some p → ∃ part, t.Part ty i part ∧ t.HasConst p part

/-- The rules of a variable of the module: a buffer holds a struct that comes
from outside, any other variable starts with a constant of its type. -/
def GlobalVar.WellFormed (t : Table) (v : GlobalVar) : Prop :=
  ∃ pointee, t.IsType v.ty (.pointer v.storage pointee) ∧
    match v.storage with
    | .storageBuffer => (∃ members, t.IsType pointee (.struct members)) ∧ v.initializer = none
    | .modulePrivate => ∃ initial, v.initializer = some initial ∧ t.HasConst initial pointee
    | .function => False

/-- The rules of an entry. -/
def Entity.WellFormed (c : Config) (t : Table) : Entity → Prop
  | type ty => ty.WellFormed c t
  | const k => k.WellFormed t
  | var v => v.WellFormed t

/-- All entries keep their rules and mention earlier ones. -/
structure Table.WellFormed (c : Config) (t : Table) : Prop where
  entry : ∀ {id e}, t.get? id = some e → e.WellFormed c t
  earlier : ∀ {id e}, t.get? id = some e → ∀ r ∈ e.refs, r.index < id.index

namespace Table

variable {t t' : Table} {c : Config}

/-! ### Later tables -/

section Later

variable (hle : t ≤ t')
include hle

theorem IsOf.mono {id : EntryId} {cat : Category} (h : t.IsOf id cat) : t'.IsOf id cat := by
  obtain ⟨ty, hty, hmem⟩ := h
  exact ⟨ty, hle hty, hmem⟩

theorem IsData.mono {id : EntryId} (h : t.IsData id) : t'.IsData id := by
  obtain ⟨ty, hty, hdata⟩ := h
  exact ⟨ty, hle hty, hdata⟩

theorem HasConst.mono {id ty : EntryId} (h : t.HasConst id ty) : t'.HasConst id ty := by
  obtain ⟨k, hk, hty⟩ := h
  exact ⟨k, hle hk, hty⟩

theorem IsIndex.mono {id : EntryId} {n : Nat} (h : t.IsIndex id n) : t'.IsIndex id n := by
  obtain ⟨ty, hk, hty⟩ := h
  exact ⟨ty, hle hk, hle hty⟩

end Later

end Table

section Later

variable {c : Config} {t t' : Table} (hle : t ≤ t')
include hle

theorem Ty.WellFormed.mono {ty : Ty} (h : ty.WellFormed c t) : ty.WellFormed c t' := by
  cases ty with
  | void | bool | int | float => exact h
  | vector => exact ⟨h.1, h.2.mono hle⟩
  | matrix =>
    obtain ⟨hn, scalar, rows, hcol⟩ := h
    exact ⟨hn, scalar, rows, hcol.mono hle⟩
  | array =>
    obtain ⟨he, n, hn, hb⟩ := h
    exact ⟨he.mono hle, n, hn.mono hle, hb⟩
  | struct => exact ⟨h.1, fun m hm => (h.2 m hm).mono hle⟩
  | pointer => exact Table.IsData.mono hle h
  | function => exact ⟨hle h.1, fun p hp => (h.2 p hp).mono hle⟩

theorem Const.WellFormed.mono {k : Const} (h : k.WellFormed t) : k.WellFormed t' := by
  cases k with
  | bool => exact hle h
  | scalar =>
    rcases h with ⟨width, signed, hty, hfits⟩ | ⟨width, hty, hshown⟩
    · exact .inl ⟨width, signed, hle hty, hfits⟩
    · exact .inr ⟨width, hle hty, hshown⟩
  | composite =>
    refine ⟨h.1.mono hle, fun i p hp => ?_⟩
    obtain ⟨part, hpart, hk⟩ := h.2 i p hp
    exact ⟨part, hpart.mono hle, hk.mono hle⟩

theorem GlobalVar.WellFormed.mono {v : GlobalVar} (h : v.WellFormed t) : v.WellFormed t' := by
  obtain ⟨ty, storage, initial, serial⟩ := v
  obtain ⟨pointee, hty, h⟩ := h
  refine ⟨pointee, hle hty, ?_⟩
  cases storage with
  | function => exact h
  | modulePrivate =>
    obtain ⟨k, hk, hc⟩ := h
    exact ⟨k, hk, hc.mono hle⟩
  | storageBuffer =>
    obtain ⟨⟨members, hs⟩, hnone⟩ := h
    exact ⟨⟨members, hle hs⟩, hnone⟩

theorem Entity.WellFormed.mono {e : Entity} (h : e.WellFormed c t) : e.WellFormed c t' := by
  cases e with
  | type => exact Ty.WellFormed.mono hle h
  | const => exact Const.WellFormed.mono hle h
  | var => exact GlobalVar.WellFormed.mono hle h

end Later

/-! ### Interning -/

section Interning

variable {c : Config} {t : Table}

theorem Table.HasConst.lt_size {id ty : EntryId} (h : t.HasConst id ty) : id.index < t.size := by
  obtain ⟨_, hk, _⟩ := h
  exact Table.lt_size_of_get? hk

theorem Table.IsOf.lt_size {id : EntryId} {cat : Category} (h : t.IsOf id cat) :
    id.index < t.size := by
  obtain ⟨_, hty, _⟩ := h
  exact Table.lt_size_of_get? hty

theorem Ty.WellFormed.refs_lt {ty : Ty} (h : ty.WellFormed c t) :
    ∀ r ∈ ty.refs, r.index < t.size := by
  intro r hr
  cases ty with
  | void | bool | int | float => cases hr
  | vector element =>
    obtain rfl := List.mem_singleton.mp hr
    exact h.2.lt_size
  | matrix column =>
    obtain rfl := List.mem_singleton.mp hr
    obtain ⟨_, _, _, hcol, _⟩ := h
    exact Table.lt_size_of_get? hcol
  | array element length =>
    obtain ⟨he, _, ⟨_, hk, _⟩, _⟩ := h
    rcases List.mem_cons.mp hr with rfl | hr
    · exact he.lt_size
    · obtain rfl := List.mem_singleton.mp hr
      exact Table.lt_size_of_get? hk
  | struct members => exact (h.2 r hr).lt_size
  | pointer storage pointee =>
    obtain rfl := List.mem_singleton.mp hr
    obtain ⟨_, hty, _⟩ := h
    exact Table.lt_size_of_get? hty
  | function result params =>
    rcases List.mem_cons.mp hr with rfl | hr
    · exact Table.lt_size_of_get? h.1
    · exact (h.2 r hr).lt_size

theorem Const.WellFormed.refs_lt {k : Const} (h : k.WellFormed t) :
    ∀ r ∈ k.refs, r.index < t.size := by
  intro r hr
  cases k with
  | bool ty value =>
    obtain rfl := List.mem_singleton.mp hr
    exact Table.lt_size_of_get? h
  | scalar ty value =>
    obtain rfl := List.mem_singleton.mp hr
    rcases h with ⟨_, _, hty, _⟩ | ⟨_, hty, _⟩ <;> exact Table.lt_size_of_get? hty
  | composite ty parts =>
    rcases List.mem_cons.mp hr with rfl | hr
    · exact h.1.lt_size
    · obtain ⟨i, hi⟩ := List.mem_iff_getElem?.mp hr
      obtain ⟨_, _, hk⟩ := h.2 i r hi
      exact hk.lt_size

theorem GlobalVar.WellFormed.refs_lt {v : GlobalVar} (h : v.WellFormed t) :
    ∀ r ∈ v.refs, r.index < t.size := by
  obtain ⟨ty, storage, initial, serial⟩ := v
  obtain ⟨pointee, hty, h⟩ := h
  intro r hr
  rcases List.mem_cons.mp hr with rfl | hr
  · exact Table.lt_size_of_get? hty
  · obtain rfl := Option.mem_toList.mp hr
    cases storage with
    | function => exact h.elim
    | modulePrivate =>
      obtain ⟨k, hk, hc⟩ := h
      obtain rfl := Option.some.inj hk
      exact hc.lt_size
    | storageBuffer => exact absurd h.2 (Option.some_ne_none r)

/-- What an entry that keeps its rules mentions is in the table. -/
theorem Entity.WellFormed.refs_lt {e : Entity} (h : e.WellFormed c t) :
    ∀ r ∈ e.refs, r.index < t.size := by
  cases e with
  | type => exact Ty.WellFormed.refs_lt h
  | const => exact Const.WellFormed.refs_lt h
  | var => exact GlobalVar.WellFormed.refs_lt h

/-- After interning a slot holds what it held before, or it is the first free slot
and holds the entry. -/
theorem Table.get?_intern_cases {e e' : Entity} {id : EntryId}
    (h : (t.intern e).2.get? id = some e') :
    t.get? id = some e' ∨ e' = e ∧ id.index = t.size := by
  unfold intern at h
  split at h
  · exact .inl h
  · simp only [get?, push, Array.getElem?_push] at h ⊢
    split at h
    · rename_i hid
      exact .inr ⟨(Option.some.inj h).symm, hid⟩
    · exact .inl h

/-- Interning an entry that keeps its rules keeps the rules of all entries. -/
theorem Table.WellFormed.intern (h : t.WellFormed c) {e : Entity} (he : e.WellFormed c t) :
    (t.intern e).2.WellFormed c where
  entry := by
    intro id e' h'
    rcases Table.get?_intern_cases h' with hold | ⟨rfl, _⟩
    · exact (h.entry hold).mono (t.le_intern e)
    · exact he.mono (t.le_intern e')
  earlier := by
    intro id e' h' r hr
    rcases Table.get?_intern_cases h' with hold | ⟨rfl, hid⟩
    · exact h.earlier hold r hr
    · rw [hid]
      exact he.refs_lt r hr

theorem Table.wellFormed_empty : Table.WellFormed c .empty where
  entry h := by cases h
  earlier h := by cases h

end Interning

end ShaderGen
