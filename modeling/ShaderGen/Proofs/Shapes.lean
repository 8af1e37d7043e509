import Mathlib.Order.Basic
import ShaderGen.Module

/-!
What the slots of a table say about types. A slot never changes once it is
filled, so tables are ordered by what they hold, and everything said here stays
true in every later table. A type is read in two ways: as lanes of a scalar,
which is how arithmetic sees scalars and vectors, and as a composite of parts.
-/

namespace ShaderGen

/-- A later table has the same entry in every slot that is filled. -/
instance : Preorder Table where
  le t t' := ∀ ⦃id e⦄, t.get? id = some e → t'.get? id = some e
  le_refl _ _ _ h := h
  le_trans _ _ _ h h' _ _ he := h' (h he)

namespace Table

theorem le_intern (t : Table) (e : Entity) : t ≤ (t.intern e).2 :=
  fun _ _ h => get?_intern_of_get? h

theorem lt_size_of_get? {t : Table} {id : EntryId} {e : Entity} (h : t.get? id = some e) :
    id.index < t.size :=
  (Array.getElem?_eq_some_iff.mp h).1

theorem size_le {t t' : Table} (hle : t ≤ t') : t.size ≤ t'.size := by
  by_contra hlt
  have hlast : t.size - 1 < t.size := by omega
  have hget : t.get? ⟨t.size - 1⟩ = some _ := Array.getElem?_eq_getElem hlast
  have : t.size - 1 < t'.size := lt_size_of_get? (hle hget)
  omega

/-- The slot holds the type. -/
abbrev IsType (t : Table) (id : EntryId) (ty : Ty) : Prop := t.get? id = some (.type ty)

/-- The slot holds the constant. -/
abbrev IsConst (t : Table) (id : EntryId) (c : Const) : Prop := t.get? id = some (.const c)

theorem IsType.unique {t : Table} {id : EntryId} {a b : Ty} (ha : t.IsType id a)
    (hb : t.IsType id b) : a = b := by
  simpa using ha.symm.trans hb

theorem IsConst.unique {t : Table} {id : EntryId} {a b : Const} (ha : t.IsConst id a)
    (hb : t.IsConst id b) : a = b := by
  simpa using ha.symm.trans hb

/-! ### Entries of one kind -/

theorem mem_select {α : Type} {t : Table} {kind : Entity → Option α} {id : EntryId} {a : α} :
    (id, a) ∈ t.select kind ↔ ∃ e, t.get? id = some e ∧ kind e = some a := by
  simp only [select, List.mem_filterMap, Option.map_eq_some_iff, Prod.exists,
    List.mem_zipIdx_iff_getElem?, Prod.mk.injEq, Array.getElem?_toList, get?]
  constructor
  · rintro ⟨e, i, hi, b, hb, rfl, rfl⟩
    exact ⟨e, hi, hb⟩
  · rintro ⟨e, hi, hb⟩
    exact ⟨e, id.index, hi, a, hb, rfl, rfl⟩

theorem mem_types {t : Table} {id : EntryId} {ty : Ty} : (id, ty) ∈ t.types ↔ t.IsType id ty := by
  rw [types, mem_select]
  constructor
  · rintro ⟨_ | _ | _, h, hty⟩ <;> cases hty
    exact h
  · exact fun h => ⟨_, h, rfl⟩

theorem mem_constants {t : Table} {id : EntryId} {k : Const} :
    (id, k) ∈ t.constants ↔ t.IsConst id k := by
  rw [constants, mem_select]
  constructor
  · rintro ⟨_ | _ | _, h, hk⟩ <;> cases hk
    exact h
  · exact fun h => ⟨_, h, rfl⟩

theorem mem_vars {t : Table} {id : EntryId} {v : GlobalVar} :
    (id, v) ∈ t.vars ↔ t.get? id = some (.var v) := by
  rw [vars, mem_select]
  constructor
  · rintro ⟨_ | _ | _, h, hv⟩ <;> cases hv
    exact h
  · exact fun h => ⟨_, h, rfl⟩

/-! ### Lanes -/

/-- A type has `n` lanes of the scalar type `scalar`: it is that type, or a vector
of it. -/
inductive Lanes (t : Table) : EntryId → EntryId → Nat → Prop
  | scalar {id : EntryId} {ty : Ty} (h : t.IsType id ty) (hs : ty.isScalar = true) :
      Lanes t id id 1
  | vector {id scalar : EntryId} {n : Nat} {ty : Ty} (h : t.IsType id (.vector scalar n))
      (h' : t.IsType scalar ty) (hs : ty.isScalar = true) : Lanes t id scalar n

/-- Integers of one width and signedness. -/
def IntLanes (t : Table) (id : EntryId) (n width : Nat) (signed : Bool) : Prop :=
  ∃ scalar, t.Lanes id scalar n ∧ t.IsType scalar (.int width signed)

/-- Floats of one width. -/
def FloatLanes (t : Table) (id : EntryId) (n width : Nat) : Prop :=
  ∃ scalar, t.Lanes id scalar n ∧ t.IsType scalar (.float width)

/-- Booleans. -/
def BoolLanes (t : Table) (id : EntryId) (n : Nat) : Prop :=
  ∃ scalar, t.Lanes id scalar n ∧ t.IsType scalar .bool

/-- A vector of floats. -/
def IsFloatVector (t : Table) (id scalar : EntryId) (n : Nat) : Prop :=
  t.IsType id (.vector scalar n) ∧ ∃ width, t.IsType scalar (.float width)

/-- A matrix of so many columns, each a vector of `rows` floats. -/
def IsMatrix (t : Table) (id column scalar : EntryId) (columns rows : Nat) : Prop :=
  t.IsType id (.matrix column columns) ∧ t.IsFloatVector column scalar rows

/-! ### Parts -/

/-- The number of parts of a composite type. The length of an array is an unsigned
constant. -/
inductive Arity (t : Table) : EntryId → Nat → Prop
  | vector {id element : EntryId} {n : Nat} (h : t.IsType id (.vector element n)) : Arity t id n
  | matrix {id column : EntryId} {n : Nat} (h : t.IsType id (.matrix column n)) : Arity t id n
  | array {id element length ty : EntryId} {n : Nat} (h : t.IsType id (.array element length))
      (hl : t.IsConst length (.scalar ty (.uint n))) : Arity t id n
  | struct {id : EntryId} {members : List EntryId} (h : t.IsType id (.struct members)) :
      Arity t id members.length

/-- The type of the part of a composite type at an index. -/
inductive Part (t : Table) : EntryId → Nat → EntryId → Prop
  | vector {id element : EntryId} {n i : Nat} (h : t.IsType id (.vector element n)) (hi : i < n) :
      Part t id i element
  | matrix {id column : EntryId} {n i : Nat} (h : t.IsType id (.matrix column n)) (hi : i < n) :
      Part t id i column
  | array {id element length ty : EntryId} {n i : Nat} (h : t.IsType id (.array element length))
      (hl : t.IsConst length (.scalar ty (.uint n))) (hi : i < n) : Part t id i element
  | struct {id part : EntryId} {members : List EntryId} {i : Nat}
      (h : t.IsType id (.struct members)) (hi : members[i]? = some part) : Part t id i part

/-- The type that indices lead to, each into the part the one before it reached. -/
inductive Path (t : Table) : EntryId → List Nat → EntryId → Prop
  | nil {id : EntryId} : Path t id [] id
  | cons {id part target : EntryId} {i : Nat} {is : List Nat} (h : t.Part id i part)
      (hp : Path t part is target) : Path t id (i :: is) target

theorem Arity.lt_size {t : Table} {id : EntryId} {n : Nat} (h : t.Arity id n) :
    id.index < t.size := by
  cases h with
  | vector h | matrix h | array h _ | struct h => exact lt_size_of_get? h

/-! ### Later tables -/

section Later

variable {t t' : Table}

theorem Lanes.mono (hle : t ≤ t') {id scalar : EntryId} {n : Nat} (h : t.Lanes id scalar n) :
    t'.Lanes id scalar n := by
  cases h with
  | scalar h hs => exact .scalar (hle h) hs
  | vector h h' hs => exact .vector (hle h) (hle h') hs

theorem IntLanes.mono (hle : t ≤ t') {id : EntryId} {n width : Nat} {signed : Bool}
    (h : t.IntLanes id n width signed) : t'.IntLanes id n width signed := by
  obtain ⟨scalar, hl, hs⟩ := h
  exact ⟨scalar, hl.mono hle, hle hs⟩

theorem FloatLanes.mono (hle : t ≤ t') {id : EntryId} {n width : Nat}
    (h : t.FloatLanes id n width) : t'.FloatLanes id n width := by
  obtain ⟨scalar, hl, hs⟩ := h
  exact ⟨scalar, hl.mono hle, hle hs⟩

theorem BoolLanes.mono (hle : t ≤ t') {id : EntryId} {n : Nat} (h : t.BoolLanes id n) :
    t'.BoolLanes id n := by
  obtain ⟨scalar, hl, hs⟩ := h
  exact ⟨scalar, hl.mono hle, hle hs⟩

theorem IsFloatVector.mono (hle : t ≤ t') {id scalar : EntryId} {n : Nat}
    (h : t.IsFloatVector id scalar n) : t'.IsFloatVector id scalar n := by
  obtain ⟨hv, width, hs⟩ := h
  exact ⟨hle hv, width, hle hs⟩

theorem IsMatrix.mono (hle : t ≤ t') {id column scalar : EntryId} {columns rows : Nat}
    (h : t.IsMatrix id column scalar columns rows) :
    t'.IsMatrix id column scalar columns rows :=
  ⟨hle h.1, h.2.mono hle⟩

theorem Arity.mono (hle : t ≤ t') {id : EntryId} {n : Nat} (h : t.Arity id n) :
    t'.Arity id n := by
  cases h with
  | vector h => exact .vector (hle h)
  | matrix h => exact .matrix (hle h)
  | array h hl => exact .array (hle h) (hle hl)
  | struct h => exact .struct (hle h)

theorem Part.mono (hle : t ≤ t') {id part : EntryId} {i : Nat} (h : t.Part id i part) :
    t'.Part id i part := by
  cases h with
  | vector h hi => exact .vector (hle h) hi
  | matrix h hi => exact .matrix (hle h) hi
  | array h hl hi => exact .array (hle h) (hle hl) hi
  | struct h hi => exact .struct (hle h) hi

theorem Path.mono (hle : t ≤ t') {id target : EntryId} {is : List Nat}
    (h : t.Path id is target) : t'.Path id is target := by
  induction h with
  | nil => exact .nil
  | cons h _ ih => exact .cons (h.mono hle) ih

end Later

/-! ### Lanes of a type -/

section Unique

variable {t : Table} {id scalar : EntryId} {n : Nat}

theorem Lanes.isScalar (h : t.Lanes id scalar n) :
    ∃ ty, t.IsType scalar ty ∧ ty.isScalar = true := by
  cases h with
  | scalar h hs => exact ⟨_, h, hs⟩
  | vector _ h' hs => exact ⟨_, h', hs⟩

theorem IsFloatVector.lanes (h : t.IsFloatVector id scalar n) : t.Lanes id scalar n := by
  obtain ⟨hv, width, hs⟩ := h
  exact .vector hv hs rfl

end Unique

end Table

end ShaderGen
