import ShaderGen.Category
import ShaderGen.Fault

/-!
The weight table of a session: one row per category, with weights in the order
of the category's members. A variant whose weight was set to zero is pinned: it
keeps weight zero whatever weights are installed later.
-/

namespace ShaderGen

/-- The weights of one category. -/
structure WeightRow where
  /-- The weights of the members in order, once there are any. -/
  weights : Option (List Float) := none
  /-- The variants pinned to zero. -/
  pins : List Opcode := []
deriving Repr, Inhabited

/-- The place of a category's row. -/
def Category.index : Category → Fin 9
  | type => 0
  | scalarType => 1
  | numericType => 2
  | arithmeticType => 3
  | containerType => 4
  | arrayElementType => 5
  | structMemberType => 6
  | constant => 7
  | statement => 8

theorem Category.index_inj {c c' : Category} (h : c.index = c'.index) : c = c' := by
  cases c <;> cases c' <;> first | rfl | exact absurd h (by decide)

/-- A row for each category. -/
structure WeightTable where
  rows : Vector WeightRow 9 := Vector.replicate 9 {}

namespace WeightTable

/-- The row of a category. -/
def row (t : WeightTable) (c : Category) : WeightRow := t.rows[c.index]

/-- The table with one row replaced. -/
def setRow (t : WeightTable) (c : Category) (row : WeightRow) : WeightTable :=
  ⟨t.rows.set c.index row⟩

theorem row_setRow (t : WeightTable) (c c' : Category) (r : WeightRow) :
    (t.setRow c r).row c' = if c = c' then r else t.row c' := by
  simp only [row, setRow, Fin.getElem_fin, Vector.getElem_set, Fin.val_inj]
  by_cases h : c = c'
  · simp [h]
  · rw [if_neg h, if_neg fun hi => h (Category.index_inj hi)]

/-- Whether a category has weights. -/
def isParametrized (t : WeightTable) (c : Category) : Bool := (t.row c).weights.isSome

/-- The weights of a category. -/
def weights? (t : WeightTable) (c : Category) : Option (List Float) := (t.row c).weights

/-- The weight of a variant. -/
def weight? (t : WeightTable) (c : Category) (op : Opcode) : Option Float := do
  let place ← c.members.findIdx? (· == op)
  let weights ← t.weights? c
  weights[place]?

/-- Weights with zeros at the pinned members. -/
def applyPins (pins : List Opcode) (weights : List Float) (members : List Opcode) : List Float :=
  List.zipWith (fun w op => if pins.contains op then 0.0 else w) weights members

/-- Installs weights for a category, one per member. -/
def install (t : WeightTable) (c : Category) (weights : List Float) : Except Fault WeightTable :=
  if weights.length = c.members.length then
    let row := t.row c
    .ok (t.setRow c { row with weights := some (applyPins row.pins weights c.members) })
  else .error .lengthMismatch

/-- Pins a variant to zero, now and for all weights to come. -/
def pinZero (t : WeightTable) (c : Category) (op : Opcode) : WeightTable :=
  let row := t.row c
  t.setRow c {
    pins := if row.pins.contains op then row.pins else op :: row.pins
    weights := row.weights.map fun weights =>
      match c.members.findIdx? (· == op) with
      | some place => weights.set place 0.0
      | none => weights }

end WeightTable

end ShaderGen
