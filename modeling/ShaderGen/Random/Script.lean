import ShaderGen.Random.Source

/-!
A source that replays choices. Each draw takes the next choice of a list, brought
into the range of the draw, and the choice is zero once the list has ended. With
a script a run takes the turns one wants it to take.
-/

namespace ShaderGen

/-- The choices still to be made. -/
structure Script where
  choices : List Nat := []
deriving Repr

namespace Script

/-- The next choice. -/
def next (s : Script) : Nat × Script := (s.choices.headD 0, ⟨s.choices.tail⟩)

/-- The places of the weights that are not zero. -/
def places (weights : List Float) : List Nat :=
  (List.range weights.length).filter fun i => weights.getD i 0.0 != 0.0

/-- Yes and no are drawn by any choice but zero and by zero. Fractions are not
scripted: each is the lower end of its range. -/
instance : RandomSource Script where
  chance _ s := let (k, s) := s.next; (k != 0, s)
  below _ n s := let (k, s) := s.next; (k % n, s)
  single lo _ s := (lo, s)
  double lo _ s := (lo, s)
  closed lo _ s := (lo, s)
  weighted weights s :=
    let (k, s) := s.next
    ((places weights).getD (k % (places weights).length) 0, s)

instance : BoundedRandomSource Script where
  below_lt _ _ _ hn := Nat.mod_lt _ hn

/-- Zero and a weight that equals zero, of whatever sign, add up to zero. -/
theorem zero_add_of_beq {w : Float} (h : (w == 0.0) = true) : (0.0 : Float) + w = 0.0 := by
  have hzero : Float.Model.unpack (0.0 : Float).toModel = .zero .positive := rfl
  have hadd : (0.0 : Float) + w = ⟨.pack (.add .binary64
      (Float.Model.unpack (0.0 : Float).toModel) w.toModel.unpack)⟩ := rfl
  have hbeq : (w == 0.0) = (w.toModel.unpack.compare
      (Float.Model.unpack (0.0 : Float).toModel) == some .eq) := rfl
  rw [hbeq, hzero] at h
  rw [hadd, hzero]
  cases hw : w.toModel.unpack with
  | zero sign => cases sign <;> decide
  | notANumber =>
    rw [hw] at h
    exact Bool.noConfusion (show false = true from h)
  | infinity sign =>
    rw [hw] at h
    cases sign <;> exact Bool.noConfusion (show false = true from h)
  | finite sign =>
    rw [hw] at h
    cases sign <;> exact Bool.noConfusion (show false = true from h)

theorem total_of_beq {weights : List Float} (h : ∀ w ∈ weights, (w == 0.0) = true) :
    RandomSource.total weights = 0.0 := by
  unfold RandomSource.total
  induction weights with
  | nil => rfl
  | cons w weights ih =>
    rw [List.foldl_cons, zero_add_of_beq (h w (List.mem_cons_self ..))]
    exact ih fun w hw => h w (List.mem_cons_of_mem _ hw)

/-- Some place is left among weights that can be drawn. -/
theorem places_ne_nil {weights : List Float} (h : RandomSource.choosable weights = true) :
    places weights ≠ [] := by
  intro hnone
  have hall : ∀ w ∈ weights, (w == 0.0) = true := by
    intro w hw
    obtain ⟨i, hi, rfl⟩ := List.mem_iff_getElem.mp hw
    have hplace := List.filter_eq_nil_iff.mp hnone i (List.mem_range.mpr hi)
    simpa [List.getD_eq_getElem?_getD, List.getElem?_eq_getElem hi, bne] using hplace
  have htotal : (RandomSource.total weights != 0.0) = true := (Bool.and_eq_true_iff.mp h).2
  rw [total_of_beq hall] at htotal
  exact absurd htotal (by decide)

instance : LawfulRandomSource Script where
  weighted_ne_zero weights s hweights := by
    have hlt : s.next.1 % (places weights).length < (places weights).length :=
      Nat.mod_lt _ (List.length_pos_iff.mpr (places_ne_nil hweights))
    have hmem := List.getElem_mem hlt
    obtain ⟨hrange, hne⟩ := List.mem_filter.mp hmem
    have hplace := List.mem_range.mp hrange
    refine ⟨weights[(places weights)[s.next.1 % (places weights).length]], ?_, ?_⟩
    · simp only [RandomSource.weighted, List.getD_eq_getElem?_getD,
        List.getElem?_eq_getElem hlt, Option.getD_some, List.getElem?_eq_getElem hplace]
    · intro hzero
      rw [List.getD_eq_getElem?_getD, List.getElem?_eq_getElem hplace, hzero] at hne
      exact absurd hne (by decide)

end Script

end ShaderGen
