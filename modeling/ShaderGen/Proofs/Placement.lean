import Mathlib.Order.Bounds.Basic
import Mathlib.Order.CompletePartialOrder
import Mathlib.Order.Interval.Set.Disjoint
import ShaderGen.Proofs.Queries
import ShaderGen.Shader.Buffers

/-!
Where the members of a block stand. Each has the first place behind the member before it
that its alignment allows, so members never overlap, and what is reserved for them all is
the first multiple of the largest alignment behind the last. The members of storage
buffers are words of 32 bits and vectors of these. They take no more than sixteen bytes
each, which leaves no room for an overflow.
-/

namespace ShaderGen

/-! ### Words -/

/-- The type of a number. -/
def NumberKind.ty : NumberKind → Nat → Ty
  | int, width => .int width true
  | uint, width => .int width false
  | float, width => .float width

theorem NumberKind.number?_ty (kind : NumberKind) (width : Nat) :
    Buffer.number? (kind.ty width) = some (kind, width) := by
  cases kind <;> rfl

/-- A word of 32 bits, or a vector of two to four of these. -/
inductive Table.IsWords (t : Table) : EntryId → NumberKind → Nat → Prop
  | scalar {id : EntryId} {kind : NumberKind} (h : t.IsType id (kind.ty 32)) : IsWords t id kind 1
  | vector {id scalar : EntryId} {kind : NumberKind} {n : Nat} (h : t.IsType id (.vector scalar n))
      (h' : t.IsType scalar (kind.ty 32)) (hn : 2 ≤ n ∧ n ≤ 4) : IsWords t id kind n

namespace Table.IsWords

variable {t t' : Table} {id : EntryId} {kind : NumberKind} {n : Nat}

theorem mono (h : t.IsWords id kind n) (hle : t ≤ t') : t'.IsWords id kind n := by
  cases h with
  | scalar h => exact .scalar (hle h)
  | vector h h' hn => exact .vector (hle h) (hle h') hn

theorem bounds (h : t.IsWords id kind n) : 1 ≤ n ∧ n ≤ 4 := by
  cases h with
  | scalar => decide
  | vector _ _ hn => exact ⟨by omega, hn.2⟩

theorem lanes (h : t.IsWords id kind n) :
    ∃ scalar, t.Lanes id scalar n ∧ t.IsType scalar (kind.ty 32) := by
  have hscalar : (kind.ty 32).isScalar = true := by cases kind <;> rfl
  cases h with
  | scalar h => exact ⟨id, .scalar h hscalar, h⟩
  | vector h h' => exact ⟨_, .vector h h' hscalar, h'⟩

end Table.IsWords

namespace BufferMember

variable {t t' : Table} {ty : EntryId} {b : BufferMember}

/-- The bytes of a member and the alignment it needs. A vector of three is aligned like
one of four. -/
def extent (b : BufferMember) : Layout.Extent where
  size := b.components * (b.width / 8)
  align := (if b.components ≤ 2 then b.components else 4) * (b.width / 8)

/-- The first byte behind a member. -/
def stop (b : BufferMember) : Nat := b.offset + b.extent.size

/-- The bytes of a member. -/
def bytes (b : BufferMember) : Set Nat := Set.Ico b.offset b.stop

/-- A member has a type that is made of words. -/
def Holds (t : Table) (ty : EntryId) (b : BufferMember) : Prop :=
  b.width = 32 ∧ t.IsWords ty b.kind b.components

theorem Holds.mono (h : b.Holds t ty) (hle : t ≤ t') : b.Holds t' ty := ⟨h.1, h.2.mono hle⟩

/-- A member that is made of words takes sixteen bytes at most and needs no larger
alignment. -/
theorem Holds.small (h : b.Holds t ty) :
    b.extent.size ≤ 16 ∧ 1 ≤ b.extent.align ∧ b.extent.align ∣ 16 := by
  obtain ⟨hwidth, hwords⟩ := h
  obtain ⟨hpos, hle⟩ := hwords.bounds
  have hcount : b.components = 1 ∨ b.components = 2 ∨ b.components = 3 ∨ b.components = 4 := by
    omega
  rcases hcount with hcount | hcount | hcount | hcount
  all_goals
    simp only [extent, hwidth, hcount]
    decide

end BufferMember

/-! ### Places -/

namespace Layout

variable {m m' : Module}

/-- Members one behind the other, each at the first place from the end of the one before it
on that its alignment allows. -/
inductive Places : Nat → List BufferMember → Prop
  | nil {start : Nat} : Places start []
  | cons {start : Nat} {b : BufferMember} {bs : List BufferMember}
      (h : IsLeast {k | b.extent.align ∣ k ∧ start ≤ k} b.offset) (hrest : Places b.stop bs) :
      Places start (b :: bs)

namespace Places

variable {start : Nat} {b : BufferMember} {bs : List BufferMember}

theorem start_le (h : Places start bs) : ∀ b ∈ bs, start ≤ b.offset := by
  induction h with
  | nil => simp
  | @cons start b bs hb _ ih =>
    intro x hx
    rcases List.mem_cons.mp hx with rfl | hx
    · exact hb.1.2
    · exact hb.1.2.trans ((Nat.le_add_right _ _).trans (ih x hx))

/-- Members do not overlap. -/
theorem disjoint (h : Places start bs) : bs.Pairwise fun x y => Disjoint x.bytes y.bytes := by
  induction h with
  | nil => exact .nil
  | cons _ hrest ih =>
    refine .cons (fun y hy => ?_) ih
    exact Set.Ico_disjoint_Ico.mpr ((min_le_left _ _).trans
      ((hrest.start_le y hy).trans (le_max_right _ _)))

/-- Nothing ends behind the last member. -/
theorem stop_le_last (h : Places start bs) {last : BufferMember} (hlast : bs.getLast? = some last) :
    ∀ b ∈ bs, b.stop ≤ last.stop := by
  induction h with
  | nil => simp
  | @cons _ b bs _ hrest ih =>
    cases bs with
    | nil =>
      obtain rfl := Option.some.inj hlast
      simp
    | cons b' bs =>
      rw [List.getLast?_cons_cons] at hlast
      intro x hx
      rcases List.mem_cons.mp hx with rfl | hx
      · exact (hrest.start_le b' List.mem_cons_self).trans
          ((Nat.le_add_right _ _).trans (ih hlast b' List.mem_cons_self))
      · exact ih hlast x hx

/-- Small members take small room. -/
theorem stop_le (h : Places start bs) {k : Nat} (hstart : start ≤ 16 * k)
    (hsmall : ∀ b ∈ bs, b.extent.size ≤ 16 ∧ b.extent.align ∣ 16) :
    ∀ b ∈ bs, b.stop ≤ 16 * (k + bs.length) := by
  induction h generalizing k with
  | nil => simp
  | @cons start b bs hb _ ih =>
    obtain ⟨hsize, halign⟩ := hsmall b List.mem_cons_self
    have hoffset : b.offset ≤ 16 * k := hb.2 ⟨halign.mul_right k, hstart⟩
    have hstop : b.stop ≤ 16 * (k + 1) := by
      rw [BufferMember.stop]
      omega
    intro x hx
    rw [List.length_cons]
    rcases List.mem_cons.mp hx with rfl | hx
    · omega
    · have := ih hstop (fun b hb => hsmall b (List.mem_cons_of_mem _ hb)) x hx
      omega

end Places

/-- The layout knows the extent of what is made of words. -/
theorem extent?_of_holds {ty : EntryId} {b : BufferMember} (h : b.Holds m.table ty) :
    extent? m ty = .ok (some b.extent) := by
  obtain ⟨kind, width, n, offset⟩ := b
  obtain ⟨hwidth, hwords⟩ := h
  obtain rfl : width = 32 := hwidth
  replace hwords : m.table.IsWords ty kind n := hwords
  cases hwords with
  | scalar hty =>
    have hextent : BufferMember.extent ⟨kind, 32, 1, offset⟩ = ⟨4, 4⟩ := by
      simp [BufferMember.extent]
    rw [hextent, extent?, Module.typeAt_eq_ok.mpr hty]
    cases kind <;> rfl
  | vector hty hty' hn =>
    have hscalar : (kind.ty 32).scalarWidth? = some 32 := by cases kind <;> rfl
    have hfit : Fault.checkWord 32 (n * (32 / 8)) = .ok (n * (32 / 8)) :=
      Fault.checkWord_eq_ok.mpr ⟨by omega, rfl⟩
    simp only [extent?, Module.typeAt_eq_ok.mpr hty, Module.typeAt_eq_ok.mpr hty', hscalar, hfit,
      bind, Except.bind, pure, Except.pure, BufferMember.extent]
    rcases hn.1.eq_or_lt with rfl | hlt
    · rfl
    · rw [if_neg (by omega), if_neg (by omega)]

/-- The first multiple of an alignment from a number on, whatever its size. -/
def roundUp (n align : Nat) : Nat := (n + align - 1) / align * align

theorem roundUp_isLeast {align : Nat} (n : Nat) (hpos : 0 < align) :
    IsLeast {k | align ∣ k ∧ n ≤ k} (roundUp n align) := by
  unfold roundUp
  refine ⟨⟨Nat.dvd_mul_left .., ?_⟩, ?_⟩
  · -- what is cut off is less than the alignment
    have hdiv := Nat.div_add_mod (n + align - 1) align
    have hmod := Nat.mod_lt (n + align - 1) hpos
    rw [Nat.mul_comm] at hdiv
    omega
  · rintro _ ⟨⟨k, rfl⟩, hk⟩
    rw [Nat.mul_comm align k]
    refine Nat.mul_le_mul_right _ ?_
    rw [Nat.div_le_iff_le_mul_add_pred hpos]
    omega

theorem alignUp_isLeast {n align offset : Nat} (h : alignUp n align = .ok offset) :
    IsLeast {k | align ∣ k ∧ n ≤ k} offset := by
  unfold alignUp at h
  split_ifs at h with hzero
  obtain ⟨-, rfl⟩ := Fault.checkWord_eq_ok.mp h
  exact roundUp_isLeast n (Nat.pos_of_ne_zero hzero)

theorem alignUp_answers {n align : Nat} (hpos : 1 ≤ align) (hfit : n + align ≤ 2 ^ 32) :
    ∃ offset, alignUp n align = .ok offset := by
  refine ⟨(n + align - 1) / align * align, ?_⟩
  rw [alignUp, if_neg (by omega)]
  refine Fault.checkWord_eq_ok.mpr ⟨?_, rfl⟩
  have := Nat.div_mul_le_self (n + align - 1) align
  omega

/-- Offsets are found for members that are made of words. -/
theorem offsetsFrom_of_words {start : Nat} {types : List EntryId} {found : Option (List Nat)}
    (hwords : ∀ ty ∈ types, ∃ kind n, m.table.IsWords ty kind n)
    (h : offsetsFrom m start types = .ok found) : ∃ members : List BufferMember,
      found = some (members.map (·.offset)) ∧
        List.Forall₂ (fun ty b => b.Holds m.table ty) types members := by
  induction types generalizing start found with
  | nil =>
    cases h
    exact ⟨[], rfl, .nil⟩
  | cons ty types ih =>
    obtain ⟨kind, n, hty⟩ := hwords ty List.mem_cons_self
    have hextent (offset : Nat) := extent?_of_holds (b := ⟨kind, 32, n, offset⟩) ⟨rfl, hty⟩
    simp only [offsetsFrom, hextent 0, bind_eq_ok, pure_eq_ok, Except.ok.injEq,
      exists_eq_left'] at h
    obtain ⟨offset, -, stop, -, rest, hrest, rfl⟩ := h
    obtain ⟨members, rfl, hmembers⟩ :=
      ih (fun ty hty => hwords ty (List.mem_cons_of_mem _ hty)) hrest
    exact ⟨⟨kind, 32, n, offset⟩ :: members, rfl, .cons ⟨rfl, hty⟩ hmembers⟩

/-- Members stand where the layout says. -/
theorem places_of_offsetsFrom {start : Nat} {types : List EntryId} {members : List BufferMember}
    (hmembers : List.Forall₂ (fun ty b => b.Holds m.table ty) types members)
    (h : offsetsFrom m start types = .ok (some (members.map (·.offset)))) :
    Places start members := by
  induction hmembers generalizing start with
  | nil => exact .nil
  | @cons ty b types members hb _ ih =>
    simp only [offsetsFrom, extent?_of_holds hb, bind_eq_ok, pure_eq_ok, Except.ok.injEq,
      exists_eq_left', Option.map_eq_some_iff, List.map_cons, List.cons.injEq] at h
    obtain ⟨offset, hoffset, stop, hstop, _, hrest, _, rfl, rfl, rfl⟩ := h
    obtain ⟨-, rfl⟩ := Fault.checkWord_eq_ok.mp hstop
    exact .cons (alignUp_isLeast hoffset) (ih hrest)

/-- Types that are made of words keep their layout. -/
theorem offsetsFrom_mono (hle : m.table ≤ m'.table) {types : List EntryId}
    {members : List BufferMember}
    (hmembers : List.Forall₂ (fun ty b => b.Holds m.table ty) types members) (start : Nat) :
    offsetsFrom m' start types = offsetsFrom m start types := by
  induction hmembers generalizing start with
  | nil => rfl
  | cons hb _ ih =>
    simp only [offsetsFrom, extent?_of_holds hb, extent?_of_holds (hb.mono hle), ih]

end Layout

end ShaderGen
