import ShaderGen.Proofs.Placement

/-!
The layout of a block is the least of all that are allowed. A member may stand at any multiple
of its alignment that is not inside the member before it. Standing at the first of them leaves
the most room for all that come after, so no other list of offsets is anywhere smaller. What
follows is read off that: members go up and do not overlap, members at the end change nothing
about those before them, and a scalar fits right behind a vector of three.
-/

namespace ShaderGen

/-- A numeric scalar of some width, or a vector of so many. -/
inductive Table.IsNumbers (t : Table) : EntryId → Nat → Nat → Prop
  | scalar {id : EntryId} {ty : Ty} {width : Nat} (h : t.IsType id ty)
      (hwidth : ty.scalarWidth? = some width) : IsNumbers t id width 1
  | vector {id scalar : EntryId} {ty : Ty} {width n : Nat} (h : t.IsType id (.vector scalar n))
      (h' : t.IsType scalar ty) (hwidth : ty.scalarWidth? = some width) : IsNumbers t id width n

/-- A type as it may be asked about. A numeric scalar has one of the four widths. A vector has
two to four components, which are such scalars or booleans. -/
inductive Table.Measurable (t : Table) (id : EntryId) : Prop
  | scalar {ty : Ty} {width : Nat} (h : t.IsType id ty) (hwidth : ty.scalarWidth? = some width)
      (hmem : width ∈ [8, 16, 32, 64])
  | vector {element : EntryId} {ty : Ty} {n : Nat} (h : t.IsType id (.vector element n))
      (hn : 2 ≤ n ∧ n ≤ 4) (h' : t.IsType element ty)
      (helement : ty = .bool ∨ ∃ width ∈ [8, 16, 32, 64], ty.scalarWidth? = some width)
  | other {ty : Ty} (h : t.IsType id ty) (hscalar : ty.scalarWidth? = none)
      (hvector : ∀ element n, ty ≠ .vector element n)

/-- The bytes of a number are a power of two. -/
theorem bytes_cases {width : Nat} (h : width ∈ [8, 16, 32, 64]) :
    width / 8 = 1 ∨ width / 8 = 2 ∨ width / 8 = 4 ∨ width / 8 = 8 := by
  simp only [List.mem_cons, List.not_mem_nil, or_false] at h
  omega

/-- A type is made of numbers of one width, and of one number of them. -/
theorem Table.IsNumbers.unique {t : Table} {id : EntryId} {width width' n n' : Nat}
    (h : t.IsNumbers id width n) (h' : t.IsNumbers id width' n') : width = width' ∧ n = n' := by
  cases h with
  | scalar hid hwidth =>
    cases h' with
    | scalar hid' hwidth' =>
      cases hid.unique hid'
      exact ⟨Option.some.inj (hwidth.symm.trans hwidth'), rfl⟩
    | vector hid' => cases hid.unique hid' ▸ hwidth
  | vector hid hscalar hwidth =>
    cases h' with
    | scalar hid' hwidth' => cases hid'.unique hid ▸ hwidth'
    | vector hid' hscalar' hwidth' =>
      cases hid.unique hid'
      cases hscalar.unique hscalar'
      exact ⟨Option.some.inj (hwidth.symm.trans hwidth'), rfl⟩

/-- A type that may be asked about is made of numbers or is not. -/
theorem Table.Measurable.cases_numbers {t : Table} {id : EntryId} (h : t.Measurable id) :
    (∃ width ∈ [8, 16, 32, 64], ∃ n, 1 ≤ n ∧ n ≤ 4 ∧ t.IsNumbers id width n) ∨
      ∀ width n, ¬t.IsNumbers id width n := by
  cases h with
  | scalar h hwidth hmem => exact .inl ⟨_, hmem, 1, by decide, by decide, .scalar h hwidth⟩
  | vector h hn h' helement =>
    rcases helement with rfl | ⟨width, hmem, hwidth⟩
    · right
      rintro width n (⟨hid, hwidth⟩ | ⟨hid, hscalar, hwidth⟩)
      · cases hid.unique h
        cases hwidth
      · cases hid.unique h
        cases hscalar.unique h'
        cases hwidth
    · exact .inl ⟨width, hmem, _, by omega, hn.2, .vector h h' hwidth⟩
  | other h hscalar hvector =>
    right
    rintro width n (⟨hid, hwidth⟩ | ⟨hid, -, -⟩)
    · cases hid.unique h
      rw [hscalar] at hwidth
      cases hwidth
    · exact hvector _ _ (h.unique hid)

theorem Table.IsNumbers.bounds {t : Table} {id : EntryId} {width n : Nat}
    (h : t.IsNumbers id width n) (hid : t.Measurable id) :
    width ∈ [8, 16, 32, 64] ∧ 1 ≤ n ∧ n ≤ 4 := by
  rcases hid.cases_numbers with ⟨width', hmem, n', hlow, hhigh, h'⟩ | hnone
  · obtain ⟨rfl, rfl⟩ := h.unique h'
    exact ⟨hmem, hlow, hhigh⟩
  · exact absurd h (hnone width n)

/-- What stands in one place of two lists that go together. -/
theorem forall₂_getElem? {α β : Type} {R : α → β → Prop} {xs : List α} {ys : List β}
    (h : List.Forall₂ R xs ys) {k : Nat} {x : α} (hx : xs[k]? = some x) :
    ∃ y, ys[k]? = some y ∧ R x y := by
  obtain ⟨hk, rfl⟩ := List.getElem?_eq_some_iff.mp hx
  have hk' : k < ys.length := h.length_eq ▸ hk
  exact ⟨ys[k], List.getElem?_eq_getElem hk', h.get hk hk'⟩

namespace Layout

variable {m : Module} {es : List Extent} {e : Extent} {offsets : List Nat} {start : Nat}

/-! ### Layouts that are allowed -/

/-- The bytes of so many numbers of some width and the alignment they need. Three numbers are
aligned like four. -/
def Extent.ofNumbers (width n : Nat) : Extent where
  size := n * (width / 8)
  align := (if n ≤ 2 then n else 4) * (width / 8)

/-- The extent of a member that is made of numbers. -/
def HasExtent (t : Table) (ty : EntryId) (e : Extent) : Prop :=
  ∃ width n, t.IsNumbers ty width n ∧ e = .ofNumbers width n

/-- Members may stand at some offsets: each is aligned, and none begins before the one in front
of it ends. -/
inductive Legal : Nat → List Extent → List Nat → Prop
  | nil {start : Nat} : Legal start [] []
  | cons {start offset : Nat} {e : Extent} {es : List Extent} {offsets : List Nat}
      (haligned : e.align ∣ offset) (hbehind : start ≤ offset)
      (hrest : Legal (offset + e.size) es offsets) : Legal start (e :: es) (offset :: offsets)

/-- Each member at the first multiple of its alignment from the end of the one before it on. -/
def greedyOffsets : Nat → List Extent → List Nat
  | _, [] => []
  | start, e :: es =>
    roundUp start e.align :: greedyOffsets (roundUp start e.align + e.size) es

/-- The first byte behind each member. -/
def stops (es : List Extent) (offsets : List Nat) : List Nat :=
  List.zipWith (fun e offset => offset + e.size) es offsets

theorem legal_greedyOffsets (hpos : ∀ e ∈ es, 0 < e.align) (start : Nat) :
    Legal start es (greedyOffsets start es) := by
  induction es generalizing start with
  | nil => exact .nil
  | cons e es ih =>
    obtain ⟨hdvd, hle⟩ := (roundUp_isLeast start (hpos e List.mem_cons_self)).1
    exact .cons hdvd hle (ih (fun e he => hpos e (List.mem_cons_of_mem _ he)) _)

/-- Standing as early as possible is best for all that come after. -/
theorem greedyOffsets_le (hpos : ∀ e ∈ es, 0 < e.align) {start' : Nat} (hstart : start ≤ start')
    (h : Legal start' es offsets) : List.Forall₂ (· ≤ ·) (greedyOffsets start es) offsets := by
  -- The starts may differ, since behind the first member they do.
  induction h generalizing start with
  | nil => exact .nil
  | @cons start' offset e es offsets haligned hbehind _ ih =>
    have hle : roundUp start e.align ≤ offset :=
      (roundUp_isLeast start (hpos e List.mem_cons_self)).2 ⟨haligned, hstart.trans hbehind⟩
    exact .cons hle (ih (fun e he => hpos e (List.mem_cons_of_mem _ he))
      (Nat.add_le_add_right hle _))

theorem greedyOffsets_take (start k : Nat) (es : List Extent) :
    greedyOffsets start (es.take k) = (greedyOffsets start es).take k := by
  induction es generalizing start k with
  | nil => simp [greedyOffsets]
  | cons e es ih =>
    cases k with
    | zero => rfl
    | succ k => rw [List.take_succ_cons, greedyOffsets, greedyOffsets, List.take_succ_cons, ih]

namespace Legal

theorem length_eq (h : Legal start es offsets) : offsets.length = es.length := by
  induction h with
  | nil => rfl
  | cons _ _ _ ih => simp [ih]

theorem start_le (h : Legal start es offsets) : ∀ offset ∈ offsets, start ≤ offset := by
  induction h with
  | nil => simp
  | cons _ hbehind _ ih =>
    refine List.forall_mem_cons.mpr ⟨hbehind, fun offset hoffset => ?_⟩
    exact hbehind.trans ((Nat.le_add_right _ _).trans (ih offset hoffset))

/-- Members of a layout do not overlap. -/
theorem disjoint (h : Legal start es offsets) : (es.zip offsets).Pairwise fun x y =>
    Disjoint (Set.Ico x.2 (x.2 + x.1.size)) (Set.Ico y.2 (y.2 + y.1.size)) := by
  induction h with
  | nil => exact .nil
  | cons _ _ hrest ih =>
    refine .cons (fun y hy => Set.Ico_disjoint_Ico.mpr ?_) ih
    exact (min_le_left _ _).trans
      ((hrest.start_le y.2 (List.of_mem_zip hy).2).trans (le_max_right _ _))

/-- Offsets go up, since no member is empty. -/
theorem increasing (h : Legal start es offsets) (hpos : ∀ e ∈ es, 0 < e.size) :
    offsets.Pairwise (· < ·) := by
  induction h with
  | nil => exact .nil
  | cons _ _ hrest ih =>
    refine .cons (fun offset hoffset => ?_) (ih fun e he => hpos e (List.mem_cons_of_mem _ he))
    exact (Nat.lt_add_of_pos_right (hpos _ List.mem_cons_self)).trans_le
      (hrest.start_le offset hoffset)

end Legal

/-! ### The layout of members -/

section Members

variable {ty : EntryId} {types : List EntryId}

theorem extent?_of_hasExtent (hty : m.table.Measurable ty) (h : HasExtent m.table ty e) :
    extent? m ty = .ok (some e) := by
  obtain ⟨width, n, hnumbers, rfl⟩ := h
  obtain ⟨hwidth, -, hn⟩ := hnumbers.bounds hty
  cases hnumbers with
  | scalar hid hscalar =>
    rw [extent?, Module.typeAt_eq_ok.mpr hid]
    rename_i t
    cases t <;> cases hscalar <;> simp [Extent.ofNumbers, bind, Except.bind, pure, Except.pure]
  | vector hid hscalar hwidth' =>
    have hlow : 2 ≤ n := by
      cases hty with
      | scalar h hwidth => cases h.unique hid ▸ hwidth
      | vector h hn => cases h.unique hid; exact hn.1
      | other h _ hvector => exact absurd (h.unique hid) (hvector _ _)
    have hfit : Fault.checkWord 32 (n * (width / 8)) = .ok (n * (width / 8)) := by
      refine Fault.checkWord_eq_ok.mpr ⟨?_, rfl⟩
      have : n * (width / 8) ≤ 4 * 8 := Nat.mul_le_mul hn (by have := bytes_cases hwidth; omega)
      omega
    simp only [extent?, Module.typeAt_eq_ok.mpr hid, Module.typeAt_eq_ok.mpr hscalar, hwidth', hfit,
      bind, Except.bind, pure, Except.pure, Extent.ofNumbers]
    rcases hlow.eq_or_lt with rfl | hlt
    · rfl
    · rw [if_neg (by omega), if_neg (by omega)]

/-- What is not made of numbers has no extent. -/
theorem extent?_eq_none (hty : m.table.Measurable ty)
    (h : ∀ width n, ¬m.table.IsNumbers ty width n) : extent? m ty = .ok none := by
  cases hty with
  | scalar hid hwidth => exact absurd (.scalar hid hwidth) (h _ 1)
  | vector hid _ helement hcases =>
    rcases hcases with rfl | ⟨width, -, hwidth⟩
    · simp only [extent?, Module.typeAt_eq_ok.mpr hid, Module.typeAt_eq_ok.mpr helement, bind,
        Except.bind]
      rfl
    · exact absurd (.vector hid helement hwidth) (h _ _)
  | @other ty hid hscalar hvector =>
    rw [extent?, Module.typeAt_eq_ok.mpr hid]
    cases ty with
    | int => cases hscalar
    | float => cases hscalar
    | vector element n => exact absurd rfl (hvector element n)
    | _ => rfl

theorem HasExtent.pos (hty : m.table.Measurable ty) (h : HasExtent m.table ty e) :
    0 < e.align ∧ 0 < e.size := by
  obtain ⟨width, n, hnumbers, rfl⟩ := h
  obtain ⟨hwidth, hn, -⟩ := hnumbers.bounds hty
  have hbytes : 0 < width / 8 := by have := bytes_cases hwidth; omega
  refine ⟨Nat.mul_pos ?_ hbytes, Nat.mul_pos hn hbytes⟩
  split
  · exact hn
  · decide

theorem offsetsFrom_cons (hextent : extent? m ty = .ok (some e)) (hpos : 0 < e.align)
    (hfit : roundUp start e.align + e.size < 2 ^ 32) : offsetsFrom m start (ty :: types) =
      Option.map (roundUp start e.align :: ·) <$>
        offsetsFrom m (roundUp start e.align + e.size) types := by
  have halign : alignUp start e.align = .ok (roundUp start e.align) := by
    rw [alignUp, if_neg hpos.ne']
    exact Fault.checkWord_eq_ok.mpr ⟨(Nat.le_add_right _ _).trans_lt hfit, rfl⟩
  simp only [offsetsFrom, hextent, halign, Fault.checkWord_eq_ok.mpr ⟨hfit, rfl⟩, bind,
    Except.bind, pure, Except.pure]
  cases offsetsFrom m (roundUp start e.align + e.size) types <;> rfl

theorem offsetsFrom_eq (htypes : ∀ ty ∈ types, m.table.Measurable ty)
    (hes : List.Forall₂ (HasExtent m.table) types es)
    (hfit : ∀ stop ∈ stops es (greedyOffsets start es), stop < 2 ^ 32) :
    offsetsFrom m start types = .ok (some (greedyOffsets start es)) := by
  induction hes generalizing start with
  | nil => rfl
  | @cons ty e types es h _ ih =>
    have hty := htypes ty List.mem_cons_self
    obtain ⟨hstop, hfit⟩ := List.forall_mem_cons.mp hfit
    rw [offsetsFrom_cons (extent?_of_hasExtent hty h) (h.pos hty).1 hstop,
      ih (fun ty hty => htypes ty (List.mem_cons_of_mem _ hty)) hfit]
    rfl

/-- The first member that is not made of numbers ends the layout. -/
theorem offsetsFrom_eq_none (htypes : ∀ ty ∈ types, m.table.Measurable ty)
    (hnone : ∃ ty ∈ types, ∀ width n, ¬m.table.IsNumbers ty width n)
    (hfit : ∀ pre es, pre <+: types → List.Forall₂ (HasExtent m.table) pre es →
      ∀ stop ∈ stops es (greedyOffsets start es), stop < 2 ^ 32) :
    offsetsFrom m start types = .ok none := by
  induction types generalizing start with
  | nil => simp at hnone
  | cons ty types ih =>
    have hty := htypes ty List.mem_cons_self
    by_cases hnumbers : ∃ width n, m.table.IsNumbers ty width n
    · -- It is laid out before the member without an extent is reached, so it has to fit.
      obtain ⟨width, n, hnumbers⟩ := hnumbers
      have h : HasExtent m.table ty (.ofNumbers width n) := ⟨width, n, hnumbers, rfl⟩
      have hrest : ∃ ty ∈ types, ∀ width n, ¬m.table.IsNumbers ty width n := by
        obtain ⟨ty', hty', hnot⟩ := hnone
        rcases List.mem_cons.mp hty' with rfl | hmem
        · exact absurd hnumbers (hnot width n)
        · exact ⟨ty', hmem, hnot⟩
      have hstop := hfit [ty] [_] ⟨types, rfl⟩ (.cons h .nil) _ List.mem_cons_self
      rw [offsetsFrom_cons (extent?_of_hasExtent hty h) (h.pos hty).1 hstop,
        ih (fun ty hty => htypes ty (List.mem_cons_of_mem _ hty)) hrest]
      · rfl
      · exact fun pre es hpre hes stop hmem => hfit (ty :: pre) (_ :: es)
          (List.cons_prefix_cons.mpr ⟨rfl, hpre⟩) (.cons h hes) stop (List.mem_cons_of_mem _ hmem)
    · rw [offsetsFrom, extent?_eq_none hty fun width n h => hnumbers ⟨width, n, h⟩]
      rfl

end Members

/-- Types that are all made of numbers have extents. -/
theorem exists_extents {t : Table} {types : List EntryId}
    (h : ∀ ty ∈ types, ∃ width n, t.IsNumbers ty width n) :
    ∃ es, List.Forall₂ (HasExtent t) types es := by
  induction types with
  | nil => exact ⟨[], .nil⟩
  | cons ty types ih =>
    obtain ⟨width, n, hty⟩ := h ty List.mem_cons_self
    obtain ⟨es, hes⟩ := ih fun ty hty => h ty (List.mem_cons_of_mem _ hty)
    exact ⟨_ :: es, .cons ⟨width, n, hty, rfl⟩ hes⟩

theorem roundUp_of_dvd {n align : Nat} (hpos : 0 < align) (h : align ∣ n) :
    roundUp n align = n :=
  le_antisymm ((roundUp_isLeast n hpos).2 ⟨h, le_refl n⟩) (roundUp_isLeast n hpos).1.2

/-- A member whose alignment fits the end of the one before it stands right there. -/
theorem greedyOffsets_adjacent (hpos : ∀ e ∈ es, 0 < e.align) {k : Nat} {e' : Extent}
    (he : es[k]? = some e) (he' : es[k + 1]? = some e')
    (hfits : ∀ offset, e.align ∣ offset → e'.align ∣ offset + e.size) :
    ∃ offset, (greedyOffsets start es)[k]? = some offset ∧
      (greedyOffsets start es)[k + 1]? = some (offset + e.size) := by
  induction es generalizing start k with
  | nil => simp at he
  | cons e₀ es ih =>
    obtain ⟨hpos₀, hpos⟩ := List.forall_mem_cons.mp hpos
    cases k with
    | succ k => exact ih hpos he he'
    | zero =>
      obtain rfl := Option.some.inj he
      cases es with
      | nil => simp at he'
      | cons e₁ es =>
        obtain rfl := Option.some.inj he'
        have hdvd := hfits _ (roundUp_isLeast start hpos₀).1.1
        refine ⟨roundUp start e₀.align, rfl, ?_⟩
        change some (roundUp _ _) = _
        rw [roundUp_of_dvd (hpos _ List.mem_cons_self) hdvd]

/-- A number that is no larger fits behind three others, in the room of a fourth. -/
theorem fits_behind_three {width width' : Nat} (hwidth : width ∈ [8, 16, 32, 64])
    (hwidth' : width' ∈ [8, 16, 32, 64]) (hle : width' ≤ width) (offset : Nat)
    (h : (Extent.ofNumbers width 3).align ∣ offset) :
    (Extent.ofNumbers width' 1).align ∣ offset + (Extent.ofNumbers width 3).size := by
  have hdvd : width' / 8 ∣ width / 8 := by
    simp only [List.mem_cons, List.not_mem_nil, or_false] at hwidth hwidth'
    rcases hwidth with rfl | rfl | rfl | rfl <;> rcases hwidth' with rfl | rfl | rfl | rfl <;>
      omega
  simp only [Extent.ofNumbers, Nat.reduceLeDiff, if_true, if_false, one_mul] at h ⊢
  exact Nat.dvd_add ((hdvd.mul_left 4).trans h) (hdvd.mul_left 3)

/-- What is known of offsets of members that are made of numbers: they are a layout that is
allowed, and nowhere is another one smaller; they go up, and no byte belongs to two members; a
scalar that is no larger than those of a vector of three stands right behind it; and the
members at the end have no part in the offsets of those before them. -/
structure BestOffsets (m : Module) (members : List EntryId) (es : List Extent)
    (offsets : List Nat) : Prop where
  legal : Legal 0 es offsets
  least : ∀ others, Legal 0 es others → List.Forall₂ (· ≤ ·) offsets others
  increasing : offsets.Pairwise (· < ·)
  disjoint : (es.zip offsets).Pairwise fun x y =>
    Disjoint (Set.Ico x.2 (x.2 + x.1.size)) (Set.Ico y.2 (y.2 + y.1.size))
  fourth : ∀ k triple scalar width width', members[k]? = some triple →
    members[k + 1]? = some scalar → m.table.IsNumbers triple width 3 →
    m.table.IsNumbers scalar width' 1 → width' ≤ width →
    ∃ offset, offsets[k]? = some offset ∧ offsets[k + 1]? = some (offset + 3 * (width / 8))
  prefixes : ∀ k, offsets? m (members.take k) = .ok (some (offsets.take k))

theorem bestOffsets {members : List EntryId} (hmembers : ∀ ty ∈ members, m.table.Measurable ty)
    (hes : List.Forall₂ (HasExtent m.table) members es)
    (hfit : ∀ stop ∈ stops es (greedyOffsets 0 es), stop < 2 ^ 32) :
    BestOffsets m members es (greedyOffsets 0 es) := by
  have hpos : ∀ e ∈ es, 0 < e.align ∧ 0 < e.size := by
    intro e he
    obtain ⟨k, hk⟩ := List.mem_iff_getElem?.mp he
    obtain ⟨ty, hty, h⟩ := forall₂_getElem? hes.flip hk
    exact HasExtent.pos (hmembers ty (List.mem_of_getElem? hty)) h
  have halign : ∀ e ∈ es, 0 < e.align := fun e he => (hpos e he).1
  have hlegal := legal_greedyOffsets halign 0
  refine ⟨hlegal, fun others => greedyOffsets_le halign (le_refl 0), hlegal.increasing
    fun e he => (hpos e he).2, hlegal.disjoint, ?_, fun k => ?_⟩
  · intro k triple scalar width width' htriple hscalar hthree hone hle
    obtain ⟨_, he, _, _, hnumbers, rfl⟩ := forall₂_getElem? hes htriple
    obtain ⟨rfl, rfl⟩ := hnumbers.unique hthree
    obtain ⟨_, he', _, _, hnumbers', rfl⟩ := forall₂_getElem? hes hscalar
    obtain ⟨rfl, rfl⟩ := hnumbers'.unique hone
    have hwidth := (hthree.bounds (hmembers triple (List.mem_of_getElem? htriple))).1
    have hwidth' := (hone.bounds (hmembers scalar (List.mem_of_getElem? hscalar))).1
    exact greedyOffsets_adjacent halign he he' (fits_behind_three hwidth hwidth' hle)
  · rw [← greedyOffsets_take]
    refine offsetsFrom_eq (fun ty hty => hmembers ty (List.mem_of_mem_take hty))
      (List.forall₂_take k hes) fun stop hstop => ?_
    rw [greedyOffsets_take, stops, ← List.take_zipWith] at hstop
    exact hfit stop (List.mem_of_mem_take hstop)

/-- The layout of members is missing exactly if one of them is no number and no vector of
numbers, and otherwise it is the least one. -/
theorem offsets?_isLeast (m : Module) (members : List EntryId)
    (hmembers : ∀ ty ∈ members, m.table.Measurable ty)
    (hfit : ∀ pre es, pre <+: members → List.Forall₂ (HasExtent m.table) pre es →
      ∀ stop ∈ stops es (greedyOffsets 0 es), stop < 2 ^ 32) :
    (offsets? m members = .ok none ↔
      ∃ ty ∈ members, ∀ width n, ¬m.table.IsNumbers ty width n) ∧
    ((∀ ty ∈ members, ∃ width n, m.table.IsNumbers ty width n) →
      ∃ es offsets, List.Forall₂ (HasExtent m.table) members es ∧
        offsets? m members = .ok (some offsets) ∧ BestOffsets m members es offsets) := by
  have hnumbers : (∀ ty ∈ members, ∃ width n, m.table.IsNumbers ty width n) →
      ∃ es offsets, List.Forall₂ (HasExtent m.table) members es ∧
        offsets? m members = .ok (some offsets) ∧ BestOffsets m members es offsets := by
    intro hall
    obtain ⟨es, hes⟩ := exists_extents hall
    have hfit := hfit members es List.prefix_rfl hes
    exact ⟨es, _, hes, offsetsFrom_eq hmembers hes hfit, bestOffsets hmembers hes hfit⟩
  refine ⟨⟨fun hnone => ?_, fun h => offsetsFrom_eq_none hmembers h hfit⟩, hnumbers⟩
  by_contra hall
  push Not at hall
  obtain ⟨es, offsets, -, hsome, -⟩ := hnumbers hall
  rw [hnone] at hsome
  cases hsome

/-- A member takes 32 bytes at most, and as many may be left empty in front of it; so members
that are few enough fit. -/
theorem stops_lt {types : List EntryId} (htypes : ∀ ty ∈ types, m.table.Measurable ty)
    (hes : List.Forall₂ (HasExtent m.table) types es) (hfew : start + 64 * types.length < 2 ^ 32) :
    ∀ stop ∈ stops es (greedyOffsets start es), stop < 2 ^ 32 := by
  induction hes generalizing start with
  | nil => simp [stops]
  | @cons ty e types es h _ ih =>
    obtain ⟨hty, htypes⟩ := List.forall_mem_cons.mp htypes
    have hstop : roundUp start e.align + e.size ≤ start + 64 := by
      obtain ⟨width, n, hnumbers, rfl⟩ := h
      obtain ⟨hwidth, hn⟩ := hnumbers.bounds hty
      have hbytes := bytes_cases hwidth
      have hround := Nat.div_mul_le_self (start + (Extent.ofNumbers width n).align - 1)
        (Extent.ofNumbers width n).align
      have halign : (Extent.ofNumbers width n).align ≤ 4 * 8 := by
        refine Nat.mul_le_mul ?_ (by omega)
        split
        · omega
        · exact le_refl 4
      have hsize : (Extent.ofNumbers width n).size ≤ 4 * 8 := Nat.mul_le_mul hn.2 (by omega)
      rw [roundUp]
      omega
    rw [List.length_cons] at hfew
    refine List.forall_mem_cons.mpr ⟨?_, ih htypes ?_⟩
    · change roundUp start e.align + e.size < 2 ^ 32
      omega
    · omega

/-- A word, vectors of three words and of three doubles, and booleans. -/
def fewTypes : Module where
  table := .ofList [.type (.int 32 false), .type (.vector ⟨0⟩ 3), .type (.float 64),
    .type (.vector ⟨2⟩ 3), .type .bool]

theorem fewTypes_measurable : ∀ ty ∈ [⟨0⟩, ⟨1⟩, ⟨2⟩, ⟨3⟩, ⟨4⟩], fewTypes.table.Measurable ty := by
  simp only [List.forall_mem_cons, List.not_mem_nil, false_imp_iff, implies_true, and_true]
  have hword : fewTypes.table.IsType ⟨0⟩ (.int 32 false) := rfl
  have hdouble : fewTypes.table.IsType ⟨2⟩ (.float 64) := rfl
  exact ⟨.scalar hword rfl (by decide),
    .vector rfl (by decide) hword (.inr ⟨32, by decide, rfl⟩),
    .scalar hdouble rfl (by decide),
    .vector rfl (by decide) hdouble (.inr ⟨64, by decide, rfl⟩),
    .other rfl rfl nofun⟩

/-- A word stands right behind three words, and three doubles leave room in front of them. -/
theorem offsets?_isLeast_fewTypes :
    offsets? fewTypes [⟨1⟩, ⟨0⟩, ⟨3⟩, ⟨2⟩] = .ok (some [0, 12, 32, 56]) ∧
    (∃ es, BestOffsets fewTypes [⟨1⟩, ⟨0⟩, ⟨3⟩, ⟨2⟩] es [0, 12, 32, 56]) ∧
    offsets? fewTypes [⟨1⟩, ⟨4⟩, ⟨0⟩] = .ok none ∧
    ∃ ty ∈ [⟨1⟩, ⟨4⟩, ⟨0⟩], ∀ width n, ¬fewTypes.table.IsNumbers ty width n := by
  have hmembers : ∀ members : List EntryId, members ⊆ [⟨0⟩, ⟨1⟩, ⟨2⟩, ⟨3⟩, ⟨4⟩] →
      ∀ ty ∈ members, fewTypes.table.Measurable ty :=
    fun members hsub ty hty => fewTypes_measurable ty (hsub hty)
  have hfit : ∀ members : List EntryId, members ⊆ [⟨0⟩, ⟨1⟩, ⟨2⟩, ⟨3⟩, ⟨4⟩] →
      members.length ≤ 4 → ∀ pre es, pre <+: members →
        List.Forall₂ (HasExtent fewTypes.table) pre es →
          ∀ stop ∈ stops es (greedyOffsets 0 es), stop < 2 ^ 32 := by
    intro members hsub hlength pre es hpre hes
    refine stops_lt (fun ty hty => hmembers members hsub ty (hpre.subset hty)) hes ?_
    have := hpre.length_le
    omega
  have hsome := offsets?_isLeast fewTypes [⟨1⟩, ⟨0⟩, ⟨3⟩, ⟨2⟩] (hmembers _ (by decide))
    (hfit _ (by decide) (by decide))
  have hnone := offsets?_isLeast fewTypes [⟨1⟩, ⟨4⟩, ⟨0⟩] (hmembers _ (by decide))
    (hfit _ (by decide) (by decide))
  have hlayout : offsets? fewTypes [⟨1⟩, ⟨0⟩, ⟨3⟩, ⟨2⟩] = .ok (some [0, 12, 32, 56]) := rfl
  have hnumbers : ∀ ty ∈ [⟨1⟩, ⟨0⟩, ⟨3⟩, ⟨2⟩], ∃ width n, fewTypes.table.IsNumbers ty width n := by
    by_contra h
    push Not at h
    cases hlayout.symm.trans (hsome.1.mpr h)
  obtain ⟨es, offsets, -, hoffsets, hbest⟩ := hsome.2 hnumbers
  cases hlayout.symm.trans hoffsets
  exact ⟨rfl, ⟨es, hbest⟩, rfl, hnone.1.mp rfl⟩

end Layout

end ShaderGen
