import Mathlib.Tactic.Linarith
import Mathlib.Tactic.Positivity
import Mathlib.Tactic.Zify
import ShaderGen.Proofs.Literals
import ShaderGen.Proofs.Searching
import ShaderGen.Proofs.Types

/-!
Producing constants. A constant that is produced for a type has exactly that type.
An integer is drawn between the bounds of its width, so it fits, a float is drawn
in a format that holds what is shown of it, and a composite gets a constant of the
right type for each of its parts.
-/

namespace ShaderGen

/-! ### Integers -/

theorem Config.width_mem {c : Config} {width : Nat}
    (h : width ∈ c.intWidths ∨ width ∈ c.floatWidths) : 1 ≤ width ∧ width ≤ 64 := by
  have hmem : width ∈ [8, 16, 32, 64] ∨ width ∈ [16, 32, 64] :=
    h.imp List.mem_of_mem_filter List.mem_of_mem_filter
  simp only [List.mem_cons, List.not_mem_nil, or_false] at hmem
  omega

/-- The range of an integer type. -/
def InRange (width : Nat) (signed : Bool) (v : Int) : Prop :=
  match signed with
  | true => -2 ^ (width - 1) ≤ v ∧ v < 2 ^ (width - 1)
  | false => 0 ≤ v ∧ v < 2 ^ width

theorem intBounds_eq_ok {width : Nat} {signed : Bool} {lo hi : Int}
    (h : intBounds width signed = .ok (lo, hi)) :
    lo ≤ hi ∧ ∀ v : Int, lo ≤ v → v ≤ hi → InRange width signed v := by
  unfold intBounds at h
  cases signed with
  | false =>
    have hcast : ((Nat.pow 2 width : Nat) : Int) = 2 ^ width := Nat.cast_pow 2 width
    have hpos : (0 : Int) < 2 ^ width := by positivity
    simp only [Bool.false_eq_true, if_false, hcast] at h
    split at h <;> cases h
    exact ⟨by omega, fun v hlo hhi => ⟨hlo, by omega⟩⟩
  | true =>
    have hcast : ((Nat.pow 2 (width - 1) : Nat) : Int) = 2 ^ (width - 1) := Nat.cast_pow 2 _
    have hpos : (0 : Int) < 2 ^ (width - 1) := by positivity
    simp only [if_true, hcast] at h
    split at h <;> cases h
    exact ⟨by omega, fun v hlo hhi => ⟨hlo, by omega⟩⟩

theorem clampInt_mem {lo hi : Int} (h : lo ≤ hi) (v : Int) :
    lo ≤ clampInt lo hi v ∧ clampInt lo hi v ≤ hi := by
  unfold clampInt
  split_ifs <;> omega

/-- An integer within the range of a width of at most 64 bits is kept. -/
theorem intLiteral_fits {width : Nat} {signed : Bool} {v : Int} (hw : 1 ≤ width ∧ width ≤ 64)
    (h : InRange width signed v) : (intLiteral signed v).Fits width signed := by
  cases signed with
  | false =>
    obtain ⟨h0, hlt⟩ := h
    have hpow : (2 : Int) ^ width ≤ 2 ^ 64 := pow_le_pow_right₀ (by norm_num) hw.2
    have hsize : (UInt64.size : Int) = 2 ^ 64 := rfl
    have hkept : intLiteral false v = .uint v.toNat := by
      simp only [intLiteral, Bool.false_eq_true, if_false, hsize]
      rw [if_pos ⟨h0, by omega⟩]
    rw [hkept]
    refine ⟨rfl, ?_⟩
    zify -- the bound is one of integers, the literal is a natural number
    rwa [Int.toNat_of_nonneg h0]
  | true =>
    obtain ⟨hlo, hlt⟩ := h
    have hpow : (2 : Int) ^ (width - 1) ≤ 2 ^ 63 := pow_le_pow_right₀ (by norm_num) (by omega)
    have hsize : ((UInt64.size / 2 : Nat) : Int) = 2 ^ 63 := rfl
    have hkept : intLiteral true v = .int v := by
      simp only [intLiteral, if_true, hsize]
      rw [if_pos ⟨by omega, by omega⟩]
    rw [hkept]
    exact ⟨rfl, hlo, hlt⟩

variable {ρ : Type} [RandomSource ρ] {c : Config} {s : State ρ}

namespace Gen

theorem between_mem [BoundedRandomSource ρ] (words : Nat) {lo hi : Int} (h : lo ≤ hi)
    (source : ρ) : lo ≤ (RandomSource.between words lo hi source).1 ∧
      (RandomSource.between words lo hi source).1 ≤ hi := by
  have := BoundedRandomSource.below_lt words (hi - lo + 1).toNat source (by omega)
  simp only [RandomSource.between]
  omega

theorem intValue_quietly [BoundedRandomSource ρ] (hs : s.Sound c) {width : Nat} {signed : Bool}
    (hw : 1 ≤ width ∧ width ≤ 64) :
    Quietly c s (intValue width signed) fun value _ => value.Fits width signed := by
  refine (Quietly.checked (fun bounds s' => s' = s ∧ intBounds width signed = .ok bounds) hs
    fun _ h => ⟨rfl, h⟩).seq ?_
  rintro ⟨lo, hi⟩ _ - ⟨rfl, hbounds⟩
  obtain ⟨hle, hfits⟩ := intBounds_eq_ok hbounds
  refine (chance_quietly hs _).seq fun _ s₁ q₁ _ => ?_
  split_ifs
  · refine (Quietly.draw q₁.sound).seq fun k s₂ q₂ _ => .pure q₂.sound ?_
    obtain ⟨hlo, hhi⟩ := clampInt_mem hle (interestingInts.getD k 0)
    exact intLiteral_fits hw (hfits _ hlo hhi)
  · refine (Quietly.draw q₁.sound).seq fun v s₂ q₂ hv => .pure q₂.sound ?_
    obtain ⟨_, rfl⟩ := hv
    obtain ⟨hlo, hhi⟩ := between_mem 4 hle s₁.source
    exact intLiteral_fits hw (hfits _ hlo hhi)

theorem floatValue_quietly [BoundedRandomSource ρ] (hs : s.Sound c) {width : Nat}
    (hw : width ∈ c.floatWidths) :
    Quietly c s (floatValue width) fun value _ => value.IsShown width := by
  unfold floatValue
  split_ifs with h16 h32
  · refine (Quietly.draw hs).seq fun k s₁ q₁ hk => .pure q₁.sound ?_
    obtain ⟨_, rfl⟩ := hk
    obtain ⟨hlow, hhigh⟩ := between_mem 1 (by decide : (-1023 : Int) ≤ 1023) s.source
    exact Literal.isShown_ofQuarters (by omega) hlow hhigh
  · exact (Quietly.draw hs).seq fun x s₁ q₁ _ =>
      .pure q₁.sound (Literal.isShown_ofSingle (by omega) x)
  · have hmem : width ∈ [16, 32, 64] := List.mem_of_mem_filter hw
    simp only [List.mem_cons, List.not_mem_nil, or_false] at hmem
    exact (Quietly.draw hs).seq fun x s₁ q₁ _ =>
      .pure q₁.sound (Literal.isShown_ofFloat (by omega) x)

/-! ### Existing entries -/

theorem existingType_quietly (hs : s.Sound c) (test : Ty → Bool) :
    Quietly c s (existingType test) fun id s' =>
      ∃ ty, s'.code.table.IsType id ty ∧ test ty = true := by
  refine (Quietly.get hs).seq ?_
  rintro _ _ - ⟨rfl, rfl⟩
  refine (pick_quietly hs _).mono fun id s' q hid => ?_
  obtain ⟨⟨_, ty⟩, hmem, rfl⟩ := List.mem_map.mp hid.1
  obtain ⟨hty, ht⟩ := List.mem_filter.mp hmem
  exact ⟨ty, q.table_le (Table.mem_types.mp hty), ht⟩

omit [RandomSource ρ] in
theorem constantsOf_quietly (hs : s.Sound c) (ty : EntryId) :
    Quietly c s (constantsOf ty) fun ids s' =>
      s' = s ∧ ∀ id ∈ ids, s.code.table.HasConst id ty := by
  refine (Quietly.get hs).seq ?_
  rintro _ _ - ⟨rfl, rfl⟩
  refine .pure hs ⟨rfl, fun id hid => ?_⟩
  obtain ⟨⟨_, k⟩, hmem, rfl⟩ := List.mem_map.mp hid
  obtain ⟨hk, hty⟩ := List.mem_filter.mp hmem
  exact ⟨k, Table.mem_constants.mp hk, beq_iff_eq.mp hty⟩

/-! ### New constants -/

omit [RandomSource ρ] in
theorem internConst_quietly (hs : s.Sound c) {k : Const} (hk : k.WellFormed s.code.table) :
    Quietly c s (internConst k) fun id s' => s'.code.table.HasConst id k.ty :=
  (Quietly.internConst hs k hk).mono fun _ _ _ h => ⟨k, h, rfl⟩

/-- The part of a composite at an index: one that exists or a new one. -/
theorem partConstant_quietly {make : EntryId → Gen ρ EntryId}
    (hmake : ∀ part (s : State ρ), s.Sound c →
      Quietly c s (make part) fun id s' => s'.code.table.HasConst id part)
    (hs : s.Sound c) (ty : EntryId) (index : Nat) :
    Quietly c s (partConstant make ty index) fun id s' =>
      ∃ part, s'.code.table.Part ty index part ∧ s'.code.table.HasConst id part := by
  refine .part hs fun part hpart => ?_
  have hnew (s' : State ρ) (q : Quiet c s s') : Quietly c s' (make part) fun id s' =>
      ∃ part, s'.code.table.Part ty index part ∧ s'.code.table.HasConst id part :=
    (hmake part s' q.sound).mono fun id s'' q' h => ⟨part, hpart.mono (q.trans q').table_le, h⟩
  refine (constantsOf_quietly hs part).seq ?_
  rintro existing _ - ⟨rfl, hexisting⟩
  split
  · exact hnew _ (.refl hs)
  · refine (chance_quietly hs _).seq fun b s₁ q₁ _ => ?_
    split
    · refine (pick_quietly q₁.sound existing).mono fun id s₂ q₂ hid => ?_
      have hle := (q₁.trans q₂).table_le
      exact ⟨part, hpart.mono hle, (hexisting id hid.1).mono hle⟩
    · exact hnew s₁ q₁

/-- A composite constant has a part for each place. -/
theorem compositeConstant_quietly {make : EntryId → Gen ρ EntryId}
    (hmake : ∀ part (s : State ρ), s.Sound c →
      Quietly c s (make part) fun id s' => s'.code.table.HasConst id part)
    (hs : s.Sound c) {ty : EntryId} {t : Ty} (ht : s.code.table.IsType ty t)
    (hcomposite : t.isComposite = true) :
    Quietly c s (compositeConstant make ty) fun id s' => s'.code.table.HasConst id ty := by
  refine (Quietly.query hs).seq ?_
  rintro count s - ⟨rfl, hcount⟩
  refine (Quietly.mapM (fun index p s' => ∃ part, s'.code.table.Part ty index part ∧
    s'.code.table.HasConst p part) ?_ hs fun index _ s' q =>
      partConstant_quietly hmake q.sound ty index).seq fun parts s₁ q₁ hparts => ?_
  · rintro index p s s' q ⟨part, hpart, hp⟩
    exact ⟨part, hpart.mono q.table_le, hp.mono q.table_le⟩
  · obtain ⟨hlength, hparts⟩ := forall₂_range hparts
    have hcount₁ :=
      (Module.arity_of_componentCount hs.table ht hcomposite hcount).mono q₁.table_le
    exact internConst_quietly (k := .composite ty parts) q₁.sound ⟨hlength ▸ hcount₁, hparts⟩

section Bounded

variable [BoundedRandomSource ρ]

theorem constantWithin_quietly (nesting : Nat) (hs : s.Sound c) (ty : EntryId) :
    Quietly c s (constantWithin nesting ty) fun id s' => s'.code.table.HasConst id ty := by
  induction nesting generalizing s ty with
  | zero => exact .fault hs
  | succ nesting ih =>
    refine (Quietly.typeAt hs _).seq ?_
    rintro t s - ⟨rfl, ht⟩
    cases t with
    | bool =>
      refine (chance_quietly hs _).seq fun b s₁ q₁ _ => ?_
      exact internConst_quietly (k := .bool ty b) q₁.sound (q₁.table_le ht)
    | int width signed =>
      refine (intValue_quietly hs (Config.width_mem (hs.table.entry ht))).seq fun v s₁ q₁ hv => ?_
      exact internConst_quietly (k := .scalar ty v) q₁.sound (.inl ⟨_, _, q₁.table_le ht, hv⟩)
    | float width =>
      refine (floatValue_quietly hs (hs.table.entry ht)).seq fun v s₁ q₁ hv => ?_
      exact internConst_quietly (k := .scalar ty v) q₁.sound (.inr ⟨_, q₁.table_le ht, hv⟩)
    | vector | matrix | array | struct =>
      exact compositeConstant_quietly (fun part s hs => ih hs part) hs ht rfl
    | void | pointer | function => exact .infeasible hs

theorem constantOf_quietly (hs : s.Sound c) (ty : EntryId) :
    Quietly c s (constantOf ty) fun id s' => s'.code.table.HasConst id ty := by
  refine (Quietly.get hs).seq ?_
  rintro _ s - ⟨rfl, rfl⟩
  exact constantWithin_quietly _ hs ty

theorem constantVariant_quietly (hs : s.Sound c) (op : Opcode) :
    Quietly c s (constantVariant op) fun id s' => ∃ ty, s'.code.table.HasConst id ty := by
  have hbool (b : Bool) : Quietly c s (do internConst (.bool (← existingType (· == .bool)) b))
      fun id s' => ∃ ty, s'.code.table.HasConst id ty := by
    refine (existingType_quietly hs _).seq fun ty s₁ q₁ hty => ?_
    obtain ⟨t, ht, hbool⟩ := hty
    obtain rfl := beq_iff_eq.mp hbool
    exact (internConst_quietly (k := .bool ty b) q₁.sound ht).mono fun _ _ _ h => ⟨ty, h⟩
  have hof (s' : State ρ) (hs' : s'.Sound c) (ty : EntryId) :
      Quietly c s' (constantOf ty) fun id s' => ∃ ty, s'.code.table.HasConst id ty :=
    (constantOf_quietly hs' ty).mono fun _ _ _ h => ⟨ty, h⟩
  unfold constantVariant
  split
  · exact hbool true
  · exact hbool false
  · refine (Quietly.attempt (existingType_quietly hs _)).seq fun o s₁ q₁ _ => ?_
    cases o with
    | some ty => exact hof s₁ q₁.sound ty
    | none => exact (type_quietly q₁.sound (by decide)).seq fun ty s₂ q₂ _ => hof s₂ q₂.sound ty
  · exact (existingType_quietly hs _).seq fun ty s₁ q₁ _ => hof s₁ q₁.sound ty
  · exact .infeasible hs

theorem constant_quietly (hs : s.Sound c) :
    Quietly c s constant fun id s' => ∃ ty, s'.code.table.HasConst id ty := by
  refine leads_dispatch rebases_quiet ?_ (fun op _ s hs => constantVariant_quietly hs op) hs
  rintro s id s' ⟨q, h⟩
  exact ⟨q.sound, q.trans (.counted q.sound _), h⟩

end Bounded

/-! ### Zero -/

omit [RandomSource ρ] in
/-- A composite all of whose parts are one constant. -/
theorem repeated_quietly {ty part : EntryId} {n : Nat} (hs : s.Sound c)
    (harity : s.code.table.Arity ty n) (hpart : ∀ i < n, s.code.table.Part ty i part)
    {zero : EntryId} (hzero : s.code.table.HasConst zero part) :
    Quietly c s (internConst (.composite ty (List.replicate n zero))) fun id s' =>
      s'.code.table.HasConst id ty := by
  refine internConst_quietly (k := .composite ty (List.replicate n zero)) hs ?_
  refine ⟨by simpa using harity, fun i p hp => ?_⟩
  obtain ⟨hi, rfl⟩ := List.getElem?_eq_some_iff.mp hp
  rw [List.length_replicate] at hi
  exact ⟨part, hpart i hi, by simpa using hzero⟩

omit [RandomSource ρ] in
theorem zeroWithin_quietly (nesting : Nat) (hs : s.Sound c) (ty : EntryId) :
    Quietly c s (zeroWithin nesting ty) fun id s' => s'.code.table.HasConst id ty := by
  induction nesting generalizing s ty with
  | zero => exact .fault hs
  | succ nesting ih =>
    refine (Quietly.typeAt hs _).seq ?_
    rintro t s - ⟨rfl, ht⟩
    cases t with
    | bool => exact internConst_quietly (k := .bool ty false) hs ht
    | int width signed =>
      have hw := Config.width_mem (hs.table.entry ht)
      cases signed with
      | true =>
        refine internConst_quietly (k := .scalar ty (.int 0)) hs (.inl ⟨_, _, ht, rfl, ?_, ?_⟩)
        · have : (0 : Int) < 2 ^ (width - 1) := by positivity
          omega
        · positivity
      | false =>
        exact internConst_quietly (k := .scalar ty (.uint 0)) hs
          (.inl ⟨_, _, ht, rfl, by positivity⟩)
    | float width =>
      exact internConst_quietly (k := .scalar ty (.ofFloat 0.0)) hs
        (.inr ⟨_, ht, Literal.isShown_zero width⟩)
    | vector part n =>
      refine (ih hs part).seq fun zero s₁ q₁ hzero => ?_
      have ht₁ := q₁.table_le ht
      exact repeated_quietly q₁.sound (.vector ht₁) (fun i hi => .vector ht₁ hi) hzero
    | matrix part n =>
      refine (ih hs part).seq fun zero s₁ q₁ hzero => ?_
      have ht₁ := q₁.table_le ht
      exact repeated_quietly q₁.sound (.matrix ht₁) (fun i hi => .matrix ht₁ hi) hzero
    | array part length =>
      refine (ih hs part).seq fun zero s₁ q₁ hzero => ?_
      have ht₁ := q₁.table_le ht
      obtain ⟨_, n, ⟨_, hk, _⟩, _⟩ := q₁.sound.table.entry ht₁
      have hn := Module.componentCount_of_arity q₁.sound.table (.array ht₁ hk)
      refine (Quietly.answer q₁.sound hn).seq ?_
      rintro _ s₁ - ⟨rfl, rfl⟩
      exact repeated_quietly q₁.sound (.array ht₁ hk) (fun i hi => .array ht₁ hk hi) hzero
    | struct members =>
      refine (Quietly.mapM (fun m id s' => s'.code.table.HasConst id m)
        (fun _ _ _ _ q h => h.mono q.table_le) hs fun m _ s' q => ih q.sound m).seq
        fun parts s₁ q₁ hparts => ?_
      have ht₁ := q₁.table_le ht
      have hlength := hparts.length_eq
      refine internConst_quietly (k := .composite ty parts) q₁.sound
        ⟨hlength ▸ .struct ht₁, fun i p hp => ?_⟩
      obtain ⟨hi, rfl⟩ := List.getElem?_eq_some_iff.mp hp
      have hi' : i < members.length := by omega
      exact ⟨members[i], .struct ht₁ (List.getElem?_eq_getElem hi'),
        (List.forall₂_iff_get.mp hparts).2 i hi' hi⟩
    | void | pointer | function => exact .infeasible hs

omit [RandomSource ρ] in
theorem zero_quietly (hs : s.Sound c) (ty : EntryId) :
    Quietly c s (zero ty) fun id s' => s'.code.table.HasConst id ty := by
  refine (Quietly.get hs).seq ?_
  rintro _ s - ⟨rfl, rfl⟩
  exact zeroWithin_quietly _ hs ty

end Gen

end ShaderGen
