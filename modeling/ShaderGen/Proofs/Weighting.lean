import Mathlib.Data.List.Count
import Mathlib.Tactic.SplitIfs
import Mathlib.Tactic.Tauto
import ShaderGen.Config.Validity
import ShaderGen.Generator.Weighting

/-!
The weights of a session. Weights that are in place are weights drawn for their
category with zeros at the variants that are pinned, and as long as nothing of a
category was found infeasible, only types are pinned, and only those that the
configuration excludes or that there are enough of. So a variant that a lawful
source draws is not pinned, and the categories of types always have one to draw.
-/

namespace ShaderGen

open RandomSource (choosable total)

/-! ### Lists of weights -/

namespace WeightTable

variable {pins pins' : List Opcode} {weights : List Float} {members : List Opcode} {op : Opcode}

theorem applyPins_append (weights : List Float) :
    applyPins pins (applyPins pins' weights members) members =
      applyPins (pins ++ pins') weights members := by
  induction members generalizing weights with
  | nil => simp [applyPins]
  | cons op members ih =>
    cases weights with
    | nil => rfl
    | cons w weights =>
      have hrest := ih weights
      simp only [applyPins, List.zipWith_cons_cons, List.contains_append] at hrest ⊢
      rw [hrest]
      cases pins.contains op <;> rfl

theorem applyPins_nil (h : weights.length = members.length) :
    applyPins [] weights members = weights := by
  induction members generalizing weights with
  | nil =>
    rw [List.length_eq_zero_iff.mp h]
    rfl
  | cons op members ih =>
    cases weights with
    | nil => cases h
    | cons w weights =>
      have hrest := @ih weights (by simpa using h)
      simp only [applyPins, List.zipWith_cons_cons, List.contains_nil] at hrest ⊢
      rw [hrest]
      rfl

/-- Only whether a member is pinned matters. -/
theorem applyPins_congr (h : ∀ op ∈ members, pins.contains op = pins'.contains op) :
    applyPins pins weights members = applyPins pins' weights members := by
  induction members generalizing weights with
  | nil => simp [applyPins]
  | cons op members ih =>
    cases weights with
    | nil => rfl
    | cons w weights =>
      have hrest := @ih weights fun op hop => h op (List.mem_cons_of_mem _ hop)
      simp only [applyPins, List.zipWith_cons_cons] at hrest ⊢
      rw [hrest, h op List.mem_cons_self]

/-- One more pin is a zero at the place of the variant. -/
theorem set_applyPins {place : Nat} (hnodup : members.Nodup)
    (h : members.findIdx? (· == op) = some place) :
    (applyPins pins weights members).set place 0.0 = applyPins (op :: pins) weights members := by
  induction members generalizing weights place with
  | nil => cases h
  | cons head members ih =>
    obtain ⟨hhead, hnodup⟩ := List.nodup_cons.mp hnodup
    cases weights with
    | nil => rfl
    | cons w weights =>
      rw [List.findIdx?_cons] at h
      split_ifs at h with heq
      · obtain rfl : head = op := eq_of_beq heq
        cases h
        have hrest : applyPins pins weights members = applyPins (head :: pins) weights members :=
          applyPins_congr fun op hop => by
            have hne : op ≠ head := fun heq => hhead (heq ▸ hop)
            simp [hne]
        simp only [applyPins, List.zipWith_cons_cons, List.set_cons_zero] at hrest ⊢
        rw [hrest]
        simp
      · obtain ⟨k, hk, rfl⟩ := Option.map_eq_some_iff.mp h
        have hne : head ≠ op := fun h => heq (beq_iff_eq.mpr h)
        have hrest := @ih weights k hnodup hk
        simp only [applyPins, List.zipWith_cons_cons, List.set_cons_succ] at hrest ⊢
        rw [hrest]
        simp [hne]

/-- A weight that is not zero is that of a member that is not pinned. -/
theorem exists_of_applyPins_ne_zero {k : Nat} {w : Float}
    (h : (applyPins pins weights members)[k]? = some w) (hw : w ≠ 0.0) :
    ∃ op, members[k]? = some op ∧ op ∈ members ∧ op ∉ pins := by
  rw [applyPins, List.getElem?_zipWith_eq_some] at h
  obtain ⟨_, op, _, hop, rfl⟩ := h
  refine ⟨op, hop, List.mem_of_getElem? hop, fun hpin => hw ?_⟩
  rw [if_pos (List.contains_iff_mem.mpr hpin)]

end WeightTable

/-! ### Equal weights -/

namespace Weights

open WeightTable (applyPins)

variable {pins members : List Opcode}

theorem applyPins_uniform : applyPins pins (uniform members.length) members =
    members.map fun op => if pins.contains op then 0.0 else 1.0 := by
  induction members with
  | nil => rfl
  | cons op members ih =>
    simp only [uniform, applyPins, List.length_cons, List.replicate_succ, List.zipWith_cons_cons,
      List.map_cons] at ih ⊢
    rw [ih]

/-- Small numbers are counted without a loss. -/
theorem ofNat_add_one : ∀ k < 81, Float.ofNat k + 1.0 = Float.ofNat (k + 1) := by decide +kernel

theorem ofNat_add_zero : ∀ k < 81, Float.ofNat k + 0.0 = Float.ofNat k := by decide +kernel

theorem foldl_pinned {k : Nat} (h : k + members.length < 81) :
    (members.map fun op => if pins.contains op then 0.0 else 1.0).foldl (· + ·) (Float.ofNat k) =
      Float.ofNat (k + members.countP fun op => !pins.contains op) := by
  induction members generalizing k with
  | nil => rfl
  | cons op members ih =>
    rw [List.length_cons] at h
    rw [List.map_cons, List.foldl_cons, List.countP_cons]
    cases hpin : pins.contains op with
    | true =>
      rw [if_pos rfl, ofNat_add_zero k (by omega), ih (by omega)]
      rfl
    | false =>
      rw [if_neg Bool.false_ne_true, ofNat_add_one k (by omega), ih (by omega), Nat.add_right_comm]
      rfl

/-- The sum of equal weights is the number of variants that are not pinned. -/
theorem total_uniform (h : members.length < 81) :
    total (applyPins pins (uniform members.length) members) =
      Float.ofNat (members.countP fun op => !pins.contains op) := by
  have hsum := @foldl_pinned pins members 0 (by omega)
  rw [Nat.zero_add] at hsum
  rw [applyPins_uniform]
  exact hsum

theorem total_uniform_isFinite (h : members.length < 81) :
    (total (applyPins pins (uniform members.length) members)).isFinite = true := by
  have hfinite : ∀ k < 81, (Float.ofNat k).isFinite = true := by decide +kernel
  rw [total_uniform h]
  exact hfinite _ (Nat.lt_of_le_of_lt List.countP_le_length h)

/-- Among equal weights one can be drawn if not all variants are pinned. -/
theorem choosable_uniform (h : members.length < 81) {op : Opcode} (hmem : op ∈ members)
    (hop : op ∉ pins) : choosable (applyPins pins (uniform members.length) members) = true := by
  have hne : ∀ k < 81, k ≠ 0 → (Float.ofNat k != 0.0) = true := by decide +kernel
  have hcount : 0 < members.countP fun op => !pins.contains op :=
    List.countP_pos_iff.mpr ⟨op, hmem, by simp [hop]⟩
  rw [choosable, Bool.and_eq_true]
  constructor
  · rw [applyPins_uniform]
    refine List.all_eq_true.mpr fun w hw => ?_
    obtain ⟨op, _, rfl⟩ := List.mem_map.mp hw
    cases pins.contains op <;> decide +kernel
  · rw [total_uniform h]
    exact hne _ (Nat.lt_of_le_of_lt List.countP_le_length h) (Nat.ne_of_gt hcount)

theorem length_gaussian (n : Nat) (mean stdDev : Float) : (gaussian n mean stdDev).length = n := by
  simp [gaussian]

theorem length_betaBinomialLogs (last alpha beta : Float) (steps k : Nat) (log : Float) :
    (betaBinomialLogs last alpha beta steps k log).length = steps + 1 := by
  induction steps generalizing k log with
  | zero => rfl
  | succ steps ih => rw [betaBinomialLogs, List.length_cons, ih]

theorem length_betaBinomial (n : Nat) (alpha beta : Float) :
    (betaBinomial n alpha beta).length = n := by
  cases n with
  | zero => rfl
  | succ n => simp [betaBinomial, length_betaBinomialLogs]

end Weights

/-! ### Weights that are drawn -/

/-- A parameter that a session may draw from an interval. -/
inductive Interval.Draws (ρ : Type) [RandomSource ρ] (r : Interval) : Float → Prop
  | only (h : r.max ≤ r.min) : Draws ρ r r.min
  | drawn (h : ¬r.max ≤ r.min) (hd : RandomSource.isDrawable r.min r.max = true) (source : ρ) :
      Draws ρ r (RandomSource.closed r.min r.max source).1

/-- Weights that a session may draw for the statements. -/
inductive Config.Weighs (ρ : Type) [RandomSource ρ] (c : Config) : List Float → Prop
  | uniform (h : c.weighting = .uniform) :
      Weighs ρ c (Weights.uniform Category.statement.members.length)
  | gaussian (h : c.weighting = .gaussian) {mean stdDev : Float} (hmean : c.gaussian.mean.Draws ρ mean)
      (hstdDev : c.gaussian.stdDev.Draws ρ stdDev) :
      Weighs ρ c (Weights.gaussian Category.statement.members.length
        (mean * Weights.larger (Category.statement.members.length.toFloat - 1.0) 0.0)
        (Weights.larger (stdDev * Category.statement.members.length.toFloat)
          (Float.ofBits 0x0010000000000000)))
  | betaBinomial (h : c.weighting = .betaBinomial) {alpha beta : Float}
      (halpha : c.betaBinomial.alpha.Draws ρ alpha) (hbeta : c.betaBinomial.beta.Draws ρ beta) :
      Weighs ρ c (Weights.betaBinomial Category.statement.members.length alpha beta)

/-- Weights that a session may draw for a category. -/
def Config.WeighsFor (ρ : Type) [RandomSource ρ] (c : Config) (cat : Category)
    (weights : List Float) : Prop :=
  if cat = .statement then c.Weighs ρ weights else weights = Weights.uniform cat.members.length

/-- The variants that no draw of a configuration may have. -/
def Config.withheld (c : Config) : List Opcode :=
  if c.extendedInstructions then [] else [.extInst]

variable {ρ : Type} [RandomSource ρ] {c : Config}

theorem Config.WeighsFor.length_eq {cat : Category} {weights : List Float}
    (h : c.WeighsFor ρ cat weights) : weights.length = cat.members.length := by
  unfold Config.WeighsFor at h
  split_ifs at h with hcat
  · subst hcat
    cases h with
    | uniform => exact List.length_replicate
    | gaussian => exact Weights.length_gaussian _ _ _
    | betaBinomial => exact Weights.length_betaBinomial _ _ _
  · subst h
    exact List.length_replicate

/-- What is put in place for a category has the withheld variants at zero. -/
theorem Config.WeighsFor.applyPins_withheld {cat : Category} {weights : List Float}
    (h : c.WeighsFor ρ cat weights) :
    (if c.extendedInstructions then weights
      else WeightTable.applyPins [.extInst] weights cat.members) =
      WeightTable.applyPins c.withheld weights cat.members := by
  unfold Config.withheld
  split_ifs
  · exact (WeightTable.applyPins_nil h.length_eq).symm
  · rfl

/-! ### Tables of weights -/

namespace WeightTable

/-- The weights of a table and its pins are those of a session under a configuration
in which something of the given categories was found infeasible. -/
structure Drawn (ρ : Type) [RandomSource ρ] (c : Config) (pruned : List Category)
    (t : WeightTable) : Prop where
  weights : ∀ cat w, t.weights? cat = some w → ∃ base, c.WeighsFor ρ cat base ∧
    w = applyPins ((t.row cat).pins ++ c.withheld) base cat.members
  pins : ∀ cat ∉ pruned, ∀ op ∈ (t.row cat).pins,
    cat.isType = true ∧ (op ∈ c.excluded ∨ op = .typeFunction)

variable {t t' : WeightTable} {pruned : List Category} {cat : Category} {op : Opcode}

theorem row_empty : ({} : WeightTable).row cat = {} := by
  cases cat <;> rfl

theorem pins_pinZero {cat' : Category} : ((t.pinZero cat op).row cat').pins =
    if cat = cat' ∧ op ∉ (t.row cat').pins then op :: (t.row cat').pins
    else (t.row cat').pins := by
  rw [pinZero, row_setRow]
  by_cases heq : cat = cat'
  · subst heq
    by_cases hmem : op ∈ (t.row cat).pins
    · simp [hmem]
    · simp [hmem]
  · simp [heq]

theorem weights?_pinZero_of_ne {cat' : Category} (h : cat ≠ cat') :
    (t.pinZero cat op).weights? cat' = t.weights? cat' := by
  rw [weights?, pinZero, row_setRow, if_neg h]
  rfl

/-- Pinning a variant that is no member changes nothing. -/
theorem weights?_pinZero_self {pins : List Opcode} {base : List Float}
    (h : t.weights? cat = some (applyPins pins base cat.members)) :
    (t.pinZero cat op).weights? cat = some (applyPins (op :: pins) base cat.members) := by
  rw [weights?] at h
  simp only [weights?, pinZero, row_setRow, if_true, h, Option.map_some, Option.some.injEq]
  split
  · rename_i place hplace
    exact set_applyPins (Category.members_nodup cat) hplace
  · rename_i hnone
    refine applyPins_congr fun op' hop' => ?_
    have hne : op' ≠ op := by simpa using List.findIdx?_eq_none_iff.mp hnone op' hop'
    simp [hne]

theorem isParametrized_pinZero {cat' : Category} :
    (t.pinZero cat op).isParametrized cat' = t.isParametrized cat' := by
  by_cases h : cat = cat'
  · subst h
    simp [isParametrized, pinZero, row_setRow]
  · simp only [isParametrized, pinZero, row_setRow, if_neg h]

/-- Weights that are there get one more pin in their category. -/
theorem weights?_pinZero {cat' : Category} {w : List Float}
    (hw : (t.pinZero cat op).weights? cat' = some w) : ∃ w', t.weights? cat' = some w' ∧
      ∀ pins base, w' = applyPins pins base cat'.members →
        w = applyPins (if cat = cat' then op :: pins else pins) base cat'.members := by
  by_cases heq : cat = cat'
  · subst heq
    have hsome : t.isParametrized cat = true :=
      isParametrized_pinZero.symm.trans (Option.isSome_iff_exists.mpr ⟨w, hw⟩)
    obtain ⟨w', hw'⟩ := Option.isSome_iff_exists.mp hsome
    refine ⟨w', hw', ?_⟩
    rintro pins base rfl
    rw [weights?_pinZero_self hw'] at hw
    rw [if_pos rfl]
    exact (Option.some.inj hw).symm
  · rw [weights?_pinZero_of_ne heq] at hw
    refine ⟨w, hw, ?_⟩
    rintro pins base rfl
    rw [if_neg heq]

theorem drawn_empty : Drawn ρ c [] {} := by
  refine ⟨fun cat w h => ?_, fun cat _ op hop => ?_⟩
  · rw [weights?, row_empty] at h
    cases h
  · rw [row_empty] at hop
    cases hop

/-- A table whose pins are among those of another, and whose weights stay in place. -/
structure Grows (t t' : WeightTable) : Prop where
  pins : ∀ cat, ∀ op ∈ (t.row cat).pins, op ∈ (t'.row cat).pins
  parametrized : ∀ cat, t.isParametrized cat = true → t'.isParametrized cat = true

theorem Grows.refl (t : WeightTable) : Grows t t := ⟨fun _ _ h => h, fun _ h => h⟩

theorem Grows.trans {t'' : WeightTable} (h : Grows t t') (h' : Grows t' t'') : Grows t t'' :=
  ⟨fun cat op hop => h'.pins cat op (h.pins cat op hop),
    fun cat hcat => h'.parametrized cat (h.parametrized cat hcat)⟩

theorem pins_install {weights : List Float} (hinstall : t.install cat weights = .ok t')
    (cat' : Category) : (t'.row cat').pins = (t.row cat').pins := by
  unfold install at hinstall
  split_ifs at hinstall
  cases hinstall
  rw [row_setRow]
  split_ifs with heq
  · rw [heq]
  · rfl

theorem grows_install {weights : List Float} (hinstall : t.install cat weights = .ok t') :
    Grows t t' := by
  refine ⟨fun cat' op hop => (pins_install hinstall cat').symm ▸ hop, fun cat' hcat' => ?_⟩
  unfold install at hinstall
  split_ifs at hinstall
  cases hinstall
  rw [isParametrized, row_setRow]
  split_ifs
  · rfl
  · exact hcat'

/-- Weights that were drawn can be put in place. -/
theorem Drawn.exists_install (h : Drawn ρ c pruned t) {base : List Float}
    (hbase : c.WeighsFor ρ cat base) :
    ∃ t', t.install cat (applyPins c.withheld base cat.members) = .ok t' ∧ Drawn ρ c pruned t' ∧
      Grows t t' ∧ t'.isParametrized cat = true := by
  have hlength : (applyPins c.withheld base cat.members).length = cat.members.length := by
    simp [applyPins, hbase.length_eq]
  refine ⟨_, if_pos hlength, ⟨fun cat' w hw => ?_, fun cat' hcat' op hop => ?_⟩,
    grows_install (if_pos hlength), ?_⟩
  · rw [weights?, row_setRow] at hw
    rw [row_setRow]
    split_ifs at hw ⊢ with heq
    · subst heq
      cases hw
      exact ⟨base, hbase, applyPins_append base⟩
    · exact h.weights cat' w hw
  · rw [row_setRow] at hop
    split_ifs at hop with heq
    · exact heq ▸ h.pins cat (heq ▸ hcat') op hop
    · exact h.pins cat' hcat' op hop
  · rw [isParametrized, row_setRow, if_pos rfl]
    rfl

theorem mem_pins_pinZero {cat' : Category} {op' : Opcode} :
    op' ∈ ((t.pinZero cat op).row cat').pins ↔
      op' ∈ (t.row cat').pins ∨ cat = cat' ∧ op' = op := by
  rw [pins_pinZero]
  split_ifs with h
  · rw [List.mem_cons]
    tauto
  · refine ⟨.inl, ?_⟩
    rintro (h' | ⟨heq, rfl⟩)
    · exact h'
    · exact not_not.mp fun hnot => h ⟨heq, hnot⟩

theorem grows_pinZero : Grows t (t.pinZero cat op) :=
  ⟨fun _ _ h => mem_pins_pinZero.mpr (.inl h), fun _ h => isParametrized_pinZero.trans h⟩

/-- A variant may be pinned if something of its category was found infeasible, or if
it is an excluded type or that of functions. -/
theorem Drawn.pinZero (h : Drawn ρ c pruned t)
    (hop : cat ∈ pruned ∨ cat.isType = true ∧ (op ∈ c.excluded ∨ op = .typeFunction)) :
    Drawn ρ c pruned (t.pinZero cat op) := by
  refine ⟨fun cat' w hw => ?_, fun cat' hcat' op' hop' => ?_⟩
  · obtain ⟨w', hw', hpinned⟩ := weights?_pinZero hw
    obtain ⟨base, hbase, heq⟩ := h.weights cat' w' hw'
    refine ⟨base, hbase, (hpinned _ _ heq).trans (applyPins_congr fun op' _ => ?_)⟩
    rw [Bool.eq_iff_iff, List.contains_iff_mem, List.contains_iff_mem, List.mem_append,
      mem_pins_pinZero]
    split_ifs with hcat
    · rw [List.mem_cons, List.mem_append]
      tauto
    · rw [List.mem_append]
      tauto
  · rcases mem_pins_pinZero.mp hop' with hop' | ⟨rfl, rfl⟩
    · exact h.pins cat' hcat' op' hop'
    · exact hop.resolve_left hcat'

theorem Drawn.prune (h : Drawn ρ c pruned t) (cat : Category) : Drawn ρ c (cat :: pruned) t :=
  ⟨h.weights, fun cat' hcat' => h.pins cat' fun hmem => hcat' (List.mem_cons_of_mem _ hmem)⟩

/-! ### Draws -/

/-- How many variants of a category are not pinned. -/
def left (t : WeightTable) (cat : Category) : Nat :=
  cat.members.countP fun op => !(t.row cat).pins.contains op

theorem left_le : t.left cat ≤ cat.members.length := List.countP_le_length

theorem Grows.left_lt (h : Grows t t') (hmem : op ∈ cat.members) (hop : op ∉ (t.row cat).pins)
    (hop' : op ∈ (t'.row cat).pins) : t'.left cat < t.left cat := by
  have hsub : ∀ op : Opcode, (!(t'.row cat).pins.contains op) = true →
      (!(t.row cat).pins.contains op) = true := by
    intro op hnot
    have := mt (h.pins cat op)
    simp_all
  have hlater : t'.left cat = (cat.members.filter fun op => !(t.row cat).pins.contains op).countP
      fun op => !(t'.row cat).pins.contains op := by
    rw [left, List.countP_filter]
    exact List.countP_congr fun op _ => by
      have := hsub op
      simp_all
  rw [hlater, left, List.countP_eq_length_filter (l := cat.members)]
  refine List.countP_lt_length_iff.mpr ⟨op, ?_, ?_⟩
  · simp [hmem, hop]
  · simp [hop']

/-- A weight that is not zero belongs to a variant that is not pinned. -/
theorem Drawn.unpinned (h : Drawn ρ c pruned t) {weights : List Float} {k : Nat} {w : Float}
    (hweights : t.weights? cat = some weights) (hk : weights[k]? = some w) (hw : w ≠ 0.0) :
    ∃ op, cat.members[k]? = some op ∧ op ∈ cat.members ∧ op ∉ (t.row cat).pins := by
  obtain ⟨base, _, rfl⟩ := h.weights cat weights hweights
  obtain ⟨op, hop, hmem, hpins⟩ := exists_of_applyPins_ne_zero hk hw
  exact ⟨op, hop, hmem, fun hpin => hpins (List.mem_append_left _ hpin)⟩

/-- The weights of other categories than that of statements add up. -/
theorem Drawn.total_isFinite (h : Drawn ρ c pruned t) (hcat : cat ≠ .statement)
    {weights : List Float} (hweights : t.weights? cat = some weights) :
    (total weights).isFinite = true := by
  obtain ⟨base, hbase, rfl⟩ := h.weights cat weights hweights
  rw [Config.WeighsFor, if_neg hcat] at hbase
  subst hbase
  refine Weights.total_uniform_isFinite ?_
  cases cat <;> decide

/-- A category other than that of statements has something to draw as long as one of its
variants is not pinned. -/
theorem Drawn.choosable_of_not_mem (h : Drawn ρ c pruned t) (hcat : cat ≠ .statement)
    (hmem : op ∈ cat.members) (hop : op ∉ (t.row cat).pins) {weights : List Float}
    (hweights : t.weights? cat = some weights) : choosable weights = true := by
  obtain ⟨base, hbase, rfl⟩ := h.weights cat weights hweights
  rw [Config.WeighsFor, if_neg hcat] at hbase
  subst hbase
  have hlength : cat.members.length < 81 := by cases cat <;> decide
  have hext : op ≠ .extInst := by
    rintro rfl
    revert hcat hmem
    cases cat <;> decide
  refine Weights.choosable_uniform hlength hmem ?_
  rw [List.mem_append, not_or, Config.withheld]
  refine ⟨hop, ?_⟩
  split_ifs
  · exact List.not_mem_nil
  · simpa using hext

/-- As long as nothing of it was found infeasible, a category other than those of
statements and containers has a variant to draw. -/
theorem Drawn.choosable (h : Drawn ρ c pruned t)
    (hnumeric : Opcode.typeInt ∉ c.excluded ∨ Opcode.typeFloat ∉ c.excluded)
    (hstatement : cat ≠ .statement) (hcontainer : cat ≠ .containerType) (hcat : cat ∉ pruned)
    {weights : List Float} (hweights : t.weights? cat = some weights) :
    choosable weights = true := by
  have hpins := h.pins cat hcat
  by_cases htype : cat.isType = true
  · -- integers and floats are in every category of types, and one of them is left
    have hmem : Opcode.typeInt ∈ cat.members ∧ Opcode.typeFloat ∈ cat.members := by
      revert hstatement hcontainer htype
      cases cat <;> decide
    rcases hnumeric with hint | hfloat
    · exact h.choosable_of_not_mem hstatement hmem.1
        (fun hpin => (hpins _ hpin).2.elim hint nofun) hweights
    · exact h.choosable_of_not_mem hstatement hmem.2
        (fun hpin => (hpins _ hpin).2.elim hfloat nofun) hweights
  · obtain ⟨op, hmem⟩ : ∃ op, op ∈ cat.members := by cases cat <;> exact ⟨_, .head _⟩
    exact h.choosable_of_not_mem hstatement hmem (fun hpin => htype (hpins op hpin).1) hweights

/-- The weights of statements are what the configuration makes of weights that it may
draw, with no pin before some statement was found infeasible. -/
theorem Drawn.statement (h : Drawn ρ c pruned t) {weights : List Float}
    (hweights : t.weights? .statement = some weights) :
    ∃ base pins, c.Weighs ρ base ∧
      weights = applyPins (pins ++ c.withheld) base Category.statement.members ∧
      (Category.statement ∉ pruned → pins = []) := by
  obtain ⟨base, hbase, rfl⟩ := h.weights .statement weights hweights
  rw [Config.WeighsFor, if_pos rfl] at hbase
  refine ⟨base, _, hbase, rfl, fun hnot => List.eq_nil_iff_forall_not_mem.mpr fun op hop => ?_⟩
  exact absurd (h.pins .statement hnot op hop).1 (by decide)

end WeightTable

end ShaderGen
