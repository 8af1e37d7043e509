import Mathlib.Order.Basic
import ShaderGen.Scope

/-!
What is visible from where. A parent comes before its children, so the ancestors
of a scope are found whatever lies behind it, and only scopes in front of a scope
bear on what is visible from it. Opening a scope or declaring in another one
changes nothing; declaring in the scope itself adds what is declared.
-/

namespace ShaderGen

/-- A later tree has the same scopes, and maybe others. -/
instance : Preorder ScopeTree where
  le t t' := ∀ ⦃s scope⦄, t.get? s = some scope → t'.get? s = some scope
  le_refl _ _ _ h := h
  le_trans _ _ _ h h' _ _ hs := h' (h hs)

namespace ScopeTree

/-- Parents come before their children. -/
def WellFormed (t : ScopeTree) : Prop :=
  ∀ ⦃s scope p⦄, t.get? s = some scope → scope.parent = some p → p.index < s.index

theorem lt_size_of_get? {t : ScopeTree} {s : ScopeId} {scope : Scope}
    (h : t.get? s = some scope) : s.index < t.scopes.size :=
  (Array.getElem?_eq_some_iff.mp h).1

theorem get?_of_lt_size {t : ScopeTree} {s : ScopeId} (h : s.index < t.scopes.size) :
    ∃ scope, t.get? s = some scope :=
  ⟨_, Array.getElem?_eq_getElem h⟩

variable {t t' : ScopeTree} {s : ScopeId}

/-! ### Visibility -/

/-- Any number of steps above the place of a scope is enough to find its
ancestors. -/
theorem ancestorsWithin_eq (hwf : t.WellFormed) {fuel fuel' : Nat} (h : s.index < fuel)
    (h' : s.index < fuel') : t.ancestorsWithin fuel s = t.ancestorsWithin fuel' s := by
  induction fuel generalizing s fuel' with
  | zero => omega
  | succ fuel ih =>
    obtain ⟨fuel', rfl⟩ : ∃ k, fuel' = k + 1 := ⟨fuel' - 1, by omega⟩
    simp only [ancestorsWithin]
    cases hs : t.get? s with
    | none => rfl
    | some scope =>
      cases hp : scope.parent with
      | none => simp only [hp]
      | some p =>
        have hlt := hwf hs hp
        simp only [hp, @ih p fuel' (by omega) (by omega)]

theorem mem_visible (hwf : t.WellFormed) {scope : Scope} (hs : t.get? s = some scope)
    {d : InstrId} : d ∈ t.visible s ↔
      d ∈ scope.locals ∨ ∃ p, scope.parent = some p ∧ d ∈ t.visible p := by
  have hlt := lt_size_of_get? hs
  obtain ⟨n, hn⟩ : ∃ n, t.scopes.size = n + 1 := ⟨t.scopes.size - 1, by omega⟩
  cases hp : scope.parent with
  | none =>
    have hanc : t.ancestors s = [scope] := by
      simp only [ancestors, hn, ancestorsWithin, hs, hp]
    simp [visible, hanc]
  | some p =>
    have hlt' := hwf hs hp
    -- One step of fuel is spent on the scope itself; what is left suffices for its parent.
    have hpt : t.ancestorsWithin n p = t.ancestors p :=
      ancestorsWithin_eq hwf (by omega) (by omega)
    have hanc : t.ancestors s = scope :: t.ancestorsWithin n p := by
      simp only [ancestors, hn, ancestorsWithin, hs, hp]
    simp [visible, hanc, hpt]

/-- Only scopes that are not behind a scope bear on what is visible from it. -/
theorem mem_visible_congr (hwf : t.WellFormed) (hwf' : t'.WellFormed)
    (h : ∀ r : ScopeId, r.index ≤ s.index → t'.get? r = t.get? r) {d : InstrId} :
    d ∈ t'.visible s ↔ d ∈ t.visible s := by
  obtain ⟨k, hk⟩ : ∃ k, s.index = k := ⟨_, rfl⟩
  induction k using Nat.strongRecOn generalizing s with
  | ind k ih =>
    cases hs : t.get? s with
    | none =>
      have hs' : t'.get? s = none := (h s (Nat.le_refl _)).trans hs
      have hnil : ∀ {u : ScopeTree}, u.get? s = none → u.visible s = [] := by
        intro u hu
        unfold visible ancestors
        cases u.scopes.size <;> simp [ancestorsWithin, hu]
      rw [hnil hs, hnil hs']
    | some scope =>
      have hs' : t'.get? s = some scope := (h s (Nat.le_refl _)).trans hs
      rw [mem_visible hwf hs, mem_visible hwf' hs']
      -- the parent comes before the scope, so nothing behind the scope bears on it either
      refine or_congr Iff.rfl (exists_congr fun p => and_congr_right fun hp => ?_)
      have hlt := hwf hs hp
      exact ih p.index (by omega) (fun r hr => h r (by omega)) rfl

/-- What is visible from a scope stays so in a later tree. -/
theorem mem_visible_of_le (hwf : t.WellFormed) (hwf' : t'.WellFormed) (hle : t ≤ t')
    {scope : Scope} (hs : t.get? s = some scope) {d : InstrId} :
    d ∈ t'.visible s ↔ d ∈ t.visible s := by
  refine mem_visible_congr hwf hwf' fun r hr => ?_
  have hlt := lt_size_of_get? hs
  obtain ⟨x, hx⟩ := get?_of_lt_size (t := t) (s := r) (by omega)
  rw [hx, hle hx]

theorem wellFormed_start : WellFormed {} := by
  intro s scope p hs hp
  have hlt : s.index < 1 := lt_size_of_get? hs
  obtain ⟨i⟩ := s
  obtain rfl : i = 0 := by simpa using hlt
  obtain rfl : scope = {} := by simpa [get?] using hs.symm
  cases hp

/-! ### A new scope -/

section Child

variable {parent child : ScopeId} {function : Option InstrId}
  (h : t.child? parent function = some (child, t'))
include h

theorem le_of_child? : t ≤ t' := by
  intro s scope hs
  obtain ⟨p, hp, heq⟩ := Option.map_eq_some_iff.mp h
  obtain ⟨rfl, rfl⟩ := Prod.mk.inj heq
  have hlt := lt_size_of_get? hs
  simp only [get?, Array.getElem?_push] at hs ⊢
  rw [if_neg (by omega)]
  exact hs

theorem get?_child : ∃ scope, t'.get? child = some scope ∧ scope.parent = some parent ∧
    scope.locals = #[] := by
  obtain ⟨p, hp, heq⟩ := Option.map_eq_some_iff.mp h
  obtain ⟨rfl, rfl⟩ := Prod.mk.inj heq
  exact ⟨_, by simp [get?]; rfl, rfl, rfl⟩

theorem child_fresh : t.get? child = none := by
  obtain ⟨p, hp, heq⟩ := Option.map_eq_some_iff.mp h
  obtain ⟨rfl, rfl⟩ := Prod.mk.inj heq
  simp [get?]

theorem get?_parent : ∃ p, t.get? parent = some p := by
  obtain ⟨p, hp, _⟩ := Option.map_eq_some_iff.mp h
  exact ⟨p, hp⟩

/-- Nothing is declared in a new scope. -/
theorem locals_of_child? {r : ScopeId} {scope : Scope} (hr : t'.get? r = some scope)
    {d : InstrId} (hd : d ∈ scope.locals) : ∃ scope, t.get? r = some scope ∧ d ∈ scope.locals := by
  obtain ⟨p, hp, heq⟩ := Option.map_eq_some_iff.mp h
  obtain ⟨rfl, rfl⟩ := Prod.mk.inj heq
  simp only [get?, Array.getElem?_push] at hr
  split at hr
  · cases hr
    exact absurd hd (Array.not_mem_empty d)
  · exact ⟨scope, hr, hd⟩

theorem WellFormed.child? (hwf : t.WellFormed) : t'.WellFormed := by
  obtain ⟨p, hp, heq⟩ := Option.map_eq_some_iff.mp h
  obtain ⟨rfl, rfl⟩ := Prod.mk.inj heq
  intro s scope q hs hq
  simp only [get?, Array.getElem?_push] at hs
  split at hs
  · rename_i hi
    cases hs
    cases hq
    rw [hi]
    exact lt_size_of_get? hp
  · exact hwf hs hq

/-- From a new scope the same is visible as from its parent. -/
theorem mem_visible_child (hwf : t.WellFormed) {d : InstrId} :
    d ∈ t'.visible child ↔ d ∈ t.visible parent := by
  obtain ⟨scope, hs, hparent, hlocals⟩ := get?_child h
  obtain ⟨p, hp⟩ := get?_parent h
  rw [mem_visible (hwf.child? h) hs, hlocals]
  have := mem_visible_of_le hwf (hwf.child? h) (le_of_child? h) hp (d := d)
  simp [hparent, this]

end Child

/-! ### Declarations -/

/-- All scopes but one are the same, and there may be others. -/
def SameOff (scope : ScopeId) (t t' : ScopeTree) : Prop :=
  ∀ ⦃s x⦄, s ≠ scope → t.get? s = some x → t'.get? s = some x

theorem SameOff.of_le {scope : ScopeId} (h : t ≤ t') : SameOff scope t t' := fun _ _ _ hs => h hs

theorem SameOff.trans {scope : ScopeId} {t'' : ScopeTree} (h : SameOff scope t t')
    (h' : SameOff scope t' t'') : SameOff scope t t'' := fun _ _ hne hs => h' hne (h hne hs)

theorem get?_declare (i : InstrId) (r : ScopeId) : (t.declare s i).get? r =
    if r = s then (t.get? r).map fun scope => { scope with locals := scope.locals.push i }
    else t.get? r := by
  obtain ⟨r⟩ := r
  obtain ⟨s⟩ := s
  simp only [get?, declare, Array.getElem?_modify, ScopeId.mk.injEq]
  by_cases h : s = r
  · simp [h]
  · rw [if_neg h, if_neg fun h' => h h'.symm]

theorem locals_of_declare {i : InstrId} {r : ScopeId} {scope : Scope}
    (hr : (t.declare s i).get? r = some scope) {d : InstrId} (hd : d ∈ scope.locals) :
    d = i ∨ ∃ scope, t.get? r = some scope ∧ d ∈ scope.locals := by
  rw [get?_declare] at hr
  split at hr
  · obtain ⟨x, hx, rfl⟩ := Option.map_eq_some_iff.mp hr
    exact (Array.mem_push.mp hd).symm.imp_right fun hd => ⟨x, hx, hd⟩
  · exact .inr ⟨scope, hr, hd⟩

theorem WellFormed.declare (hwf : t.WellFormed) (i : InstrId) : (t.declare s i).WellFormed := by
  intro r scope p hr hp
  rw [get?_declare] at hr
  split at hr
  · obtain ⟨x, hx, rfl⟩ := Option.map_eq_some_iff.mp hr
    exact hwf hx hp
  · exact hwf hr hp

theorem sameOff_declare (i : InstrId) : SameOff s t (t.declare s i) := by
  intro r x hne hr
  rwa [get?_declare, if_neg hne]

theorem get?_declare_self (i : InstrId) {scope : Scope} (hs : t.get? s = some scope) :
    ∃ scope', (t.declare s i).get? s = some scope' := by
  rw [get?_declare, if_pos rfl, hs]
  exact ⟨_, rfl⟩

theorem mem_visible_declare (hwf : t.WellFormed) {i : InstrId} {scope : Scope}
    (hs : t.get? s = some scope) {d : InstrId} :
    d ∈ (t.declare s i).visible s ↔ d = i ∨ d ∈ t.visible s := by
  have hs' : (t.declare s i).get? s =
      some { scope with locals := scope.locals.push i } := by
    rw [get?_declare, if_pos rfl, hs]
    rfl
  rw [mem_visible (hwf.declare i) hs', mem_visible hwf hs]
  have hframe : ∀ p, scope.parent = some p →
      (d ∈ (t.declare s i).visible p ↔ d ∈ t.visible p) := by
    intro p hp
    have hlt := hwf hs hp
    refine mem_visible_congr hwf (hwf.declare i) fun r hr => ?_
    rw [get?_declare, if_neg (by rintro rfl; omega)]
  have : (∃ p, scope.parent = some p ∧ d ∈ (t.declare s i).visible p) ↔
      ∃ p, scope.parent = some p ∧ d ∈ t.visible p :=
    exists_congr fun p => and_congr_right fun hp => hframe p hp
  rw [this, Array.mem_push, or_assoc, or_left_comm]

end ScopeTree

end ShaderGen
