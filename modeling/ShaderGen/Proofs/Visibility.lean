import Mathlib.Data.List.Forall2
import Mathlib.Data.List.Induction
import ShaderGen.Proofs.Scopes

/-!
What a tree of scopes says about the calls that made it. A history lists which scopes were
opened below which, and what was declared where, in order; from it the way of a scope up to
the root can be told without looking at the tree. The tree agrees: the depth of a scope is
the number of steps on its way, its function the first one given along the way, and what is
visible from it what was declared along the way, innermost scope first.
-/

namespace ShaderGen

namespace ScopeTree

/-- What is done to a tree of scopes. -/
inductive Call where
  /-- Opens a scope below another one, in a function of its own or in that of its parent. -/
  | child (parent : ScopeId) (function : Option InstrId)
  /-- Declares a statement in a scope. -/
  | declare (scope : ScopeId) (id : InstrId)

/-- The tree after a call. There is none if the call is about a scope that is not there. -/
def call? (t : ScopeTree) : Call → Option ScopeTree
  | .child parent function => (t.child? parent function).map Prod.snd
  | .declare scope id => (t.get? scope).map fun _ => t.declare scope id

/-- The tree after some calls, made on the tree with the root alone. -/
def after? (calls : List Call) : Option ScopeTree := calls.foldlM call? {}

end ScopeTree

/-! ### Histories -/

namespace ScopeTree.Call

/-- For each scope but the root, in the order of creation, its parent and the function that
was given with it. -/
def opened (calls : List Call) : List (ScopeId × Option InstrId) :=
  calls.filterMap fun
    | child parent function => some (parent, function)
    | declare _ _ => none

/-- What was declared in a scope, in order. -/
def declaredIn (calls : List Call) (scope : ScopeId) : List InstrId :=
  calls.filterMap fun
    | child _ _ => none
    | declare s id => if s = scope then some id else none

/-- The function that was given with a scope. -/
def functionOf (calls : List Call) : ScopeId → Option InstrId
  | ⟨0⟩ => none
  | ⟨n + 1⟩ => ((opened calls)[n]?).bind Prod.snd

/-- The way of a scope up to the root: the scope itself, its parent and so on. -/
inductive Path (calls : List Call) : ScopeId → List ScopeId → Prop
  | root : Path calls root [root]
  | child {n : Nat} {parent : ScopeId} {function : Option InstrId} {path : List ScopeId}
      (h : (opened calls)[n]? = some (parent, function)) (hp : Path calls parent path) :
      Path calls ⟨n + 1⟩ (⟨n + 1⟩ :: path)

variable {calls : List Call} {scope : ScopeId} {path : List ScopeId}

/-- A scope has one way up. -/
theorem Path.unique {path' : List ScopeId} (h : Path calls scope path)
    (h' : Path calls scope path') : path = path' := by
  induction h generalizing path' with
  | root =>
    cases h'
    rfl
  | child h _ ih =>
    cases h' with
    | child h' hp' =>
      cases h.symm.trans h'
      rw [ih hp']

/-- Every way ends at the root. -/
theorem Path.getLast? (h : Path calls scope path) : path.getLast? = some ScopeTree.root := by
  induction h with
  | root => rfl
  | child _ _ ih =>
    rw [List.getLast?_cons, ih]
    rfl

end ScopeTree.Call

/-! ### Trees and histories -/

namespace ScopeTree

open Call

variable {calls : List Call} {t t' : ScopeTree}

/-- A tree agrees with a history: there are the root and every scope that was opened, and
each has what was declared in it. -/
structure Records (t : ScopeTree) (calls : List Call) : Prop where
  size : t.scopes.size = (opened calls).length + 1
  start : ∃ x, t.get? root = some x ∧ x.parent = none ∧ x.function = none ∧ x.depth = 0
  child : ∀ {n : Nat} {parent : ScopeId} {function : Option InstrId},
    (opened calls)[n]? = some (parent, function) → ∃ p x, t.get? parent = some p ∧
      parent.index ≤ n ∧ t.get? ⟨n + 1⟩ = some x ∧ x.parent = some parent ∧
        x.function = (function <|> p.function) ∧ x.depth = p.depth + 1
  locals : ∀ {r : ScopeId} {x : Scope}, t.get? r = some x → x.locals.toList = declaredIn calls r
  fresh : ∀ {r : ScopeId}, t.get? r = none → declaredIn calls r = []

theorem records_start : Records {} [] where
  size := rfl
  start := ⟨{}, rfl, rfl, rfl, rfl⟩
  child := nofun
  locals := by
    intro r x hr
    have hlt : r.index < 1 := lt_size_of_get? hr
    obtain ⟨n⟩ := r
    obtain rfl : n = 0 := by simpa using hlt
    cases hr
    rfl
  fresh _ := rfl

/-- A scope that is opened comes behind all others and is empty. -/
theorem Records.opens (h : t.Records calls) {parent child : ScopeId} {function : Option InstrId}
    (hcall : t.child? parent function = some (child, t')) :
    t'.Records (calls ++ [.child parent function]) := by
  have hle := le_of_child? hcall
  obtain ⟨p, hp, heq⟩ := Option.map_eq_some_iff.mp hcall
  obtain ⟨rfl, rfl⟩ := Prod.mk.inj heq
  have hopened : opened (calls ++ [.child parent function]) =
      opened calls ++ [(parent, function)] := by simp [opened]
  have hdeclared (r : ScopeId) : declaredIn (calls ++ [.child parent function]) r =
      declaredIn calls r := by simp [declaredIn]
  refine ⟨?_, ?_, ?_, ?_, ?_⟩
  · simp [hopened, h.size]
  · exact h.start.imp fun _ hx => hx.imp_left fun hx => hle hx
  · intro n parent' function' hn
    rw [hopened] at hn
    rcases Nat.lt_or_ge n (opened calls).length with hlt | hge
    · rw [List.getElem?_append_left hlt] at hn
      obtain ⟨p', x, hp', hle', hx, hrest⟩ := h.child hn
      exact ⟨p', x, hle hp', hle', hle hx, hrest⟩
    · rw [List.getElem?_append_right hge, List.getElem?_singleton] at hn
      split_ifs at hn with hzero
      cases hn
      have hsize := h.size
      have hlt := lt_size_of_get? hp
      have hnew : (⟨n + 1⟩ : ScopeId) = ⟨t.scopes.size⟩ := by
        rw [ScopeId.mk.injEq]
        omega
      rw [hnew]
      refine ⟨p, Scope.mk (some parent) (function <|> p.function) (p.depth + 1) #[], hle hp,
        by omega, ?_, rfl, rfl, rfl⟩
      exact Array.getElem?_push_size
  · intro r x hr
    rw [hdeclared]
    simp only [get?, Array.getElem?_push] at hr
    split at hr
    · rename_i hindex
      cases hr
      refine (h.fresh ?_).symm
      simp [get?, hindex]
    · exact h.locals hr
  · intro r hr
    rw [hdeclared]
    refine h.fresh ?_
    cases hold : t.get? r with
    | none => rfl
    | some x =>
      rw [hle hold] at hr
      cases hr

/-- What is declared comes behind what was declared in the same scope before. -/
theorem Records.declares (h : t.Records calls) {scope : ScopeId} {x : Scope}
    (hx : t.get? scope = some x) (id : InstrId) :
    (t.declare scope id).Records (calls ++ [.declare scope id]) := by
  have hopened : opened (calls ++ [.declare scope id]) = opened calls := by simp [opened]
  have hdeclared (r : ScopeId) : declaredIn (calls ++ [.declare scope id]) r =
      declaredIn calls r ++ if scope = r then [id] else [] := by
    by_cases heq : scope = r <;> simp [declaredIn, heq]
  -- apart from what is declared in it, a scope stays as it is
  have hkeep {r : ScopeId} {y : Scope} (hy : t.get? r = some y) :
      ∃ y', (t.declare scope id).get? r = some y' ∧ y'.parent = y.parent ∧
        y'.function = y.function ∧ y'.depth = y.depth := by
    rw [get?_declare, hy]
    split_ifs
    · exact ⟨_, rfl, rfl, rfl, rfl⟩
    · exact ⟨y, rfl, rfl, rfl, rfl⟩
  refine ⟨?_, ?_, ?_, ?_, ?_⟩
  · rw [hopened, ← h.size]
    simp [declare]
  · obtain ⟨y, hy, hparent, hfunction, hdepth⟩ := h.start
    obtain ⟨y', hy', hparent', hfunction', hdepth'⟩ := hkeep hy
    exact ⟨y', hy', hparent'.trans hparent, hfunction'.trans hfunction, hdepth'.trans hdepth⟩
  · intro n parent function hn
    rw [hopened] at hn
    obtain ⟨p, y, hp, hlt, hy, hparent, hfunction, hdepth⟩ := h.child hn
    obtain ⟨p', hp', -, hpfunction, hpdepth⟩ := hkeep hp
    obtain ⟨y', hy', hparent', hfunction', hdepth'⟩ := hkeep hy
    refine ⟨p', y', hp', hlt, hy', hparent'.trans hparent, ?_, ?_⟩
    · rw [hfunction', hfunction, hpfunction]
    · rw [hdepth', hdepth, hpdepth]
  · intro r y hy
    rw [get?_declare] at hy
    rw [hdeclared]
    split_ifs at hy with heq
    · obtain ⟨z, hz, rfl⟩ := Option.map_eq_some_iff.mp hy
      rw [if_pos heq.symm, ← h.locals hz]
      exact Array.toList_push
    · rw [if_neg fun h => heq h.symm, List.append_nil, h.locals hy]
  · intro r hr
    have hne : scope ≠ r := by
      rintro rfl
      rw [get?_declare, if_pos rfl, hx] at hr
      cases hr
    rw [get?_declare, if_neg fun h => hne h.symm] at hr
    rw [hdeclared, if_neg hne, List.append_nil, h.fresh hr]

theorem Records.call (h : t.Records calls) {call : Call} (hcall : t.call? call = some t') :
    t'.Records (calls ++ [call]) := by
  cases call with
  | child parent function =>
    obtain ⟨⟨child, _⟩, hchild, rfl⟩ := Option.map_eq_some_iff.mp hcall
    exact h.opens hchild
  | declare scope id =>
    obtain ⟨x, hx, rfl⟩ := Option.map_eq_some_iff.mp hcall
    exact h.declares hx id

/-- The tree that is made by some calls records them. -/
theorem records_of_after? (h : after? calls = some t) : t.Records calls := by
  induction calls using List.reverseRecOn generalizing t with
  | nil =>
    cases h
    exact records_start
  | append_singleton calls call ih =>
    rw [after?, List.foldlM_append] at h
    obtain ⟨t₀, h₀, h⟩ := Option.bind_eq_some_iff.mp h
    obtain ⟨t₁, hcall, h⟩ := Option.bind_eq_some_iff.mp h
    cases h
    exact (ih h₀).call hcall

/-! ### Ways up -/

namespace Records

variable {scope : ScopeId} {path : List ScopeId}

/-- Every scope has a way up. -/
theorem exists_path (h : t.Records calls) {x : Scope} (hx : t.get? scope = some x) :
    ∃ path, Path calls scope path := by
  obtain ⟨n⟩ := scope
  induction n using Nat.strongRecOn generalizing x with
  | ind n ih =>
    cases n with
    | zero => exact ⟨_, .root⟩
    | succ n =>
      have hlt : n + 1 < t.scopes.size := lt_size_of_get? hx
      rw [h.size] at hlt
      obtain ⟨⟨⟨k⟩, function⟩, hn⟩ : ∃ x, (opened calls)[n]? = some x :=
        ⟨_, List.getElem?_eq_getElem (Nat.lt_of_succ_lt_succ hlt)⟩
      obtain ⟨p, _, hp, hle, -⟩ := h.child hn
      obtain ⟨path, hpath⟩ := ih k (Nat.lt_succ_of_le hle) hp
      exact ⟨_, .child hn hpath⟩

/-- A scope is as deep as its way up is long, and belongs to the first function that was given
along the way. -/
theorem depth_function (h : t.Records calls) (hp : Path calls scope path) {x : Scope}
    (hx : t.get? scope = some x) :
    x.depth + 1 = path.length ∧ x.function = path.findSome? (functionOf calls) := by
  induction hp generalizing x with
  | root =>
    obtain ⟨y, hy, -, hfunction, hdepth⟩ := h.start
    cases hy.symm.trans hx
    rw [hfunction, hdepth]
    exact ⟨rfl, rfl⟩
  | child hn _ ih =>
    obtain ⟨p, y, hp, -, hy, -, hfunction, hdepth⟩ := h.child hn
    cases hy.symm.trans hx
    obtain ⟨hpdepth, hpfunction⟩ := ih hp
    rw [hfunction, hdepth, hpdepth, List.length_cons, hpfunction]
    refine ⟨rfl, ?_⟩
    simp only [List.findSome?_cons, functionOf, hn, Option.bind_some]
    cases ‹Option InstrId› <;> rfl

/-- The walk along the parents is the way up. -/
theorem ancestorsWithin (h : t.Records calls) (hp : Path calls scope path) {fuel : Nat}
    (hfuel : scope.index < fuel) :
    List.Forall₂ (fun r x => t.get? r = some x) path (t.ancestorsWithin fuel scope) := by
  induction hp generalizing fuel with
  | root =>
    obtain ⟨y, hy, hparent, -⟩ := h.start
    obtain ⟨fuel, rfl⟩ : ∃ k, fuel = k + 1 := ⟨fuel - 1, by omega⟩
    simp only [ScopeTree.ancestorsWithin, hy, hparent]
    exact .cons hy .nil
  | child hn _ ih =>
    obtain ⟨p, y, hp, hle, hy, hparent, -⟩ := h.child hn
    obtain ⟨fuel, rfl⟩ : ∃ k, fuel = k + 1 := ⟨fuel - 1, by omega⟩
    simp only [ScopeTree.ancestorsWithin, hy, hparent]
    exact .cons hy (ih (by simp only at hfuel; omega))

theorem ancestors (h : t.Records calls) (hp : Path calls scope path) {x : Scope}
    (hx : t.get? scope = some x) :
    List.Forall₂ (fun r x => t.get? r = some x) path (t.ancestors scope) :=
  h.ancestorsWithin hp (lt_size_of_get? hx)

/-- The scopes along a way up are all there. -/
theorem lt_size_of_mem (h : t.Records calls) (hp : Path calls scope path) {x : Scope}
    (hx : t.get? scope = some x) {r : ScopeId} (hr : r ∈ path) : r.index < t.scopes.size := by
  obtain ⟨i, hi, rfl⟩ := List.getElem_of_mem hr
  have hscopes := h.ancestors hp hx
  exact lt_size_of_get? (hscopes.get hi (hscopes.length_eq ▸ hi))

/-- What is visible from a scope is what was declared along its way up. -/
theorem visible (h : t.Records calls) (hp : Path calls scope path) {x : Scope}
    (hx : t.get? scope = some x) : t.visible scope = path.flatMap (declaredIn calls) := by
  have hscopes := h.ancestors hp hx
  unfold ScopeTree.visible
  clear hp
  generalize t.ancestors scope = scopes at hscopes ⊢
  induction hscopes with
  | nil => rfl
  | cons hr _ ih => rw [List.flatMap_cons, List.flatMap_cons, ih, h.locals hr]

end Records

end ScopeTree

end ShaderGen
