import ShaderGen.Instr

/-!
Lexical scopes. Scopes form a tree; each knows the statements declared directly
in it, in order. A statement is visible from its own scope and from every
descendant, and from nowhere else: a value defined in one arm of a selection can
be read neither in the other arm nor after both.
-/

namespace ShaderGen

/-- A node of the scope tree. -/
structure ScopeId where
  index : Nat
deriving DecidableEq, Repr, Inhabited

/-- A scope and what is declared in it. -/
structure Scope where
  parent : Option ScopeId := none
  /-- The instruction that opens the enclosing function, if there is one. -/
  function : Option InstrId := none
  /-- The number of proper ancestors. -/
  depth : Nat := 0
  /-- The statements declared here, in order. -/
  locals : Array InstrId := #[]
deriving Repr, Inhabited

/-- Scopes in order of creation; a parent comes before its children. -/
structure ScopeTree where
  scopes : Array Scope := #[{}]
deriving Repr, Inhabited

namespace ScopeTree

/-- The scope every session starts with. -/
def root : ScopeId := ⟨0⟩

/-- Every scope has a number of 32 bits, which is what an id has room for. -/
def Addressable (t : ScopeTree) : Prop := t.scopes.size ≤ UInt32.size

instance (t : ScopeTree) : Decidable t.Addressable := inferInstanceAs (Decidable (_ ≤ _))

/-- A scope by its id. -/
def get? (t : ScopeTree) (s : ScopeId) : Option Scope := t.scopes[s.index]?

/-- A new scope under `parent`. It belongs to the parent's function unless a
function is given. Nothing is answered if there is no such parent. The id is not checked to
be a word; in an `Addressable` tree it is one. -/
def child? (t : ScopeTree) (parent : ScopeId) (function : Option InstrId) :
    Option (ScopeId × ScopeTree) :=
  (t.get? parent).map fun p =>
    (⟨t.scopes.size⟩,
      ⟨t.scopes.push
        { parent := some parent, function := function <|> p.function, depth := p.depth + 1 }⟩)

/-- Declares a statement in a scope. -/
def declare (t : ScopeTree) (s : ScopeId) (i : InstrId) : ScopeTree :=
  ⟨t.scopes.modify s.index fun scope => { scope with locals := scope.locals.push i }⟩

/-- The scope itself and then each ancestor, followed for at most `fuel` steps. -/
def ancestorsWithin (t : ScopeTree) : Nat → ScopeId → List Scope
  | 0, _ => []
  | fuel + 1, s =>
    match t.get? s with
    | none => []
    | some scope =>
      match scope.parent with
      | none => [scope]
      | some p => scope :: t.ancestorsWithin fuel p

/-- The scope itself and then each ancestor up to the root. -/
def ancestors (t : ScopeTree) (s : ScopeId) : List Scope :=
  t.ancestorsWithin t.scopes.size s

/-- The statements visible from a scope, those of the innermost scope first. -/
def visible (t : ScopeTree) (s : ScopeId) : List InstrId :=
  (t.ancestors s).flatMap fun scope => scope.locals.toList

end ScopeTree

end ShaderGen
