import ShaderGen.Entity

/-!
Decorations: facts about entries that the executable part of a module does not
mention.
-/

namespace ShaderGen

/-- What is said about an entry or a member of it. -/
inductive Decoration where
  | block
  | descriptorSet (set : Nat)
  | binding (binding : Nat)
  | offset (bytes : Nat)
deriving DecidableEq, Repr

/-- A decoration with its target. -/
inductive Annotation where
  | entry (target : EntryId) (decoration : Decoration)
  | member (target : EntryId) (index : Nat) (decoration : Decoration)
deriving DecidableEq, Repr

namespace Annotation

/-- The entry an annotation is about. -/
def target : Annotation → EntryId
  | entry target _ | member target _ _ => target

@[simp]
theorem target_entry (id : EntryId) (d : Decoration) : (entry id d).target = id := rfl

@[simp]
theorem target_member (id : EntryId) (i : Nat) (d : Decoration) : (member id i d).target = id := rfl

end Annotation

end ShaderGen
