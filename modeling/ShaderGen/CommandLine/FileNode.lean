/-!
Files and directories as values. A directory holds nodes by name, and a list of
names leads from a node to the one below it. What `plant` puts at a place is
found there by `below?`.
-/

namespace ShaderGen.CommandLine

/-- A file with its text, or a directory with what it holds. -/
inductive FileNode where
  | file (text : String)
  /-- The first node of a name is the one that counts. -/
  | directory (entries : List (String × FileNode))

namespace FileNode

/-- The nodes in a directory; a file holds none. -/
def entries : FileNode → List (String × FileNode)
  | file _ => []
  | directory entries => entries

/-- Whether a node is a directory. -/
def isDirectory : FileNode → Bool
  | file _ => false
  | directory _ => true

/-- The text of a file. -/
def text? : FileNode → Option String
  | file text => some text
  | directory _ => none

/-- The node of a name in a directory. -/
def child? (node : FileNode) (name : String) : Option FileNode :=
  (node.entries.find? fun entry => entry.1 == name).map Prod.snd

/-- The directory with a node put under a name. -/
def withChild (node : FileNode) (name : String) (child : FileNode) : FileNode :=
  directory ((name, child) :: node.entries.filter fun entry => entry.1 != name)

/-- The node that names lead to. -/
def below? : FileNode → List String → Option FileNode
  | node, [] => some node
  | node, name :: names =>
    match node.child? name with
    | some child => child.below? names
    | none => none

/-- The node with another one put where names lead. Directories that are missing
on the way are made. -/
def plant (new : FileNode) : FileNode → List String → FileNode
  | _, [] => new
  | node, name :: names =>
    node.withChild name (plant new ((node.child? name).getD (directory [])) names)

mutual

/-- The files below a node, each with the names that lead to it. -/
def files : FileNode → List (List String × String)
  | file text => [([], text)]
  | directory entries => filesOf entries

/-- The files below the entries of a directory. -/
def filesOf : List (String × FileNode) → List (List String × String)
  | [] => []
  | (name, child) :: entries =>
    (child.files.map fun (names, text) => (name :: names, text)) ++ filesOf entries

end

theorem find?_filter_of_ne {name other : String} (h : other ≠ name)
    (entries : List (String × FileNode)) :
    (entries.filter fun entry => entry.1 != name).find? (fun entry => entry.1 == other) =
      entries.find? fun entry => entry.1 == other := by
  induction entries with
  | nil => rfl
  | cons entry entries ih =>
    by_cases hn : entry.1 = name
    · have skipped : (name == other) = false := beq_eq_false_iff_ne.2 (Ne.symm h)
      simp [hn, skipped, ih]
    · simp [hn, List.find?_cons, ih]

theorem child?_withChild (node child : FileNode) (name other : String) :
    (node.withChild name child).child? other =
      if other = name then some child else node.child? other := by
  by_cases h : other = name
  · simp [child?, withChild, entries, h]
  · rw [if_neg h, child?, child?, withChild, entries, List.find?_cons,
      beq_eq_false_iff_ne.2 (Ne.symm h), find?_filter_of_ne h]

end FileNode

end ShaderGen.CommandLine
