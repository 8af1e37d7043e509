import ShaderGen.CommandLine.FileNode
import ShaderGen.CommandLine.Files

/-!
The files of a machine as a value: what is below the root, and the directory in
which relative paths start. A path is followed name by name, and the trail of
the nodes on the way leads back out of each of them. `StateM FileTree` has the
file operations, so a run of the program on given files is a function.
-/

namespace ShaderGen.CommandLine

/-- What a machine holds. -/
structure FileTree where
  root : FileNode := .directory []
  /-- The names from the root on of the directory in which relative paths
  start. -/
  workingDirectory : List String := []

/-- The nodes passed on the way from the root, the last one first, each with its
name. The trail of the root is empty. -/
abbrev Trail := List (String × FileNode)

/-- The names on a trail, from the root on. -/
def Trail.names (trail : Trail) : List String := (trail.map Prod.fst).reverse

namespace FileTree

/-- The text of the file at a place. -/
def text? (t : FileTree) (place : List String) : Option String :=
  (t.root.below? place).bind FileNode.text?

/-- The node a trail leads to. -/
def reached (t : FileTree) : Trail → FileNode
  | [] => t.root
  | (_, node) :: _ => node

/-- Follows one name. The directory above the root is the root. -/
def step (t : FileTree) (trail : Trail) (name : String) : Except FileError Trail :=
  if !(t.reached trail).isDirectory then .error .notADirectory
  else if Path.isHere name then .ok trail
  else if name == ".." then .ok trail.tail
  else if Path.nameLimit < name.utf8ByteSize then .error .nameTooLong
  else match (t.reached trail).child? name with
    | some child => .ok ((name, child) :: trail)
    | none => .error .notFound

/-- Follows names. -/
def walk (t : FileTree) (trail : Trail) (names : List String) : Except FileError Trail :=
  names.foldlM t.step trail

/-- The trail on which a path starts. A working directory that is gone counts as
the root. -/
def start (t : FileTree) (path : String) : Trail :=
  if Path.isAbsolute path then [] else (t.walk [] t.workingDirectory).toOption.getD []

/-- Whether a path can be followed at all: the empty path leads nowhere. -/
def admits (path : String) : Except FileError Unit :=
  if path.isEmpty then .error .notFound
  else if Path.lengthLimit ≤ path.utf8ByteSize then .error .nameTooLong
  else .ok ()

/-- Follows a path. -/
def follow (t : FileTree) (path : String) : Except FileError FileNode := do
  admits path
  return t.reached (← t.walk (t.start path) (Path.split path))

/-- The place that names lead to if only the last of them may be missing, with
the node that is there. -/
def entry (t : FileTree) (trail : Trail) (names : List String) :
    Except FileError (List String × Option FileNode) := do
  let directory ← t.walk trail names.dropLast
  let last := names.getLastD ""
  match t.step directory last with
  | .ok trail => .ok (trail.names, some (t.reached trail))
  | .error .notFound => .ok (directory.names ++ [last], none)
  | .error e => .error e

/-- The tree with a node put at a place. -/
def plant (t : FileTree) (place : List String) (node : FileNode) : FileTree :=
  { t with root := node.plant t.root place }

/-- The text of the file of a path. -/
def read (t : FileTree) (path : String) : Except FileError String := do
  match ← t.follow path with
  | .file text => .ok text
  | .directory _ => .error .isADirectory

/-- The tree with a file written. -/
def write (t : FileTree) (path text : String) : Except FileError FileTree := do
  admits path
  match ← t.entry (t.start path) (Path.split path) with
  | (_, some (.directory _)) => .error .isADirectory
  | (place, _) => .ok (t.plant place (.file text))

/-- The tree with a directory made. Slashes at the end of the path do not
count. -/
def make (t : FileTree) (path : String) : Except FileError FileTree := do
  admits path
  let names := ((Path.split path).reverse.dropWhile String.isEmpty).reverse
  match ← t.entry (t.start path) names with
  | (_, some _) => .error .exists
  | (place, none) => .ok (t.plant place (.directory []))

/-- Whether a path leads to a directory. -/
def leadsToDirectory (t : FileTree) (path : String) : Bool :=
  match t.follow path with
  | .ok node => node.isDirectory
  | .error _ => false

/-- The tree with a file of the given path below the working directory, and the
directories it needs. -/
def addFile (t : FileTree) (path text : String) : FileTree :=
  t.plant (t.workingDirectory ++ (Path.split path).filter fun name => !Path.isHere name)
    (.file text)

/-- A machine with an empty working directory, and the file that is always
empty. -/
def fresh : FileTree where
  root := .directory
    [("dev", .directory [("null", .file "")]),
      ("tmp", .directory [("work", .directory [])])]
  workingDirectory := ["tmp", "work"]

/-- A machine with some files in the working directory. -/
def ofFiles (files : List (String × String)) : FileTree :=
  files.foldl (fun t (path, text) => t.addFile path text) fresh

/-- The files below the working directory by their paths. -/
def files (t : FileTree) : List (String × String) :=
  match t.root.below? t.workingDirectory with
  | none => []
  | some node => node.files.map fun (names, text) => (Path.join names, text)

/-- The files below the working directory that an older tree does not hold. -/
def newFiles (t old : FileTree) : List (String × String) :=
  let held := old.files
  t.files.filter fun (path, _) => !held.any fun (p, _) => p == path

/-- The tree an operation leaves: unchanged if it fails. -/
def apply (change : FileTree → Except FileError FileTree) :
    StateM FileTree (Except FileError Unit) := fun t =>
  match change t with
  | .ok t' => (.ok (), t')
  | .error e => (.error e, t)

instance : Files (StateM FileTree) where
  readText path := return (← get).read path
  writeText path text := apply fun t => t.write path text
  makeDirectory path := apply fun t => t.make path
  isDirectory path := return (← get).leadsToDirectory path

end FileTree

end ShaderGen.CommandLine
