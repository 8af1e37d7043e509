/-!
Access to files. A path is a text; the program asks for no more than the four
operations of `Files`, and each of them either succeeds or says why not.
Directories are made with all that is missing above them by `makeDirectories`.
-/

namespace ShaderGen.CommandLine

/-- Why a file operation fails. -/
inductive FileError where
  | notFound
  | exists
  | notADirectory
  | isADirectory
  /-- A path, or a name in it, has too many bytes. -/
  | nameTooLong
  /-- The bytes of a file are no text. -/
  | notText
  /-- Any other error of the system, by its number and its wording. -/
  | system (number : UInt32) (text : String)
deriving DecidableEq, Repr

/-- The wording of an error that has a number in the system. -/
def systemText (number : UInt32) (text : String) : String :=
  text ++ " (os error " ++ toString number ++ ")"

/-- The wording of an error. -/
def FileError.message : FileError → String
  | notFound => systemText 2 "No such file or directory"
  | .exists => systemText 17 "File exists"
  | notADirectory => systemText 20 "Not a directory"
  | isADirectory => systemText 21 "Is a directory"
  | nameTooLong => systemText 36 "File name too long"
  | notText => "stream did not contain valid UTF-8"
  | system number text => systemText number text

/-- The file operations the program needs. -/
class Files (m : Type → Type) where
  /-- The text of a file. -/
  readText (path : String) : m (Except FileError String)
  /-- Makes a file with the given text, or replaces the text of one. -/
  writeText (path text : String) : m (Except FileError Unit)
  /-- Makes a directory inside an existing one. -/
  makeDirectory (path : String) : m (Except FileError Unit)
  /-- Whether there is a directory of that name. -/
  isDirectory (path : String) : m Bool

namespace Path

/-- The pieces of a text between slashes. -/
def pieces : List Char → List (List Char)
  | [] => [[]]
  | c :: cs =>
    if c = '/' then [] :: pieces cs
    else match pieces cs with
      | [] => [[c]]
      | piece :: rest => (c :: piece) :: rest

/-- The pieces of a path between slashes. -/
def split (path : String) : List String := (pieces path.toList).map String.ofList

/-- The most bytes a name may have. -/
def nameLimit : Nat := 255

/-- The number of bytes from which on a path is too long. -/
def lengthLimit : Nat := 4096

/-- Whether a path starts at the root. -/
def isAbsolute (path : String) : Bool := path.toList.head? == some '/'

/-- Whether a piece stands for the directory it is in. -/
def isHere (piece : String) : Bool := piece == "" || piece == "."

/-- The path of pieces. -/
def join (pieces : List String) : String := String.intercalate "/" pieces

/-- The directory that holds what a path names. Pieces at the end that stand for
the directory they are in do not count. -/
def parent (path : String) : String :=
  let named := (split path).reverse.dropWhile isHere
  join ((named.drop 1).dropWhile isHere).reverse

/-- The path of a name in a directory. -/
def entry (directory name : String) : String :=
  if directory.isEmpty || directory.toList.getLast? == some '/' then directory ++ name
  else directory ++ "/" ++ name

end Path

/-- Makes a directory and, for at most so many levels, what is missing above it.
A directory that is there already is fine. -/
def makeDirectoriesWithin {m : Type → Type} [Monad m] [Files m] :
    Nat → String → m (Except FileError Unit)
  | 0, _ => pure (.ok ())
  | levels + 1, path => do
    if path.isEmpty then return .ok ()
    match ← Files.makeDirectory path with
    | .ok () => return .ok ()
    | .error .notFound =>
      match ← makeDirectoriesWithin levels (Path.parent path) with
      | .error e => return .error e
      | .ok () =>
        match ← Files.makeDirectory path with
        | .ok () => return .ok ()
        | .error e => return if ← Files.isDirectory path then .ok () else .error e
    | .error e => return if ← Files.isDirectory path then .ok () else .error e

/-- Makes a directory and everything missing above it. -/
def makeDirectories {m : Type → Type} [Monad m] [Files m] (path : String) :
    m (Except FileError Unit) :=
  makeDirectoriesWithin ((Path.split path).length + 1) path

end ShaderGen.CommandLine
