/-!
# Trees of files

A tree holds directories, plain files and devices. Paths are followed in it step by step, so that it
is known what a path leads to, or at which step and why it leads nowhere.

* `FileTree.find` follows a path to something that is there;
* `FileTree.target` follows a path to a file that is to be created or emptied.
-/

namespace DeltaCoding.CommandLine

/-- Why a file cannot be read or created. -/
inductive FileError where
  | notFound
  | notADirectory
  | isADirectory
  | nameTooLong
  /-- Any other reason that the system gives. -/
  | other (reason : String)
deriving DecidableEq

namespace FileError

def message : FileError → String
  | notFound => "No such file or directory (os error 2)"
  | notADirectory => "Not a directory (os error 20)"
  | isADirectory => "Is a directory (os error 21)"
  | nameTooLong => "File name too long (os error 36)"
  | other reason => reason

end FileError

/-- What stands at a place of a tree. -/
inductive Entry where
  | directory
  | file (content : Array UInt8)
  /-- Something to read from and write to that does not keep what is written. -/
  | device (content : Array UInt8)
deriving DecidableEq

/-- A place in a tree: the names on the way there from the root, the last one first. -/
abbrev Place := List String

/-- A tree of files. The root is a directory. -/
structure FileTree where
  /-- What is there, apart from the root. -/
  entries : List (Place × Entry) := []
  /-- The directory that relative paths start from. -/
  here : Place := []

/-! ## Paths -/

namespace Path

def maxName : Nat := 255

def bound : Nat := 4096

/-- The steps of a path. Slashes in a row count as one. -/
def steps (path : String) : List String :=
  (path.splitOn "/").filter (· ≠ "")

/-- The step is to the same directory or back to the one around it, not to a name. -/
def isDots (step : String) : Bool :=
  step = "." || step = ".."

end Path

/-! ## Following paths -/

namespace FileTree

def entry? (t : FileTree) (place : Place) : Option Entry :=
  if place.isEmpty then some .directory else t.entries.lookup place

def enter (t : FileTree) (place : Place) : Except FileError Place :=
  match t.entry? place with
  | none => .error .notFound
  | some .directory => .ok place
  | some _ => .error .notADirectory

/-- The place of a name in the directory at a place, whether or not something stands there. -/
def nameIn (t : FileTree) (place : Place) (name : String) : Except FileError Place := do
  let place ← t.enter place
  if name.utf8ByteSize ≤ Path.maxName then pure (name :: place) else throw .nameTooLong

/-- Follows one step, to something that is there. The root is its own surroundings. -/
def step (t : FileTree) (place : Place) (name : String) : Except FileError Place :=
  if name = "." then t.enter place
  else if name = ".." then (t.enter place).map List.tail
  else do
    let place ← t.nameIn place name
    if (t.entry? place).isSome then pure place else throw .notFound

def walk (t : FileTree) (path : String) (steps : List String) : Except FileError Place :=
  if path.isEmpty then .error .notFound
  else if path.utf8ByteSize < Path.bound then
    steps.foldlM t.step (if path.startsWith "/" then [] else t.here)
  else .error .nameTooLong

/-- Where a path leads. A path with a slash at its end leads to a directory. -/
def find (t : FileTree) (path : String) : Except FileError Place := do
  let place ← t.walk path (Path.steps path)
  if path.endsWith "/" then t.enter place else pure place

/-- Where a file is that is to be created or emptied by a path. The last name in the path need not
be there, but everything in front of it. -/
def target (t : FileTree) (path : String) : Except FileError Place := do
  let steps := Path.steps path
  let place ← t.enter (← t.walk path steps.dropLast)
  match steps.getLast? with
  | none => throw .isADirectory
  | some name =>
    if Path.isDots name || path.endsWith "/" then throw .isADirectory
    let place ← t.nameIn place name
    if t.entry? place = some .directory then throw .isADirectory
    pure place

end FileTree

end DeltaCoding.CommandLine
