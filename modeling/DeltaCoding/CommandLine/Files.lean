import DeltaCoding.CommandLine.FileTree

/-!
# Files as a command sees them

A command reads some files as a whole and creates at most one. `Files` says what comes of that, so
that commands can be carried out without touching a disk. `Files.ofTree` answers for a tree of
files.
-/

namespace DeltaCoding.CommandLine

/-- What is known of the files that a command may name. -/
structure Files where
  /-- Opens a file for reading. -/
  open? : String → Except FileError Unit
  /-- The content of a file. -/
  read : String → Except FileError (Array UInt8)
  /-- There is a file or directory of this name. -/
  isThere : String → Bool
  /-- Creates a file, or empties it. -/
  create : String → Except FileError Unit
  /-- Both names are of one file. -/
  same : String → String → Bool
  /-- The standard input. -/
  standardInput : Array UInt8

namespace Files

def contentOf (t : FileTree) (path : String) : Except FileError (Array UInt8) := do
  match t.entry? (← t.find path) with
  | some (.file content) | some (.device content) => pure content
  | some .directory => throw .isADirectory
  | none => throw .notFound

def plainFile? (t : FileTree) (path : String) : Option Place :=
  match t.find path with
  | .ok place => if t.entry? place matches some (.file _) then some place else none
  | .error _ => none

def ofTree (t : FileTree) (standardInput : Array UInt8) : Files :=
  { open? := fun path => (t.find path).map fun _ => ()
    read := contentOf t
    isThere := fun path => t.find path matches .ok _
    create := fun path => (t.target path).map fun _ => ()
    same := fun a b => (plainFile? t a).isSome && plainFile? t a = plainFile? t b
    standardInput := standardInput }

end Files

end DeltaCoding.CommandLine
