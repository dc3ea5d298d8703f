import DeltaCoding.CommandLine.Run

/-!
# The program

The outermost layer of the command line. It looks up the files that the arguments name, asks `run`
what the program does, and does that. All decisions are in `run`.

* `lookUp` reads what an invocation names;
* `Report.say` prints a report, and ends with its exit status;
* `main` is the program.
-/

namespace DeltaCoding.CommandLine

def Command.paths : Command → List String × Option String
  | .encode a => (a.dictionary.toList ++ a.input.toList, a.output)
  | .decode a => (a.dictionary.toList ++ a.input.toList, a.output)
  | .inspect path => ([path], none)

def Command.readsStandardInput : Command → Bool
  | .encode a => a.input.isNone
  | .decode a => a.input.isNone
  | .inspect _ => false

def FileError.ofSystem : IO.Error → FileError
  | .noFileOrDirectory .. => .notFound
  | .inappropriateType _ 20 _ => .notADirectory
  | .inappropriateType _ 21 _ => .isADirectory
  | .invalidArgument _ 36 _ => .nameTooLong
  | .permissionDenied .. => .other "Permission denied (os error 13)"
  | error => .other error.toString

/-- Runs an operation on files; a failure becomes a value. -/
def attempt {α : Type} (operation : IO α) : IO (Except FileError α) := do
  match ← operation.toBaseIO with
  | .ok value => pure (.ok value)
  | .error error => pure (.error (.ofSystem error))

/-- The full name of a file; none if it is not there. -/
def fullName? (path : String) : IO (Option String) := do
  match ← attempt (IO.FS.realPath path) with
  | .ok name => pure (some name.toString)
  | .error _ => pure none

/-- Looks up what a command names. Nothing is created yet. -/
def lookUp (command : Command) : IO Files := do
  let (inputs, output) := command.paths
  let opened ← inputs.mapM fun (path : String) => do
    pure (path, (← attempt (IO.FS.Handle.mk path .read)).map fun _ => ())
  let contents ← inputs.mapM fun (path : String) => do
    pure (path, (← attempt (IO.FS.readBinFile path)).map fun bytes => bytes.data)
  let names ← (inputs ++ output.toList).mapM fun (path : String) => do pure (path, ← fullName? path)
  let standardInput ←
    if command.readsStandardInput then pure (← (← IO.getStdin).readBinToEnd).data else pure #[]
  let name? (path : String) : Option String := (names.lookup path).join
  pure
    { open? := fun path => (opened.lookup path).getD (.error .notFound)
      read := fun path => (contents.lookup path).getD (.error .notFound)
      isThere := fun path => (name? path).isSome
      create := fun _ => .ok ()
      same := fun a b => (name? a).isSome && name? a == name? b
      standardInput := standardInput }

def Report.say (report : Report) : IO UInt32 := do
  (← IO.getStdout).write ⟨report.standardOutput.toArray⟩
  report.standardError.forM fun line => IO.eprintln line
  pure report.exit.toUInt32

end DeltaCoding.CommandLine

open DeltaCoding.CommandLine

/-- The program. Whether an output can be created is seen when it is written; if it cannot, `run`
is asked again, with the reason at hand. -/
def main (arguments : List String) : IO UInt32 := do
  let files ←
    match Invocation.parse arguments with
    | .ok invocation => lookUp invocation.command
    | .error _ => pure (.ofTree {} #[])
  let report := run arguments files
  match report.file with
  | none => report.say
  | some (path, content) =>
    match ← attempt (IO.FS.writeBinFile path ⟨content.toArray⟩) with
    | .ok () => report.say
    | .error error => (run arguments { files with create := fun _ => .error error }).say
