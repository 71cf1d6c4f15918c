import WireSchema.Tool.Run

/-!
# The program

The disk of the machine and the process around a run of the tool.  Nothing is
decided here: operations of the machine are handed to `Tool.run`, and its report is
printed.
-/

namespace WireSchema

/-- The number of an error of the system, which some operations report with the
opposite sign. -/
def errorNumber (code : UInt32) : Nat :=
  if code < 0x80000000 then code.toNat else (0 - code).toNat

/-- The error of the system with a number, if the tool knows it. -/
def numberedError? : Nat → Option FileError
  | 13 => some (.other "Permission denied (os error 13)")
  | 20 => some .notDirectory
  | 21 => some .isDirectory
  | 36 => some .nameTooLong
  | _ => none

/-- What a failed operation of the machine means to the tool. -/
def fileError (e : IO.Error) : FileError :=
  let numbered (code : UInt32) : FileError :=
    (numberedError? (errorNumber code)).getD (.other (toString e))
  match e with
  | .noFileOrDirectory .. => .notFound
  | .inappropriateType _ code _ => numbered code
  | .invalidArgument _ code _ => numbered code
  | .permissionDenied _ code _ => numbered code
  | _ => .other (toString e)

/-- An operation of the machine with its failure as a value. -/
def attempt {α : Type} (act : IO α) : IO (Except FileError α) := do
  match ← act.toBaseIO with
  | .ok a => return .ok a
  | .error e => return .error (fileError e)

/-- What a path leads to, links followed. -/
def sortOf (path : String) : IO (Option FileSort) := do
  let found ← attempt do return (← (← IO.FS.realPath path).metadata).type
  match found with
  | .ok .dir => return some .directory
  | .ok _ => return some .file
  | .error _ => return none

/-- What is in a directory, in the order of the names; links are not followed. -/
def contentsOf (path : String) : IO (List (String × FileSort)) := do
  let found ← attempt do
    (← (← IO.FS.realPath path).readDir).toList.filterMapM fun entry => do
      match (← entry.path.symlinkMetadata).type with
      | .dir => return some (entry.fileName, FileSort.directory)
      | .file => return some (entry.fileName, FileSort.file)
      | _ => return none
  match found with
  | .ok contents => return contents.mergeSort fun a b => a.1 ≤ b.1
  | .error _ => return []

/-- The paths of the files below a directory, in the order of their names. -/
partial def filesBelow (path : String) : IO (List String) := do
  let mut found := []
  for (name, sort) in ← contentsOf path do
    let inner := joinPath path [name]
    match sort with
    | .directory => found := found ++ (← filesBelow inner)
    | .file => found := found ++ [inner]
  return found

/-- The disk of the machine. -/
def machineDisk : Disk IO where
  sort? := sortOf
  read path := attempt (IO.FS.readFile path)
  filesBelow := filesBelow
  write path text := attempt (IO.FS.writeFile path text)

/-- The environment of the process, as the system shows it. -/
def environment : IO (List (String × String)) := do
  match ← attempt (IO.FS.readFile "/proc/self/environ") with
  | .error _ => return []
  | .ok text =>
    return (text.splitOn "\x00").filterMap fun line =>
      match line.splitOn "=" with
      | name :: value@(_ :: _) => some (name, "=".intercalate value)
      | _ => none

/-- The user's own configuration file: in the directory the user keeps such files
in, by default one of the home directory. -/
def userFile : IO (Option String) := do
  let directory ←
    match (← IO.getEnv "XDG_CONFIG_HOME").filter fun d => d.startsWith "/" with
    | some directory => pure (some directory)
    | none => pure ((← IO.getEnv "HOME").map fun home => joinPath home [".config"])
  return directory.map fun d => joinPath d ["schemac", "schemac.toml"]

/-- How the tool is called. -/
def usage : String :=
  "Usage: schemac [-c FILE] check PATHS...\n" ++
  "       schemac [-c FILE] show FILE [-t NAME]\n" ++
  "       schemac [-c FILE] graph FILE [-o FILE]\n" ++
  "       schemac [-c FILE] config show\n" ++
  "       schemac [-c FILE] config init [PATH] [--force]\n"

/-- The tool on the command line. -/
def program (words : List String) : IO UInt32 := do
  match Tool.parseArguments words with
  | none =>
    (← IO.getStderr).putStr usage
    return 2
  | some (.help page) =>
    (← IO.getStdout).putStr page.text
    return 0
  | some (.run invocation) =>
    let report ← Tool.run machineDisk (← environment) (← userFile) invocation
    (← IO.getStdout).putStr report.out
    (← IO.getStderr).putStr report.err
    return UInt32.ofNat report.exit

end WireSchema

def main (words : List String) : IO UInt32 :=
  WireSchema.program words
