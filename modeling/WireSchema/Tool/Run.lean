import WireSchema.Compiler
import WireSchema.Graph.Dot
import WireSchema.Graph.Recursion
import WireSchema.Tool.Arguments
import WireSchema.Tool.Config
import WireSchema.TypeSystem.Language

/-!
# Running the tool

A run reads the configuration, does what the command says and ends with a report:
an exit code and what was printed.  All it does besides is what it asks of the disk.

A check goes through all its files whatever is wrong with them, and fails in the
end if anything was.  Every other command stops at the first thing that is wrong.
-/

namespace WireSchema
namespace Tool

/-- What a run ends with. -/
structure Report where
  exit : Nat
  out : String
  err : String
  deriving DecidableEq

/-- Why no type system comes out of a file. -/
inductive FileFault where
  | unreadable (error : FileError)
  | malformed (fault : Json.Fault)
  | failed (failure : CompileFailure)

/-- The message of a fault of a file. -/
def FileFault.message : FileFault → String
  | .unreadable error => "IO error: " ++ error.message
  | .malformed fault => "JSON error at " ++ fault.path.text ++ ": " ++ fault.cause.message
  | .failed failure => failure.message

/-- What lies behind a fault of a file and is told after it, if it is told. -/
def FileFault.cause? : FileFault → Option String
  | .unreadable error => some error.message
  | .malformed _ => none
  | .failed failure => some failure.message

/-- Why a command ends without having done what it should. -/
inductive RunError where
  | config (error : ConfigError)
  /-- The configuration has a size in it that has no written form. -/
  | sizeTooLarge
  | noFiles
  | noPath (path : String)
  | badFile (fault : FileFault)
  | noType (name file : String)
  | alreadyThere (path : String)
  | unwritable (path : String) (error : FileError)

/-- The message of an error: what went wrong, and what lies behind it. -/
def RunError.message : RunError → String
  | .config error => "loading configuration: " ++ error.message
  | .sizeTooLarge => "out-of-range value for u64 type"
  | .noFiles => "no schema files found"
  | .noPath path => path ++ " does not exist"
  | .badFile fault =>
    match fault.cause? with
    | some cause => fault.message ++ ": " ++ cause
    | none => fault.message
  | .noType name file => "type " ++ inQuotes name ++ " not found in " ++ file
  | .alreadyThere path => path ++ " already exists (use --force to overwrite)"
  | .unwritable path error => "writing " ++ path ++ ": " ++ error.message

/-! ## What is printed -/

/-- A line about a type: its name, its kind and how it is represented. -/
def compactLine (t : CompiledType) : String :=
  t.name ++ " " ++ t.body.kind.name ++ " -> " ++
    ((t.body.wireKind.map Kind.name).getD "kinded") ++
    (if t.anonymous then " (anonymous)" else "") ++ "\n"

/-- The types of a system as the configuration wants them printed. -/
def printed (config : Config) (ts : TypeSystem) : String :=
  String.join (ts.ids.filterMap fun id =>
    match ts.type? id with
    | none => none
    | some t =>
      if t.anonymous && !config.showAnonymous then none
      else
        match config.format with
        | .pretty => some (ts.inLanguage id ++ "\n\n")
        | .compact => some (compactLine t))

/-- The lines of a check about one file. -/
def checkLines (file : String) : Except FileFault TypeSystem → String
  | .ok ts =>
    "✅ " ++ file ++ " - " ++ toString ts.size ++ " types (" ++
      toString ts.anonymous.length ++ " anonymous)\n"
  | .error (.failed (.rejected errors)) =>
    "❌ " ++ file ++ " - " ++ toString errors.size ++ " error(s)\n" ++
      String.join (errors.toList.map fun e => "   " ++ e.message ++ "\n")
  | .error fault => "❌ " ++ file ++ " - " ++ fault.message ++ "\n"

/-- The report of a check from what came out of each file. -/
def checkReport (results : List (String × Except FileFault TypeSystem)) : Report :=
  let failed := (results.filter fun r => !r.2.isOk).length
  ⟨if failed = 0 then 0 else 1,
    String.join (results.map fun r => checkLines r.1 r.2) ++ "\n" ++
      toString results.length ++ " checked, " ++ toString failed ++ " failed\n", ""⟩

/-- The line about a graph that was written. -/
def graphLines (path : String) (ts : TypeSystem) : String :=
  "✅ Exported DOT to: " ++ path ++ "\n   " ++ toString ts.graph.nodeCount ++ " types, " ++
    toString ts.graph.edgeCount ++ " references, " ++ toString ts.recursiveGroups.length ++
    " recursive group(s)\n"

/-! ## What is done -/

variable {m : Type → Type} [Monad m]

/-- The type system of a text. -/
def compileText (compiler : Compiler) (text : String) : Except FileFault TypeSystem := do
  let schema ← (Schema.ofText text).mapError .malformed
  (compiler.compile schema).mapError .failed

/-- The type system of a file. -/
def compileFile (disk : Disk m) (compiler : Compiler) (file : String) :
    ExceptT FileFault m TypeSystem := do
  match ← disk.read file with
  | .error e => throw (.unreadable e)
  | .ok text => ExceptT.mk (pure (compileText compiler text))

/-- The schema files that paths stand for: a directory stands for those below it,
any other path for itself. -/
def schemaFiles (disk : Disk m) : List String → ExceptT RunError m (List String)
  | [] => return []
  | path :: paths => do
    match ← disk.sort? path with
    | some .directory =>
      let below ← disk.filesBelow path
      return (below.filter fun file => ending? file = some "json") ++ (← schemaFiles disk paths)
    | some .file => return path :: (← schemaFiles disk paths)
    | none => throw (.noPath path)

/-- Every file with what comes out of it. -/
def compileFiles (disk : Disk m) (compiler : Compiler) :
    List String → m (List (String × Except FileFault TypeSystem))
  | [] => return []
  | file :: files => do
    let result ← (compileFile disk compiler file).run
    return (file, result) :: (← compileFiles disk compiler files)

/-- A text written to a file. -/
def writeFile (disk : Disk m) (path text : String) : ExceptT RunError m Unit := do
  match ← disk.write path text with
  | .error e => throw (.unwritable path e)
  | .ok () => return

/-- A report of success. -/
def Report.success (out : String) : Report := ⟨0, out, ""⟩

/-- What a command does. -/
def perform (disk : Disk m) (config : Config) : Command → ExceptT RunError m Report
  | .check paths => do
    let files ← schemaFiles disk paths
    if files.isEmpty then throw .noFiles
    else
      let results ← (compileFiles disk (.withSettings config.settings) files : m _)
      return checkReport results
  | .show file typeName => do
    let ts ← (compileFile disk (.withSettings config.settings) file).adapt .badFile
    match typeName with
    | none => return .success (printed config ts)
    | some name =>
      match ts.find? name with
      | some id => return .success (ts.inLanguage id ++ "\n")
      | none => throw (.noType name file)
  | .graph file output => do
    let ts ← (compileFile disk (.withSettings config.settings) file).adapt .badFile
    match output with
    | none => return .success ts.dot
    | some path =>
      writeFile disk path ts.dot
      return .success (graphLines path ts)
  | .configShow =>
    match config.text? with
    | some text => return .success text
    | none => throw .sizeTooLarge
  | .configInit path force => do
    if (← disk.sort? path).isSome && !force then throw (.alreadyThere path)
    else
      writeFile disk path Config.standard.text
      return .success ("✅ Wrote default configuration to: " ++ path ++ "\n")

/-- A run of the tool with the surroundings it takes its configuration from. -/
def run (disk : Disk m) (environment : List (String × String)) (userFile : Option String)
    (invocation : Invocation) : m Report := do
  let done : ExceptT RunError m Report := do
    let config ← (Config.load disk environment userFile invocation.config).adapt .config
    perform disk config invocation.command
  match ← done.run with
  | .ok report => return report
  | .error e => return ⟨1, "", "❌ Error: " ++ e.message ++ "\n"⟩

end Tool
end WireSchema
