import WireSchema.Settings
import WireSchema.Tool.Disk
import WireSchema.Tool.FileFormat

/-!
# The configuration of the tool

A configuration is made of layers: the files in the places where one is looked
for, the file that the command line names, and the variables of the environment.
A later layer counts more than an earlier one, key by key, and what no layer gives
is standard.

Values are read leniently, since a variable of the environment is a text whatever
it is meant to be: a number stands for a truth value and a truth value for a
number, and so do the usual words for them.  Neither keys nor words depend on the
case of their letters.

## The names of files

A file is looked for under its name first.  If it is not there, the endings of the
known formats are tried behind the name, so a name may leave its ending out.
-/

namespace WireSchema
namespace Tool

/-- How types are printed. -/
inductive OutputFormat where
  /-- In the schema language. -/
  | pretty
  /-- One line for a type. -/
  | compact
  deriving DecidableEq

/-- The name of an output format. -/
def OutputFormat.name : OutputFormat → String
  | .pretty => "pretty"
  | .compact => "compact"

/-- The configuration in effect. -/
structure Config where
  settings : Settings
  format : OutputFormat
  showAnonymous : Bool
  deriving DecidableEq

/-- Why there is no configuration. -/
inductive ConfigError where
  /-- The file that the command line names is not there. -/
  | notFound (file : String)
  /-- A file is there whose name does not say that it is a configuration file. -/
  | unknownFormat (file : String)
  /-- A file is there that no configuration can be read from. -/
  | malformed (file : String)
  /-- A value is not what its key wants. -/
  | mismatch (key : String)
  deriving DecidableEq

/-- The message of a configuration error. -/
def ConfigError.message : ConfigError → String
  | .notFound file => "configuration file \"" ++ file ++ "\" not found"
  | .unknownFormat file =>
      "configuration file \"" ++ file ++ "\" is not of a registered file format"
  | .malformed file => "configuration file \"" ++ file ++ "\" is malformed"
  | .mismatch key => "invalid value for the key " ++ key

/-! ## What values stand for -/

/-- The truth value that a word stands for. -/
def wordBool? (s : String) : Option Bool :=
  let word := ConfigValue.lowered s
  if word ∈ ["true", "on", "yes"] then some true
  else if word ∈ ["false", "off", "no"] then some false
  else none

namespace ConfigValue

/-- The truth value that a value stands for. -/
def toBool? : ConfigValue → Option Bool
  | .bool b => some b
  | .int n => some (n ≠ 0)
  | .float x => some (!x.isZero)
  | .text s => if s = "1" then some true else if s = "0" then some false else wordBool? s
  | _ => none

/-- The size that a value stands for.  A number that is not whole is rounded, its
half away from zero, and kept within 64 bits. -/
def toSize? : ConfigValue → Option Nat
  | .bool b => some b.toNat
  | .int n => if 0 ≤ n then some n.toNat else none
  | .float x => some (x.toNatWithin Numeral.maxNat64)
  | .text s =>
    match wordBool? s with
    | some b => some b.toNat
    | none => Numeral.nat64? s.toList
  | _ => none

/-- The output format of a name. -/
def formatOf? (name : String) : Option OutputFormat :=
  match lowered name with
  | "pretty" => some .pretty
  | "compact" => some .compact
  | _ => none

/-- The output format that a value stands for: a name, or a table with the name as
its single key. -/
def toFormat? : ConfigValue → Option OutputFormat
  | .text s => formatOf? s
  | .table [(key, _)] => formatOf? key
  | _ => none

/-- The entries of a table.  A list stands for the table of its items under the
keys in their order. -/
def entriesUnder? (keys : List String) : ConfigValue → Option ConfigEntries
  | .table es => some es
  | .list items => some (keys.zip items)
  | _ => none

end ConfigValue

namespace Config

/-- The configuration that no layer has a say in. -/
def standard : Config := ⟨.standard, .pretty, true⟩

/-- What the value under a key stands for, or what is standard if there is none. -/
def readAt {α : Type} (entries : ConfigEntries) (key : String)
    (as? : ConfigValue → Option α) (standard : α) : Except ConfigError α :=
  match entries.lookup key with
  | none => .ok standard
  | some v => ((as? v).map .ok).getD (.error (.mismatch key))

/-- The entries of a table in a table; the keys are those it can have. -/
def entriesUnder (es : ConfigEntries) (key : String) (keys : List String) :
    Except ConfigError ConfigEntries :=
  readAt es key (ConfigValue.entriesUnder? keys) []

/-- The configuration that the entries of merged layers stand for. -/
def ofEntries (es : ConfigEntries) : Except ConfigError Config := do
  let settings := standard.settings
  let compiler ← entriesUnder es "compiler" ["max_inline_depth", "strict_map_keys"]
  let depth ← readAt compiler "max_inline_depth" ConfigValue.toSize? settings.maxInlineDepth
  let strict ← readAt compiler "strict_map_keys" ConfigValue.toBool? settings.strictMapKeys
  let output ← entriesUnder es "output" ["format", "show_anonymous"]
  let format ← readAt output "format" ConfigValue.toFormat? standard.format
  let showAnonymous ← readAt output "show_anonymous" ConfigValue.toBool? standard.showAnonymous
  return ⟨⟨depth, strict⟩, format, showAnonymous⟩

/-- The text of a configuration file that sets every key. -/
def text (c : Config) : String :=
  "[compiler]\nmax_inline_depth = " ++ toString c.settings.maxInlineDepth ++
    "\nstrict_map_keys = " ++ toString c.settings.strictMapKeys ++
    "\n\n[output]\nformat = \"" ++ c.format.name ++
    "\"\nshow_anonymous = " ++ toString c.showAnonymous ++ "\n"

/-- The text of a configuration file, if its size is one that can be written: such
files hold numbers with a sign only. -/
def text? (c : Config) : Option String :=
  if (c.settings.maxInlineDepth : Int) ≤ Numeral.maxInt64 then some c.text else none

/-! ## The environment -/

/-- The beginning of the variables that are meant, in lower case. -/
def variableMark : String := "schemac__"

/-- The key that a variable names: what is behind the mark, with a point for every
pair of underscores, whatever its case. -/
def variableKey? (name : String) : Option String :=
  let name := ConfigValue.lowered name
  if name.startsWith variableMark then
    some (".".intercalate ((String.ofList (name.toList.drop variableMark.length)).splitOn "__"))
  else none

/-- The value of a variable: a truth value or a number if its text is one. -/
def variableValue (s : String) : ConfigValue :=
  match ConfigValue.lowered s with
  | "true" => .bool true
  | "false" => .bool false
  | _ =>
    match Numeral.int64? s.toList with
    | some i => .int i
    | none => ((Numeral.double? s.toList).map .float).getD (.text s)

/-- The layer of the variables that are meant.  Of variables with the same key the
last one counts. -/
def variableLayer (environment : List (String × String)) : ConfigEntries :=
  environment.foldl (fun es v =>
    match variableKey? v.1 with
    | some key => ConfigValue.put key (variableValue v.2) es
    | none => es) []

/-! ## The layers -/

/-- The places where a configuration file is looked for. -/
def places : List String :=
  ["schemac.toml", ".schemac.toml", "config/schemac.toml"]

variable {m : Type → Type} [Monad m]

/-- The first of some paths that leads to a file. -/
def firstFile? (disk : Disk m) : List String → m (Option String)
  | [] => return none
  | path :: paths => do
    if (← disk.sort? path) = some .file then return some path
    else firstFile? disk paths

/-- The file that the name of a configuration file stands for: the one of that
name, or else one of that name with the ending of a format. -/
def find? (disk : Disk m) (name : String) : m (Option String) :=
  firstFile? disk (name :: FileFormat.endings.filterMap fun e => withEnding? name e.1)

/-- The layer of a configuration file, if it is there. -/
def fileLayer (disk : Disk m) (name : String) : ExceptT ConfigError m (Option ConfigEntries) := do
  match ← (find? disk name : m (Option String)) with
  | none => return none
  | some file =>
    match (ending? file).bind fun ending => FileFormat.endings.lookup ending with
    | none => throw (.unknownFormat name)
    | some format =>
      match ← disk.read file with
      | .error _ => throw (.malformed name)
      | .ok text =>
        match format.parse text with
        | none => throw (.malformed name)
        | some layer => return some layer

/-- The layers of the configuration files that are there. -/
def fileLayers (disk : Disk m) : List String → ExceptT ConfigError m (List ConfigEntries)
  | [] => return []
  | name :: names => return (← fileLayer disk name).toList ++ (← fileLayers disk names)

/-- The layer of the user's own file.  It is looked for only if something has its
very name. -/
def userLayers (disk : Disk m) : Option String → ExceptT ConfigError m (List ConfigEntries)
  | none => return []
  | some name => do
    if (← disk.sort? name).isSome then return (← fileLayer disk name).toList else return []

/-- The layer of the file that the command line names, if it names one. -/
def namedLayers (disk : Disk m) : Option String → ExceptT ConfigError m (List ConfigEntries)
  | none => return []
  | some name => do
    match ← fileLayer disk name with
    | none => throw (.notFound name)
    | some layer => return [layer]

/-- The entries of merged layers, the later ones on top. -/
def merged (layers : List ConfigEntries) : ConfigEntries :=
  (layers.foldl ConfigValue.withLayer (.table [])).entries

/-- The configuration in effect: from the files in their places, the user's own
file, the file that the command line names, and the environment. -/
def load (disk : Disk m) (environment : List (String × String)) (userFile : Option String)
    (named : Option String) : ExceptT ConfigError m Config := do
  let below ← fileLayers disk places
  let own ← userLayers disk userFile
  let above ← namedLayers disk named
  let layers := below ++ own ++ above ++ [variableLayer environment]
  ExceptT.mk (pure (ofEntries (merged layers)))

end Config
end Tool
end WireSchema
