import WireSchema.Json.Reader
import WireSchema.Tool.Ini
import WireSchema.Tool.Json5
import WireSchema.Tool.Ron
import WireSchema.Tool.Toml
import WireSchema.Tool.Yaml.Document

/-!
# The formats of configuration files

A configuration file may be written in any of six formats, and the ending of its
name says in which.  Whatever the format, a file is a table at its root.
-/

namespace WireSchema
namespace Tool

namespace ConfigValue

mutual

/-- The value that a JSON value stands for.  A whole number that has no room in
sixty-four bits with a sign becomes a double, and of entries with the same key the
last one counts. -/
def ofJson : Json → ConfigValue
  | .null => .nothing
  | .bool b => .bool b
  | .int i => if i ≤ Numeral.maxInt64 then .int i else .float (.ofNat i.toNat)
  | .float x => .float x
  | .text s => .text s
  | .list items => .list (itemsOfJson items)
  | .object es => .table (entriesOfJson [] es)

/-- The values of the items of a list. -/
def itemsOfJson : List Json → List ConfigValue
  | [] => []
  | x :: rest => ofJson x :: itemsOfJson rest

/-- The entries of an object behind those before them. -/
def entriesOfJson (before : ConfigEntries) : List (String × Json) → ConfigEntries
  | [] => before
  | (key, x) :: rest => entriesOfJson (put key (ofJson x) before) rest

end

end ConfigValue

/-- A format of configuration files. -/
inductive FileFormat where
  | toml
  | json
  | yaml
  | ini
  | ron
  | json5
  deriving DecidableEq

namespace FileFormat

/-- Every format, with the endings of the names of its files. -/
def endings : List (String × FileFormat) :=
  [("toml", .toml), ("json", .json), ("yaml", .yaml), ("yml", .yaml), ("ini", .ini),
    ("ron", .ron), ("json5", .json5)]

/-- The entries of a text in a format, or `none` if it is not in that format. -/
def parse (format : FileFormat) (text : String) : Option ConfigEntries :=
  let cs := Text.withoutMark text.toList
  match format with
  | .toml => Toml.parse cs
  | .yaml => Yaml.parse cs
  | .ini => Ini.parse cs
  | .ron => Ron.parse cs
  | .json5 => Json5.parse cs
  | .json =>
    match Json.parse (String.ofList cs) with
    | .ok (.object es) => some (ConfigValue.entriesOfJson [] es)
    | _ => none

end FileFormat

end Tool
end WireSchema
