/-!
# The help pages of the tool

Every command has a page that says what it is for, how it is called, and what may
stand behind it.  The entries of a section are aligned: their descriptions begin in
one column, two blanks behind the longest name.
-/

namespace WireSchema
namespace Tool

/-- A page of help.  An entry of a section is a name with its description. -/
structure HelpPage where
  about : String
  usage : String
  commands : List (String × String)
  arguments : List (String × String)
  options : List (String × String)
  deriving DecidableEq

namespace HelpPage

/-- One entry, its description in the column `width` behind the indentation. -/
def entryLine (width : Nat) (e : String × String) : String :=
  "  " ++ e.1 ++ String.ofList (List.replicate (width - e.1.length) ' ') ++ "  " ++ e.2 ++ "\n"

/-- A section under its heading, if it has entries. -/
def sectionText (heading : String) (es : List (String × String)) : String :=
  if es.isEmpty then ""
  else
    let width := es.foldl (fun n e => max n e.1.length) 0
    "\n" ++ heading ++ ":\n" ++ String.join (es.map (entryLine width))

/-- The text of a page. -/
def text (p : HelpPage) : String :=
  p.about ++ "\n\nUsage: schemac " ++ p.usage ++ "\n" ++ sectionText "Commands" p.commands ++
    sectionText "Arguments" p.arguments ++ sectionText "Options" p.options

/-- The entry of the option that names a configuration file. -/
def configEntry : String × String :=
  ("-c, --config <CONFIG>", "Config file to load on top of the default locations")

/-- The entry of the option that asks for the page. -/
def helpEntry : String × String :=
  ("-h, --help", "Print help")

/-- The entry of the command that asks for a page. -/
def helpCommandEntry : String × String :=
  ("help", "Print this message or the help of the given subcommand(s)")

/-- The page of the tool. -/
def tool : HelpPage where
  about := "Compile and inspect IPLD-style schema declarations"
  usage := "[OPTIONS] <COMMAND>"
  commands :=
    [("check", "Compile schema files and report every error"),
     ("show", "Print the compiled type system"),
     ("graph", "Export the type dependency graph in DOT format"),
     ("config", "Inspect or create the configuration file"),
     helpCommandEntry]
  arguments := []
  options := [configEntry, helpEntry]

/-- The page of the command that checks files. -/
def check : HelpPage where
  about := "Compile schema files and report every error"
  usage := "check [OPTIONS] <PATHS>..."
  commands := []
  arguments := [("<PATHS>...", "Schema files, or directories searched for *.json")]
  options := [configEntry, helpEntry]

/-- The page of the command that prints types. -/
def «show» : HelpPage where
  about := "Print the compiled type system"
  usage := "show [OPTIONS] <FILE>"
  commands := []
  arguments := [("<FILE>", "Schema file")]
  options := [configEntry, ("-t, --type <TYPE_NAME>", "Only print this type"), helpEntry]

/-- The page of the command that writes graphs. -/
def graph : HelpPage where
  about := "Export the type dependency graph in DOT format"
  usage := "graph [OPTIONS] <FILE>"
  commands := []
  arguments := [("<FILE>", "Schema file")]
  options :=
    [configEntry, ("-o, --output <OUTPUT>", "Output file (defaults to stdout)"), helpEntry]

/-- The page of the command about the configuration. -/
def config : HelpPage where
  about := "Inspect or create the configuration file"
  usage := "config [OPTIONS] <COMMAND>"
  commands :=
    [("show", "Print the effective configuration"),
     ("init", "Write a default configuration file"),
     helpCommandEntry]
  arguments := []
  options := [configEntry, helpEntry]

/-- The page of the command that prints the configuration. -/
def configShow : HelpPage where
  about := "Print the effective configuration"
  usage := "config show [OPTIONS]"
  commands := []
  arguments := []
  options := [configEntry, helpEntry]

/-- The page of the command that writes a configuration file. -/
def configInit : HelpPage where
  about := "Write a default configuration file"
  usage := "config init [OPTIONS] [PATH]"
  commands := []
  arguments := [("[PATH]", "Where to write it [default: schemac.toml]")]
  options := [configEntry, ("    --force", "Overwrite an existing file"), helpEntry]

/-- The page of the command that asks for a page, at the level with this name. -/
def help (level : String) : HelpPage where
  about := helpCommandEntry.2
  usage := level ++ "help [COMMAND]..."
  commands := []
  arguments := [("[COMMAND]...", "Print help for the subcommand(s)")]
  options := []

end HelpPage
end Tool
end WireSchema
