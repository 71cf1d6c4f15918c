import WireSchema.Tool.Help

/-!
# The arguments of the tool

A command line is a command, its arguments and its options.  Options may stand
before or behind the arguments, a long option takes its value behind an equals
sign or as the next word, a short one may have its value attached.  Behind a pair
of dashes every word is an argument.

The option that names a configuration file may be given at each level, before the
command and behind it, once at each; the innermost one counts.

Words are taken one after the other, and the first that settles the matter does so:
one that asks for help ends with a page, whatever is wrong further on, and one that
cannot be taken ends with nothing.
-/

namespace WireSchema
namespace Tool

/-- What the tool is asked to do. -/
inductive Command where
  /-- Compile schema files and report every error. -/
  | check (paths : List String)
  /-- Print the compiled types of a file, or one of them. -/
  | show (file : String) (typeName : Option String)
  /-- Write the graph of a file, to standard output or to a file. -/
  | graph (file : String) (output : Option String)
  /-- Print the configuration in effect. -/
  | configShow
  /-- Write a standard configuration file. -/
  | configInit (path : String) (force : Bool)
  deriving DecidableEq

/-- A command line. -/
structure Invocation where
  config : Option String
  command : Command
  deriving DecidableEq

/-- What an option takes. -/
inductive OptionValue where
  | nothing
  | text
  /-- The path of a file, which is not empty. -/
  | path
  deriving DecidableEq

/-- An option: its long name, its short one, and what it takes. -/
structure Flag where
  long : String
  short : Option Char
  takes : OptionValue

/-- What a command line asks for. -/
inductive Request where
  | run (invocation : Invocation)
  | help (page : HelpPage)
  deriving DecidableEq

/-- The words of one level of a command line, taken apart: options with their
values, arguments, and the words behind the name of a command. -/
structure Words where
  options : List (String × String)
  arguments : List String
  rest : List String

namespace Words

/-- No words. -/
def none : Words := ⟨[], [], []⟩

/-- One more option, unless it is given already. -/
def withOption (w : Words) (name value : String) : Option Words :=
  if w.options.any fun o => o.1 = name then .none
  else some { w with options := (name, value) :: w.options }

/-- One more argument. -/
def withArgument (w : Words) (argument : String) : Words :=
  { w with arguments := w.arguments ++ [argument] }

/-- The value of an option. -/
def value? (w : Words) (name : String) : Option String :=
  w.options.lookup name

end Words

/-- What may stand at a level of a command line. -/
structure Level where
  page : HelpPage
  flags : List Flag
  /-- How many arguments there may be; any number if nothing is said. -/
  room : Option Nat
  /-- Whether the first argument is the name of a command, behind which another
  level begins. -/
  branches : Bool

/-- Why words are not taken any further. -/
inductive Stop where
  | refused
  /-- A page of help was asked for. -/
  | help (page : HelpPage)
  deriving DecidableEq

/-- Whether a word can be the value of an option: it looks like no option
itself. -/
def canBeValue (word : String) : Bool :=
  word = "-" || !word.startsWith "-"

/-- A word that gives an option: its name, its short name or the name behind two
dashes, and the value attached to it. -/
def optionWord? (flags : List Flag) (word : String) : Option (Flag × Option String) :=
  match word.toList with
  | '-' :: '-' :: rest =>
    let name := rest.takeWhile (· ≠ '=')
    let attached :=
      match rest.dropWhile (· ≠ '=') with
      | _ :: value => some (String.ofList value)
      | [] => none
    (flags.find? fun f => f.long = String.ofList name).map (·, attached)
  | '-' :: c :: rest =>
    let attached :=
      match rest with
      | [] => none
      | '=' :: value => some (String.ofList value)
      | value => some (String.ofList value)
    (flags.find? fun f => f.short = some c).map (·, attached)
  | _ => none

/-- Whether a word asks for help.  Behind the short option nothing counts any
more. -/
def asksForHelp (word : String) : Bool :=
  word = "--help" || word.startsWith "-h"

/-- One more option with its value. -/
def Words.taking (w : Words) (flag : Flag) (value : String) : Except Stop Words :=
  if flag.takes = .path ∧ value = "" then .error .refused
  else
    match w.withOption flag.long value with
    | some w => .ok w
    | .none => .error .refused

/-- One more argument, if there is room for it. -/
def Words.takingArgument (w : Words) (level : Level) (argument : String) : Except Stop Words :=
  if argument = "" ∨ level.room.any (· ≤ w.arguments.length) then .error .refused
  else .ok (w.withArgument argument)

/-- The words of a level behind those taken apart already. -/
def takeApart (level : Level) (w : Words) : List String → Except Stop Words
  | [] => .ok w
  | word :: rest =>
    if word = "--" then
      if level.branches then .error .refused
      else rest.foldlM (fun w argument => w.takingArgument level argument) w
    else if canBeValue word then
      if level.branches then .ok { w with arguments := [word], rest }
      else do takeApart level (← w.takingArgument level word) rest
    else if asksForHelp word then .error (.help level.page)
    else
      match optionWord? level.flags word with
      | none => .error .refused
      | some (flag, attached) =>
        if flag.takes = .nothing then
          if attached.isSome then .error .refused
          else do takeApart level (← w.taking flag "") rest
        else
          match attached, rest with
          | some value, rest => do takeApart level (← w.taking flag value) rest
          | none, value :: rest =>
            if canBeValue value then do takeApart level (← w.taking flag value) rest
            else .error .refused
          | none, [] => .error .refused

/-! ## The levels -/

/-- The option that names a configuration file. -/
def configFlag : Flag := ⟨"config", some 'c', .path⟩

/-- The level of the tool itself. -/
def toolLevel : Level := ⟨.tool, [configFlag], none, true⟩

/-- The level of the command that checks files. -/
def checkLevel : Level := ⟨.check, [configFlag], none, false⟩

/-- The level of the command that prints types. -/
def showLevel : Level := ⟨.show, [configFlag, ⟨"type", some 't', .text⟩], some 1, false⟩

/-- The level of the command that writes graphs. -/
def graphLevel : Level := ⟨.graph, [configFlag, ⟨"output", some 'o', .path⟩], some 1, false⟩

/-- The level of the command about the configuration. -/
def configLevel : Level := ⟨.config, [configFlag], none, true⟩

/-- The level of the command that prints the configuration. -/
def configShowLevel : Level := ⟨.configShow, [configFlag], some 0, false⟩

/-- The level of the command that writes a configuration file. -/
def configInitLevel : Level :=
  ⟨.configInit, [configFlag, ⟨"force", none, .nothing⟩], some 1, false⟩

/-- The page of a command of the configuration, by its name. -/
def configPage : List String → Except Stop HelpPage
  | [] => .ok .config
  | ["show"] => .ok .configShow
  | ["init"] => .ok .configInit
  | ["help"] => .ok (.help "config ")
  | _ => .error .refused

/-- The page of a command, by its name and the name of the command in it. -/
def page : List String → Except Stop HelpPage
  | [] => .ok .tool
  | ["check"] => .ok .check
  | ["show"] => .ok .show
  | ["graph"] => .ok .graph
  | ["help"] => .ok (.help "")
  | "config" :: names => configPage names
  | _ => .error .refused

/-- The configuration file: the one of the inner level, if it names one. -/
def innerConfig (outer : Option String) (w : Words) : Option String :=
  (w.value? "config").orElse fun _ => outer

/-- The command of the configuration behind its name. -/
def parseConfigCommand (outer : Option String) : String → List String → Except Stop Invocation
  | "show", words => do
    let w ← takeApart configShowLevel .none words
    return ⟨innerConfig outer w, .configShow⟩
  | "init", words => do
    let w ← takeApart configInitLevel .none words
    return ⟨innerConfig outer w,
      .configInit (w.arguments.headD "schemac.toml") (w.value? "force").isSome⟩
  | "help", words => do throw (.help (← configPage words))
  | _, _ => .error .refused

/-- The command behind its name. -/
def parseCommand (outer : Option String) : String → List String → Except Stop Invocation
  | "check", words => do
    let w ← takeApart checkLevel .none words
    if w.arguments.isEmpty then throw .refused
    else return ⟨innerConfig outer w, .check w.arguments⟩
  | "show", words => do
    let w ← takeApart showLevel .none words
    match w.arguments with
    | [file] => return ⟨innerConfig outer w, .show file (w.value? "type")⟩
    | _ => throw .refused
  | "graph", words => do
    let w ← takeApart graphLevel .none words
    match w.arguments with
    | [file] => return ⟨innerConfig outer w, .graph file (w.value? "output")⟩
    | _ => throw .refused
  | "config", words => do
    let w ← takeApart configLevel .none words
    match w.arguments with
    | [name] => parseConfigCommand (innerConfig outer w) name w.rest
    | _ => throw .refused
  | "help", words => do throw (.help (← page words))
  | _, _ => .error .refused

/-- What a command line asks for; `none` if it asks for nothing that the tool
knows. -/
def parseArguments (words : List String) : Option Request :=
  let parsed : Except Stop Invocation := do
    let w ← takeApart toolLevel .none words
    match w.arguments with
    | [name] => parseCommand (w.value? "config") name w.rest
    | _ => throw .refused
  match parsed with
  | .ok invocation => some (.run invocation)
  | .error (.help page) => some (.help page)
  | .error .refused => none

end Tool
end WireSchema
