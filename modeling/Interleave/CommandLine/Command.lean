import Interleave.CommandLine.Options
import Interleave.Text.Numeral

/-!
# Commands

The commands with which saved runs and reports are inspected, and how the arguments of the program
ask for one of them, for help or for the version.
-/

namespace Interleave.CommandLine

/-- How an event tree is printed. -/
inductive TreeFormat where
  | text
  | json
  deriving DecidableEq

/-- How a minimization report is printed. -/
inductive ReportFormat where
  | text
  | markdown
  deriving DecidableEq

/-- A command. Each reads the file at one path. -/
inductive Command where
  | info (path : String)
  | tree (path : String) (format : TreeFormat)
  | schedule (path : String) (limit : Option Nat)
  | validate (path : String)
  | report (path : String) (format : ReportFormat)
  deriving DecidableEq

/-- The path of the file that a command reads. -/
def Command.path : Command → String
  | .info path => path
  | .tree path _ => path
  | .schedule path _ => path
  | .validate path => path
  | .report path _ => path

/-- The names of commands. -/
inductive Topic where
  | info
  | tree
  | schedule
  | validate
  | report
  deriving DecidableEq

namespace Topic

/-- All commands, in the order in which help lists them. -/
def all : List Topic :=
  [.info, .tree, .schedule, .validate, .report]

/-- The name of a command. -/
def name : Topic → String
  | .info => "info"
  | .tree => "tree"
  | .schedule => "schedule"
  | .validate => "validate"
  | .report => "report"

/-- What a command does. -/
def about : Topic → String
  | .info => "Show trace header and size"
  | .tree => "Print the event tree of a mintrace"
  | .schedule => "List the decisions of a schedule trace"
  | .validate => "Check that a trace parses and, for a mintrace, that its tree is well formed"
  | .report => "Render a saved minimization report"

/-- The command of the given name. -/
def ofName? (s : String) : Option Topic :=
  all.find? fun t => t.name = s

end Topic

/-- An option that takes a path. -/
def pathOption (name : String) (letter : Char) (about : String) : OptionSpec :=
  ⟨name, letter, about, true, fun value => !value.isEmpty⟩

/-- The option for a format, which is the first one unless given. -/
def formatOption (formats : List String) : OptionSpec :=
  ⟨"format", 'f',
    "Output format [default: text] [possible values: " ++ String.intercalate ", " formats ++ "]",
    false, formats.contains⟩

/-- The number that a text denotes as a limit. -/
def readLimit? (value : String) : Option Nat :=
  Text.unsigned? UInt64.size value.toList

/-- The option for the number of decisions to show. -/
def limitOption : OptionSpec :=
  ⟨"limit", 'l', "Maximum number of decisions to show", false,
    fun value => (readLimit? value).isSome⟩

/-- The options of a command. -/
def Topic.options : Topic → List OptionSpec
  | .info => [pathOption "trace" 't' "Path to trace file"]
  | .tree => [pathOption "trace" 't' "Path to mintrace file", formatOption ["text", "json"]]
  | .schedule => [pathOption "trace" 't' "Path to schedule trace file", limitOption]
  | .validate => [pathOption "trace" 't' "Path to trace file"]
  | .report => [pathOption "report" 'r' "Path to JSON report", formatOption ["text", "markdown"]]

/-- The command with the given options. -/
def Topic.command (t : Topic) (given : Given) : Command :=
  let value (name : String) : String := (List.lookup name given).getD ""
  match t with
  | .info => .info (value "trace")
  | .tree => .tree (value "trace") (if value "format" = "json" then .json else .text)
  | .schedule => .schedule (value "trace") ((List.lookup "limit" given).bind readLimit?)
  | .validate => .validate (value "trace")
  | .report => .report (value "report") (if value "format" = "markdown" then .markdown else .text)

/-- What the arguments of the program ask for. -/
inductive Request where
  | run (command : Command)
  | help
  | helpOn (topic : Topic)
  /-- Help on the command that gives help. -/
  | helpOnHelp
  | version
  deriving DecidableEq

/-- What a first argument with a dash asks for. -/
def readFlag : List Char → Option Request
  | '-' :: '-' :: name =>
    if name = "help".toList then some .help
    else if name = "version".toList then some .version
    else none
  | '-' :: 'h' :: _ => some .help
  | '-' :: 'V' :: _ => some .version
  | _ => none

/-- What the arguments behind the command for help ask for. -/
def readTopics : List String → Option Request
  | [] => some .help
  | [name] => if name = "help" then some .helpOnHelp else (Topic.ofName? name).map .helpOn
  | _ => none

/-- What the arguments of the program ask for, or nothing if they are not in order. -/
def readRequest : List String → Option Request
  | [] => none
  | first :: rest =>
    if first = "help" then readTopics rest
    else match Topic.ofName? first with
      | some topic =>
        match readArguments topic.options rest with
        | some (.values given) => some (.run (topic.command given))
        | some .help => some (.helpOn topic)
        | none => none
      | none => readFlag first.toList

end Interleave.CommandLine
