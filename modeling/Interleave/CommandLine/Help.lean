import Interleave.CommandLine.Command

/-!
# Help texts

The texts that explain the program and its commands, laid out in two columns.
-/

namespace Interleave.CommandLine

/-- The name under which the program is called. -/
def programName : String := "lockstep-trace"

/-- The name and the version of the program. -/
def versionText : String := programName ++ " 0.1.0\n"

/-- Rows of two columns, indented. -/
def columns (rows : List (String × String)) : String :=
  let width := (rows.map (·.1.length)).foldl Nat.max 0
  String.join (rows.map fun (left, right) =>
    "  " ++ Text.padRight width left ++ "  " ++ right ++ "\n")

/-- The name of an option's value. -/
def placeholder (o : OptionSpec) : String :=
  "--" ++ o.name ++ " <" ++ o.name.toUpper ++ ">"

/-- The help on the program. -/
def helpText : String :=
  "Inspect lockstep schedule traces, mintraces and minimization reports\n\nUsage: " ++
    programName ++ " <COMMAND>\n\nCommands:\n" ++
    columns (Topic.all.map (fun t => (t.name, t.about)) ++
      [("help", "Print this message or the help of the given subcommand(s)")]) ++
    "\nOptions:\n" ++ columns [("-h, --help", "Print help"), ("-V, --version", "Print version")]

/-- The help on a command. -/
def topicText (t : Topic) : String :=
  let required := t.options.filter (·.required)
  let optional := if t.options.any (!·.required) then ["[OPTIONS]"] else []
  let usage := [programName, t.name] ++ optional ++ required.map placeholder
  let row (o : OptionSpec) := ("-" ++ String.singleton o.letter ++ ", " ++ placeholder o, o.about)
  t.about ++ "\n\nUsage: " ++ String.intercalate " " usage ++ "\n\nOptions:\n" ++
    columns (t.options.map row ++ [("-h, --help", "Print help")])

/-- The help on the command that gives help. -/
def helpTopicText : String :=
  "Print this message or the help of the given subcommand(s)\n\nUsage: " ++ programName ++
    " help [COMMAND]...\n\nArguments:\n" ++
    columns [("[COMMAND]...", "Print help for the subcommand(s)")]

end Interleave.CommandLine
