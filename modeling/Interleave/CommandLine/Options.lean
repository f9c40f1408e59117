import Interleave.Text.Blank

/-!
# Reading options

A command takes options, each with a value. An option is written with two dashes and its name, or
with one dash and its letter; the value follows as the next argument, behind an equals sign or,
after a letter, at once. Every option is given at most once, and other arguments are refused. Two
dashes alone end the options. A request for help is answered where it stands: what comes before it
must be in order, and what comes after it is not looked at.
-/

namespace Interleave.CommandLine

/-- An option of a command. -/
structure OptionSpec where
  name : String
  letter : Char
  about : String
  required : Bool
  /-- Whether a value is one of the option's. -/
  accepts : String → Bool

/-- The options given so far, by name. -/
abbrev Given := List (String × String)

/-- What the arguments of a command ask for. -/
inductive Asked where
  | help
  | values (given : Given)

/-- The given options with one more, unless its value is none of the option's or it is given
already. -/
def give (given : Given) (o : OptionSpec) (value : List Char) : Option Given :=
  let value := String.ofList value
  if o.accepts value && (List.lookup o.name given).isNone then some ((o.name, value) :: given)
  else none

/-- Whether an argument can be the value of the option before it. One that starts with a dash is an
option itself, unless it is nothing but the dash. -/
def isPlain : List Char → Bool
  | ['-'] => true
  | '-' :: _ => false
  | _ => true

/-- How an argument names an option: the options that it may stand for, and its own value if it has
one. -/
inductive Named where
  | help
  | option (o : OptionSpec) (value : Option (List Char))

/-- What an argument with two dashes names, given without them. -/
def nameLong (specs : List OptionSpec) (text : List Char) : Option Named :=
  let (name, value) := match Text.splitFirst? '=' text with
    | some (name, value) => (name, some value)
    | none => (text, none)
  if name = "help".toList then (if value.isNone then some .help else none)
  else (specs.find? fun o => o.name.toList = name).map fun o => .option o value

/-- What an argument with one dash names, given without it. -/
def nameShort (specs : List OptionSpec) : List Char → Option Named
  | [] => none
  | letter :: rest =>
    if letter = 'h' then some .help
    else
      let value := match rest with
        | [] => none
        | '=' :: value => some value
        | value => some value
      (specs.find? fun o => o.letter = letter).map fun o => .option o value

/-- What an argument names, if it names anything. -/
def nameOption (specs : List OptionSpec) : List Char → Option Named
  | '-' :: '-' :: text => nameLong specs text
  | '-' :: text => nameShort specs text
  | _ => none

/-- Read the arguments of a command, some options of which are given already. -/
def readOptions (specs : List OptionSpec) (given : Given) : List String → Option Asked
  | [] => some (.values given)
  | [argument] =>
    if argument = "--" then some (.values given)
    else match nameOption specs argument.toList with
      | some .help => some .help
      | some (.option o (some value)) => (give given o value).map .values
      | _ => none
  | argument :: next :: rest =>
    match nameOption specs argument.toList with
    | some .help => some .help
    | some (.option o (some value)) => do readOptions specs (← give given o value) (next :: rest)
    | some (.option o none) =>
      if isPlain next.toList then do readOptions specs (← give given o next.toList) rest else none
    | none => none

/-- Read the arguments of a command. The options that are required must be given. -/
def readArguments (specs : List OptionSpec) (arguments : List String) : Option Asked :=
  match readOptions specs [] arguments with
  | some (.values given) =>
    if specs.all fun o => !o.required || (List.lookup o.name given).isSome then some (.values given)
    else none
  | asked => asked

end Interleave.CommandLine
