import Interleave.Program.Action

/-!
# Scripts

A small imperative language for the bodies of operations: variables, arithmetic on 64-bit words,
branches and loops, and a statement for every action. A body that runs a script is a stack of
frames, the statements and loops still to be finished, and the values of its variables;
`Script.program` makes a program of a script, in which every statement takes one step.
-/

namespace Interleave

/-- An expression. -/
inductive Expression where
  | literal (value : Value)
  | variable (name : String)
  | add (a b : Expression)
  | equal (a b : Expression)
  | less (a b : Expression)
  | negate (a : Expression)
  deriving Inhabited

/-- A statement. A variable that takes the answer to an action stands in `into`. -/
inductive Statement where
  | create (name : String) (body : List Statement) (into : Option String)
  | send (target : Expression) (name : String) (value : Expression)
  | receive (into : String)
  | boolean (fairness : Option String) (into : String)
  | integer (max : UInt32) (into : String)
  | assert (condition : Expression) (message : String)
  | report (message : String)
  | monitor (name : String) (hot : Bool)
  | set (into : String) (value : Expression)
  | log (value : Expression)
  | branch (condition : Expression) (yes no : List Statement)
  /-- Repeat the body, the given number of times or without end. -/
  | repeat (body : List Statement) (times : Option Nat)
  /-- Leave the innermost loop, or the body if there is none. -/
  | leave
  /-- End the body. -/
  | exit

/-- A script: the statements of a body. -/
abbrev Script := List Statement

namespace Value

/-- The word that a value counts as in arithmetic: 0 unless it is a number. -/
def toWord : Value → UInt64
  | .number n => n
  | _ => 0

/-- The Boolean that a value counts as in a condition: `false` unless it is a flag. -/
def toFlag : Value → Bool
  | .flag b => b
  | _ => false

end Value

namespace Script

/-- The values of variables. One that has no entry has the value 0. -/
abbrev Variables := List (String × Value)

/-- The value of a variable. -/
def Variables.value (vs : Variables) (name : String) : Value :=
  (List.lookup name vs).getD (.number 0)

/-- The variables after an assignment. -/
def Variables.assign (vs : Variables) (name : String) (value : Value) : Variables :=
  (name, value) :: vs.filter fun entry => entry.1 ≠ name

/-- The variables after a message has been taken into four of them. -/
def Variables.assignMessage (vs : Variables) (name : String) (m : Message) : Variables :=
  (((vs.assign (name ++ ".name") (.text m.name)).assign (name ++ ".value") (.number m.value)).assign
    (name ++ ".sender") (.number m.sender.value)).assign (name ++ ".id") (.number m.id.value)

end Script

/-- The value of an expression. -/
def Expression.evaluate (vs : Script.Variables) : Expression → Value
  | .literal v => v
  | .variable name => vs.value name
  | .add a b => .number ((a.evaluate vs).toWord + (b.evaluate vs).toWord)
  | .equal a b => .flag (a.evaluate vs == b.evaluate vs)
  | .less a b => .flag (decide ((a.evaluate vs).toWord < (b.evaluate vs).toWord))
  | .negate a => .flag (!(a.evaluate vs).toFlag)

namespace Script

/-- One unfinished part of a body: statements in a row, or a loop with the repetitions left. -/
inductive Frame where
  | block (statements : Script)
  | loop (body : Script) (left : Option Nat)

/-- The body of an operation that runs a script. The innermost frame is first. -/
structure Body where
  values : Variables
  frames : List Frame

namespace Body

/-- The body at the start of a script. -/
def ofScript (script : Script) (values : Variables) : Body :=
  ⟨values, [.block script]⟩

/-- The body after an assignment. -/
def assign (b : Body) (name : String) (value : Value) : Body :=
  { b with values := b.values.assign name value }

/-- The body with one more frame inside. -/
def enter (b : Body) (frame : Frame) : Body :=
  { b with frames := frame :: b.frames }

/-- The frames around the innermost loop. -/
def leaveLoop : List Frame → List Frame
  | [] => []
  | .block _ :: rest => leaveLoop rest
  | .loop _ _ :: rest => rest

/-- What a statement does. The given body goes on behind the statement. -/
def perform (self : OperationId) (b : Body) : Statement → Action Body
  | .create name script into =>
    let child := ofScript script (b.values.assign "parent" (.number self.value))
    .create name child fun id => match into with
      | some x => b.assign x (.number id.value)
      | none => b
  | .send target name value =>
    .send ⟨(target.evaluate b.values).toWord⟩ name (value.evaluate b.values).toWord b
  | .receive into => .receive fun m => { b with values := b.values.assignMessage into m }
  | .boolean fairness into => .boolean fairness fun value => b.assign into (.flag value)
  | .integer max into => .integer max fun value => b.assign into (.number value.toUInt64)
  | .assert condition message =>
    if (condition.evaluate b.values).toFlag then .quiet b else .fail message
  | .report message => .report message b
  | .monitor name hot => .monitor name hot b
  | .set into value => .quiet (b.assign into (value.evaluate b.values))
  | .log value => .log (value.evaluate b.values) b
  | .branch condition yes no =>
    .quiet (b.enter (.block (if (condition.evaluate b.values).toFlag then yes else no)))
  | .repeat body times => .quiet (b.enter (.loop body times))
  | .leave => .quiet { b with frames := leaveLoop b.frames }
  | .exit => .finish

/-- What a body does next. -/
def act (self : OperationId) (b : Body) : Action Body :=
  match b.frames with
  | [] => .finish
  | .block [] :: rest => .quiet { b with frames := rest }
  | .block (statement :: statements) :: rest =>
    { b with frames := .block statements :: rest }.perform self statement
  | .loop _ (some 0) :: rest => .quiet { b with frames := rest }
  | .loop body left :: rest =>
    .quiet { b with frames := .block body :: .loop body (left.map (· - 1)) :: rest }

end Body

/-- The program whose harness runs the given script, without variables. -/
def program (script : Script) : Program Body where
  act := Body.act
  main := .ofScript script []

end Script

end Interleave
