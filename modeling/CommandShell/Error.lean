/-
# CommandShell.Error -- why a statement fails

An error is a cause; its wording is made in `Error.message` alone, and `Error.report` is the line
that a session shows.
-/
import CommandShell.Files.Failure
import CommandShell.Program.ReadError
import CommandShell.Text.Raw
import CommandShell.Value

namespace CommandShell

/-- What an argument is meant to be. -/
inductive Role where
  | path | variableName | optionName
  deriving DecidableEq, Repr

/-- The phrase for a role. -/
def Role.name : Role → String
  | .path => "path"
  | .variableName => "variable name"
  | .optionName => "option name"

/-- What a command finds wrong with its arguments. -/
inductive Complaint where
  /-- The number of arguments lies outside the range. -/
  | count (least most given : Nat)
  /-- An argument in the given role is no string. -/
  | notString (role : Role) (given : Kind)
  /-- The exit code is no integer. -/
  | codeNotInteger (given : Kind)
  /-- The exit code does not fit 32 bits. -/
  | codeOutOfRange (code : Int64)
  /-- A remark of the command's own. -/
  | remark (message : String)
  deriving DecidableEq, Repr

/-- A range of counts. -/
def countText (least most : Nat) : String :=
  if least = most then toString least else toString least ++ " to " ++ toString most

/-- The wording of a complaint. -/
def Complaint.message : Complaint → String
  | .count least most given =>
    "expected " ++ countText least most ++ " argument(s), got " ++ toString given
  | .notString role given => role.name ++ " must be a string, got " ++ given.name
  | .codeNotInteger given => "exit code must be an integer, got " ++ given.name
  | .codeOutOfRange code => "exit code out of range: " ++ toString code.toInt
  | .remark message => message

/-- The causes for which evaluation fails. -/
inductive Error where
  /-- A text is no program. -/
  | unreadable (e : ReadError)
  /-- No command of that name is registered. -/
  | unknownCommand (name : String)
  /-- A command refuses its arguments. -/
  | badArguments (command : String) (complaint : Complaint)
  /-- A variable that is read is not set. -/
  | unsetVariable (name : String)
  /-- An option was never declared. -/
  | undeclaredOption (name : String)
  /-- The default of an option cannot be popped. -/
  | optionAtDefault (name : String)
  /-- A flag stands outside of a command. -/
  | strayFlag (f : Flag)
  /-- Evaluation nests as deeply as it may. -/
  | depthExceeded (limit : Nat)
  /-- A path cannot be used. -/
  | badPath (path : RawText) (failure : Files.Failure)
  deriving DecidableEq, Repr

/-- The classes of errors that are shown. -/
inductive Category where
  | reading | unknownCommand | argument | lookup | option | evaluation | files
  deriving DecidableEq, Repr

/-- The name of a class of errors. -/
def Category.name : Category → String
  | .reading => "SyntaxError"
  | .unknownCommand => "UnknownCommand"
  | .argument => "ArgumentError"
  | .lookup => "LookupError"
  | .option => "OptionError"
  | .evaluation => "EvaluationError"
  | .files => "IoError"

namespace Error

/-- The class of an error. -/
def category : Error → Category
  | .unreadable _ => .reading
  | .unknownCommand _ => .unknownCommand
  | .badArguments _ _ => .argument
  | .unsetVariable _ => .lookup
  | .undeclaredOption _ | .optionAtDefault _ => .option
  | .strayFlag _ | .depthExceeded _ => .evaluation
  | .badPath _ _ => .files

/-- The wording of an error. -/
def message : Error → String
  | .unreadable e => e.message
  | .unknownCommand name => "command not found: " ++ name
  | .badArguments command complaint => command ++ ": " ++ complaint.message
  | .unsetVariable name => "variable not set: " ++ name
  | .undeclaredOption name => "unknown option: " ++ name
  | .optionAtDefault name => "cannot pop default value of option: " ++ name
  | .strayFlag f => "flag used outside of a command: " ++ f.display
  | .depthExceeded limit => "maximum evaluation depth exceeded (" ++ toString limit ++ ")"
  | .badPath path failure => path.shown ++ ": " ++ failure.message

/-- The line that shows an error. -/
def report (e : Error) : String :=
  match e.category with
  | .reading => "SYNTAX ERROR: " ++ e.message
  | category => "ERROR: (" ++ category.name ++ ") " ++ e.message

end Error

end CommandShell
