/-
# CommandShell.Builtin -- the commands every shell has

Sixteen commands: five about the file system, three about variables, three about options, and the
rest. A builtin first checks how many arguments it got, then what they are, and only then acts. The
exception is `unset`, which goes through its arguments one by one.
-/
import CommandShell.Evaluation.Run
import CommandShell.Files.Status

namespace CommandShell

/-- The builtin commands. -/
inductive Builtin where
  | cd | clear | echo | env | eval | exit | export | help | ls | peekOption | popOption | pushOption
  | pwd | set | stat | unset
  deriving DecidableEq, Repr

namespace Builtin

/-- All builtins, in the order of their names. -/
def all : List Builtin :=
  [.cd, .clear, .echo, .env, .eval, .exit, .export, .help, .ls, .peekOption, .popOption,
    .pushOption, .pwd, .set, .stat, .unset]

/-- The name under which a builtin is registered. -/
def name : Builtin → String
  | .cd => "cd"
  | .clear => "clear"
  | .echo => "echo"
  | .env => "env"
  | .eval => "eval"
  | .exit => "exit"
  | .export => "export"
  | .help => "help"
  | .ls => "ls"
  | .peekOption => "peekopt"
  | .popOption => "popopt"
  | .pushOption => "pushopt"
  | .pwd => "pwd"
  | .set => "set"
  | .stat => "stat"
  | .unset => "unset"

/-- One line about a builtin. -/
def description : Builtin → String
  | .cd => "Change directory"
  | .clear => "Clear screen"
  | .echo => "Echo arguments to output"
  | .env => "Show environment"
  | .eval => "Evaluate arguments as a program"
  | .exit => "Exit shell"
  | .export => "Export variable, optionally setting its value"
  | .help => "Show commands"
  | .ls => "List contents of a directory"
  | .peekOption => "Show an option's current value"
  | .popOption => "Pop an option's current value"
  | .pushOption => "Push a value onto an option's stack"
  | .pwd => "Display the current working directory"
  | .set => "Set variable; -x exports it"
  | .stat => "Display file status"
  | .unset => "Remove variables"

variable {κ : Type}

/-! ## Arguments -/

/-- Complains about arguments. -/
def complain {α : Type} (b : Builtin) (complaint : Complaint) : Action κ α :=
  Action.fail (.badArguments b.name complaint)

/-- The argument in the given role, which must be a string. -/
def string (b : Builtin) (role : Role) (v : Value) : Action κ String :=
  match v with
  | .string s => pure s
  | other => b.complain (.notString role other.kind)

/-- Fails because the number of arguments lies outside the range. -/
def wrongCount {α : Type} (b : Builtin) (least most : Nat) (values : List Value) : Action κ α :=
  b.complain (.count least most values.length)

/-- Whether a flag of the given name is among the flags. -/
def hasFlag (flags : List Flag) (name : String) : Bool := flags.any (fun f => f.name == name)

/-- Fails because a path cannot be used. -/
def onPath {α : Type} (path : RawText) : Except Files.Failure α → Action κ α
  | .ok a => pure a
  | .error failure => Action.fail (.badPath path failure)

/-! ## File system -/

/-- Changes the working directory, if a path is given, and returns it as it is shown. -/
def changeDirectory (files : Files.Tree) : List Value → Action κ Value
  | [] => do
    let c ← Action.context
    pure (.string c.workingDirectory.shown)
  | [target] => do
    let path ← string .cd .path target
    Action.tryUpdate (·.moveTo files path)
    let c ← Action.context
    Action.note (.moved c.workingDirectory)
    pure (.string c.workingDirectory.shown)
  | values => wrongCount .cd 0 1 values

/-- Lists the names in a directory, as they are shown and in this order. -/
def listDirectory (files : Files.Tree) (values : List Value) : Action κ Value :=
  match values with
  | [] => do
    let c ← Action.context
    listAt c.workingDirectory
  | [directory] => do
    let path ← string .ls .path directory
    let c ← Action.context
    listAt (c.absolutePath path)
  | values => wrongCount .ls 0 1 values
where
  /-- Lists the names in the directory at an absolute path. -/
  listAt (path : RawText) : Action κ Value := do
    let names ← onPath path (files.list path)
    pure (.ofStrings ((names.map RawText.shown).mergeSort (fun a b => a ≤ b)))

/-- Returns the working directory as it is shown. -/
def workingDirectory : List Value → Action κ Value
  | [] => do
    let c ← Action.context
    pure (.string c.workingDirectory.shown)
  | values => wrongCount .pwd 0 0 values

/-- Tells about a file, line by line. -/
def fileStatus (files : Files.Tree) : List Value → Action κ Value
  | [target] => do
    let path ← string .stat .path target
    let c ← Action.context
    let status ← onPath (c.absolutePath path) (files.status (c.absolutePath path))
    pure (.ofStrings (status.lines files.ahead))
  | values => wrongCount .stat 1 1 values

/-! ## Variables -/

/-- One line about a variable. -/
def variableLine (name : String) (v : Variable) : String :=
  (if v.exported then "(exported) " else "") ++ name ++ "=" ++ v.value.text

/-- Shows the variables in the order of their names. -/
def showVariables : Action κ Value := do
  let c ← Action.context
  pure (.ofStrings (c.bindings.entries.map (fun e => variableLine e.1 e.2)))

/-- Sets a variable; the flag `x` exports it. -/
def setVariable (flags : List Flag) : List Value → Action κ Value
  | [target, value] => do
    let name ← string .set .variableName target
    Action.update (·.setVariable name value (hasFlag flags "x"))
    pure .unit
  | values => wrongCount .set 2 2 values

/-- Exports a variable, and sets it if a value is given. -/
def exportVariable : List Value → Action κ Value
  | [target] => do
    let name ← string .export .variableName target
    Action.tryUpdate (fun c =>
      match c.exportVariable? name with
      | some next => .ok next
      | none => .error (.unsetVariable name))
    pure .unit
  | [target, value] => do
    let name ← string .export .variableName target
    Action.update (·.setVariable name value true)
    pure .unit
  | values => wrongCount .export 1 2 values

/-- Removes variables one by one; one that is not set is no failure. -/
def unsetVariables : List Value → Action κ Value
  | [] => pure .unit
  | target :: rest => do
    let name ← string .unset .variableName target
    Action.update (·.unsetVariable name)
    unsetVariables rest

/-! ## Options -/

/-- Gives an option a new current value. -/
def pushValue : List Value → Action κ Value
  | [target, value] => do
    let name ← string .pushOption .optionName target
    Action.tryUpdate (·.pushOption name value)
    pure .unit
  | values => wrongCount .pushOption 2 2 values

/-- Returns the current value of an option. -/
def peekValue : List Value → Action κ Value
  | [target] => do
    let name ← string .peekOption .optionName target
    let c ← Action.context
    Action.ofExcept (c.options.peek name)
  | values => wrongCount .peekOption 1 1 values

/-- Takes the current value off an option, and returns it. -/
def popValue : List Value → Action κ Value
  | [target] => do
    let name ← string .popOption .optionName target
    fun c =>
      match c.popOption name with
      | .ok (value, next) => (.ok value, next)
      | .error e => (.error e, c)
  | values => wrongCount .popOption 1 1 values

/-! ## The shell itself -/

/-- Returns what clears a terminal. -/
def clearScreen : List Value → Action κ Value
  | [] => pure (.string "\x1Bc")
  | values => wrongCount .clear 0 0 values

/-- Shows the registered commands in the order of their names. -/
def showCommands (describe : κ → String) : Action κ Value := do
  let c ← Action.context
  pure (.ofStrings (c.commands.entries.map (fun e => e.1 ++ "\t" ++ describe e.2)))

/-- The 32-bit code of an integer, if it fits. -/
def exitCode? (code : Int64) : Option Int32 :=
  if Int32.minValue.toInt ≤ code.toInt ∧ code.toInt ≤ Int32.maxValue.toInt then
    some (Int32.ofInt code.toInt)
  else none

/-- Asks to leave the shell; the code is zero if none is given. -/
def requestExit : List Value → Action κ (Flow Value)
  | [] => pure (.exit 0)
  | [.integer code] =>
    match exitCode? code with
    | some c => pure (.exit c)
    | none => complain .exit (.codeOutOfRange code)
  | [other] => complain .exit (.codeNotInteger other.kind)
  | values => wrongCount .exit 0 1 values

/-- The values of outcomes up to the first that has none, which decides. -/
def gather : List Outcome → Except Error (Flow (List Value))
  | [] => .ok (.value [])
  | .value v :: rest => do
    match ← gather rest with
    | .value vs => return .value (v :: vs)
    | .exit code => return .exit code
  | .failed e :: _ => .error e
  | .exited code :: _ => .ok (.exit code)

/-- Runs the joined texts of the arguments as a program; its values make a list. -/
def evaluateText (reenter : Reentry κ) (values : List Value) : Action κ (Flow Value) := do
  let outcomes ← reenter (Value.joined values)
  match ← Action.ofExcept (gather outcomes) with
  | .value vs => pure (.value (.list vs))
  | .exit code => pure (.exit code)

/-! ## All together -/

/-- Runs a builtin. -/
def invoke (files : Files.Tree) (describe : κ → String) (reenter : Reentry κ) (b : Builtin)
    (values : List Value) (flags : List Flag) : Action κ (Flow Value) :=
  match b with
  | .eval => evaluateText reenter values
  | .exit => requestExit values
  | .cd => Flow.value <$> changeDirectory files values
  | .clear => Flow.value <$> clearScreen values
  | .echo => pure (.value (.string (Value.joined values)))
  | .env => Flow.value <$> showVariables
  | .export => Flow.value <$> exportVariable values
  | .help => Flow.value <$> showCommands describe
  | .ls => Flow.value <$> listDirectory files values
  | .peekOption => Flow.value <$> peekValue values
  | .popOption => Flow.value <$> popValue values
  | .pushOption => Flow.value <$> pushValue values
  | .pwd => Flow.value <$> workingDirectory values
  | .set => Flow.value <$> setVariable flags values
  | .stat => Flow.value <$> fileStatus files values
  | .unset => Flow.value <$> unsetVariables values

/-- The builtin of the given name. -/
def ofName? (name : String) : Option Builtin := all.find? (fun b => b.name == name)

/-- The builtins as a set of commands. -/
def commandSet (files : Files.Tree) : CommandSet Builtin :=
  ⟨description, invoke files description⟩

/-- The builtins under their names. -/
def registry : List (String × Builtin) := all.map (fun b => (b.name, b))

end Builtin

end CommandShell
