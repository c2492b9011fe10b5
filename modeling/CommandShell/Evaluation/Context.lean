/-
# CommandShell.Evaluation.Context -- the state of a shell

A context holds what statements read and change: variables, registered commands, options and the
working directory; how deep evaluation is and by which settings it goes; and what is still to be
reported. Commands are kept by codes of a type `κ`, whose meaning is given elsewhere.
-/
import CommandShell.Evaluation.Event
import CommandShell.Files.Walk
import CommandShell.OptionTable

namespace CommandShell

/-- The settings of evaluation. -/
structure Interpreter where
  /-- How texts are read. -/
  reader : Reader := {}
  /-- Whether a variable that is not set reads as the empty string. -/
  lenient : Bool := false
  /-- How many levels of commands and nested programs there may be. -/
  maxDepth : Nat := 200
  deriving DecidableEq, Repr

/-- A variable. -/
structure Variable where
  value : Value
  exported : Bool
  deriving Repr

/-- The state of a shell. -/
structure Context (κ : Type) where
  bindings : NameMap Variable
  commands : NameMap κ
  options : OptionTable
  workingDirectory : RawText
  depth : Nat
  interpreter : Interpreter
  /-- Errors contained inside statements and not yet reported, oldest first. -/
  diagnostics : List Error
  /-- What happened and is not yet shown, newest first. -/
  journal : List Event

namespace Context

variable {κ : Type}

/-- A context without variables and commands. -/
def new (interpreter : Interpreter) (workingDirectory : RawText) : Context κ :=
  { bindings := .empty
    commands := .empty
    options := .standard
    workingDirectory := workingDirectory
    depth := 0
    interpreter := interpreter
    diagnostics := []
    journal := [] }

/-! ## Reports -/

/-- Adds to the journal. -/
def note (c : Context κ) (e : Event) : Context κ := { c with journal := e :: c.journal }

/-- What happened, oldest first. -/
def log (c : Context κ) : List Event := c.journal.reverse

/-- Forgets the journal. -/
def clearJournal (c : Context κ) : Context κ := { c with journal := [] }

/-- Keeps an error for later report. -/
def report (c : Context κ) (e : Error) : Context κ :=
  { c with diagnostics := c.diagnostics ++ [e] }

/-- Forgets the errors kept for report. -/
def clearDiagnostics (c : Context κ) : Context κ := { c with diagnostics := [] }

/-! ## Variables -/

/-- The value of a variable. -/
def valueOf? (c : Context κ) (name : String) : Option Value :=
  (c.bindings.get? name).map Variable.value

/-- Sets a variable, over one of the same name. -/
def setVariable (c : Context κ) (name : String) (value : Value) (exported : Bool) : Context κ :=
  { c with bindings := c.bindings.insert name ⟨value, exported⟩ }

/-- Removes a variable. -/
def unsetVariable (c : Context κ) (name : String) : Context κ :=
  { c with bindings := c.bindings.erase name }

/-- Whether a variable is set and exported. -/
def isExported (c : Context κ) (name : String) : Bool :=
  match c.bindings.get? name with
  | some v => v.exported
  | none => false

/-- Marks a variable as exported; none if it is not set. -/
def exportVariable? (c : Context κ) (name : String) : Option (Context κ) :=
  (c.bindings.get? name).map (fun v => c.setVariable name v.value true)

/-! ## Commands -/

/-- Registers a command, over one of the same name. -/
def setCommand (c : Context κ) (name : String) (code : κ) : Context κ :=
  { c with commands := c.commands.insert name code }

/-- Removes a command. -/
def removeCommand (c : Context κ) (name : String) : Context κ :=
  { c with commands := c.commands.erase name }

/-- Registers commands. -/
def withCommands (c : Context κ) (commands : List (String × κ)) : Context κ :=
  commands.foldl (fun c e => c.setCommand e.1 e.2) c

/-! ## Options -/

/-- Declares an option. -/
def declareOption (c : Context κ) (name : String) (default : Value) : Context κ :=
  { c with options := c.options.declare name default }

/-- Covers the current value of an option. -/
def pushOption (c : Context κ) (name : String) (value : Value) : Except Error (Context κ) := do
  let options ← c.options.push name value
  return { c with options := options }.note (.pushed name value)

/-- Uncovers the value below the current one of an option. -/
def popOption (c : Context κ) (name : String) : Except Error (Value × Context κ) := do
  let (value, options) ← c.options.pop name
  return (value, { c with options := options }.note (.popped name value))

/-! ## Working directory -/

/-- A path seen from the working directory. -/
def absolutePath (c : Context κ) (path : RawText) : RawText :=
  Files.Path.absolute c.workingDirectory path

/-- Makes the directory a path leads to the working directory, by its canonical path. -/
def moveTo (c : Context κ) (files : Files.Tree) (path : RawText) : Except Error (Context κ) :=
  let target := c.absolutePath path
  match files.enter target with
  | .ok directory => .ok { c with workingDirectory := directory }
  | .error failure => .error (.badPath target failure)

end Context

end CommandShell
