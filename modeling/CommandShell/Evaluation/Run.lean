/-
# CommandShell.Evaluation.Run -- evaluating programs

A program text is read as a whole and its statements run in order; a statement that fails does not
stop the ones after it, a request to leave the shell does. A text of several lines that cannot be
read as a whole is run line by line, and only the lines that cannot be read fail.

Each outcome goes to a handler as soon as it is known. Commands may run program texts of their own;
each such re-entry goes one level deeper, so the number of levels that are left bounds them, and
evaluation is a total function.
-/
import CommandShell.Evaluation.Evaluator
import CommandShell.Text.Blank
import CommandShell.Text.Lines

namespace CommandShell

variable {κ σ : Type}

/-! ## Commands -/

/-- How a command runs a program text: it gets the outcomes of the statements. -/
abbrev Reentry (κ : Type) : Type := String → Action κ (List Outcome)

/-- The meaning of command codes. -/
structure CommandSet (κ : Type) where
  /-- One line about a command. -/
  describe : κ → String
  /-- Runs a command. -/
  invoke : Reentry κ → κ → List Value → List Flag → Action κ (Flow Value)

namespace CommandSet

/-- Runs an action and notes how the command answered. -/
def answering (name : String) (body : Action κ (Flow Value)) : Action κ (Flow Value) := fun c =>
  let (answer, next) := body c
  (answer, next.note (.answered name answer))

/-- Looks up a command by name and runs it. -/
def dispatch (set : CommandSet κ) (reenter : Reentry κ) : Dispatch κ := fun name values flags => do
  Action.note (.called name values flags)
  let c ← Action.context
  match c.commands.get? name with
  | none => Action.fail (.unknownCommand name)
  | some code =>
    Action.note (.invoked name values flags)
    answering name (set.invoke reenter code values flags)

end CommandSet

/-! ## Statements -/

/-- Takes an outcome together with what was gathered so far and the context. -/
abbrev Handler (κ σ : Type) : Type := Outcome → σ × Context κ → σ × Context κ

/-- Runs statements in order up to a request to leave; says whether there was one. -/
def runStatements (evaluate : Node → Action κ (Flow Value)) (handle : Handler κ σ) :
    List Node → σ × Context κ → Bool × (σ × Context κ)
  | [], s => (false, s)
  | n :: rest, (acc, c) =>
    match evaluate n c with
    | (.ok (.value v), next) => runStatements evaluate handle rest (handle (.value v) (acc, next))
    | (.ok (.exit code), next) => (true, handle (.exited code) (acc, next))
    | (.error e, next) =>
      runStatements evaluate handle rest
        (handle (.failed e) (acc, next.note (.statementFailed e)))

/-- Runs lines in order up to a request to leave. A line that cannot be read fails. -/
def runLines (reader : Reader) (evaluate : Node → Action κ (Flow Value)) (handle : Handler κ σ) :
    List String → σ × Context κ → σ × Context κ
  | [], s => s
  | line :: rest, (acc, c) =>
    let noted := c.note (.reading reader line)
    match reader.program line with
    | .ok p =>
      match runStatements evaluate handle p.statements (acc, noted) with
      | (true, s) => s
      | (false, s) => runLines reader evaluate handle rest s
    | .error e =>
      runLines reader evaluate handle rest (handle (.failed (.unreadable e)) (acc, noted))

/-- Runs a program text: as a whole, or line by line if it has several lines and cannot be read. -/
def runText (reader : Reader) (evaluate : Node → Action κ (Flow Value)) (handle : Handler κ σ)
    (source : String) (s : σ × Context κ) : σ × Context κ :=
  let noted := s.2.note (.reading reader source)
  match reader.program source with
  | .ok p => (runStatements evaluate handle p.statements (s.1, noted)).2
  | .error e =>
    let reported := noted.note (.unreadable e)
    if Text.breaksInside source.toList then
      runLines reader evaluate handle (Text.lines source) (s.1, reported)
    else handle (.failed (.unreadable e)) (s.1, reported)

/-! ## Interpreters -/

/-- Gathers outcomes in order. -/
def collect : Handler κ (List Outcome) := fun o (outcomes, c) => (outcomes ++ [o], c)

namespace Interpreter

/-- Runs something with these settings in the context, and puts the context's own ones back. -/
def installed (i : Interpreter) (body : σ × Context κ → σ × Context κ) (s : σ × Context κ) :
    σ × Context κ :=
  let after := body (s.1, { s.2 with interpreter := i })
  (after.1, { after.2 with interpreter := s.2.interpreter })

/-- Runs a program text with these settings, given how nodes are evaluated. -/
def runOver (i : Interpreter) (evaluate : Node → Action κ (Flow Value)) (handle : Handler κ σ)
    (source : String) (s : σ × Context κ) : σ × Context κ :=
  i.installed (runText i.reader evaluate handle source) s

end Interpreter

namespace CommandSet

/-- Runs a program text inside a command, through at most the given number of re-entries. -/
def reenterWithin (set : CommandSet κ) : Nat → Reentry κ
  | 0, _, c => Action.refuse c
  | levels + 1, source, c =>
    Action.nested (fun c =>
      let evaluate := Node.evaluate (set.dispatch (reenterWithin set levels))
      let (outcomes, next) := c.interpreter.runOver evaluate collect source ([], c)
      (.ok outcomes, next)) c

/-- How many levels a context has left under the given settings. -/
def levels (i : Interpreter) (c : Context κ) : Nat := i.maxDepth - c.depth

/-- Runs a program text as a command would: with the context's own settings, one level deeper. -/
def reenter (set : CommandSet κ) (source : String) : Action κ (List Outcome) := fun c =>
  set.reenterWithin (levels c.interpreter c) source c

/-- Looks up a command by name and runs it with the context's own settings. -/
def call (set : CommandSet κ) (name : String) (values : List Value) (flags : List Flag) :
    Action κ (Flow Value) := fun c =>
  set.dispatch (set.reenterWithin (levels c.interpreter c)) name values flags c

end CommandSet

namespace Interpreter

/-- How these settings evaluate a node in a context. -/
def evaluateNode (i : Interpreter) (set : CommandSet κ) (c : Context κ) :
    Node → Action κ (Flow Value) :=
  Node.evaluate (set.dispatch (set.reenterWithin (CommandSet.levels i c)))

/-- Runs a program text and hands each outcome on. -/
def evaluateEach (i : Interpreter) (set : CommandSet κ) (handle : Handler κ σ) (source : String)
    (s : σ × Context κ) : σ × Context κ :=
  i.runOver (i.evaluateNode set s.2) handle source s

/-- Runs a program text and gathers its outcomes. -/
def evaluate (i : Interpreter) (set : CommandSet κ) (source : String) (c : Context κ) :
    List Outcome × Context κ :=
  i.evaluateEach set collect source ([], c)

/-- Runs a program and gathers its outcomes. -/
def evaluateProgram (i : Interpreter) (set : CommandSet κ) (p : Program) (c : Context κ) :
    List Outcome × Context κ :=
  i.installed (fun s => (runStatements (i.evaluateNode set c) collect p.statements s).2) ([], c)

end Interpreter

end CommandShell
