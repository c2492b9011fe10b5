/-
# CommandShell.Evaluation.Evaluator -- evaluating nodes

Arguments are evaluated from left to right, then the command is looked up and run. A command that
stands inside another command or inside a string may fail without harm to what surrounds it: its
error is kept for report and it counts as having no value. Every other failure ends the command it
stands in. A request to leave the shell ends everything around it at once.
-/
import CommandShell.Evaluation.Action

namespace CommandShell

variable {κ : Type}

/-- What a command can do: it gets its arguments and flags. -/
abbrev Dispatch (κ : Type) : Type := String → List Value → List Flag → Action κ (Flow Value)

/-- Reads a variable. -/
def readVariable (name : String) : Action κ (Flow Value) := fun c =>
  match c.valueOf? name with
  | some v => (.ok (.value v), c)
  | none =>
    let missed := c.note (.missed name)
    if c.interpreter.lenient then (.ok (.value (.string "")), missed)
    else (.error (.unsetVariable name), missed)

/-- Keeps a failure for report and goes on without a value. -/
def contain (n : Node) (body : Action κ (Flow Value)) : Action κ (Flow Value) := fun c =>
  match body c with
  | (.ok flow, next) => (.ok flow, next)
  | (.error e, next) => (.ok (.value .unit), (next.note (.contained n e)).report e)

/-- The action of a node inside a command or a string: the failure of a command is contained. -/
def embedded (n : Node) (body : Action κ (Flow Value)) : Action κ (Flow Value) :=
  match n with
  | .command _ _ _ => contain n body
  | _ => body

mutual

/-- Evaluates a node. -/
def Node.evaluate (dispatch : Dispatch κ) : Node → Action κ (Flow Value)
  | .literal l => pure (.value (.ofLiteral l))
  | .flag f => Action.fail (.strayFlag f)
  | .variable name => readVariable name
  | .interpolated parts => do
    match ← Part.evaluateAll dispatch parts with
    | .exit code => pure (.exit code)
    | .value s => pure (.value (.string s))
  | .command name arguments flags => Action.nested do
    match ← Node.evaluateAll dispatch arguments with
    | .exit code => pure (.exit code)
    | .value values => dispatch name values flags

/-- Evaluates arguments from left to right. -/
def Node.evaluateAll (dispatch : Dispatch κ) : List Node → Action κ (Flow (List Value))
  | [] => pure (.value [])
  | n :: rest => do
    match ← embedded n (n.evaluate dispatch) with
    | .exit code => pure (.exit code)
    | .value v =>
      match ← Node.evaluateAll dispatch rest with
      | .exit code => pure (.exit code)
      | .value vs => pure (.value (v :: vs))

/-- Evaluates the parts of a string from left to right, to their joined texts. -/
def Part.evaluateAll (dispatch : Dispatch κ) : List Part → Action κ (Flow String)
  | [] => pure (.value "")
  | p :: rest => do
    match ← p.evaluate dispatch with
    | .exit code => pure (.exit code)
    | .value s =>
      match ← Part.evaluateAll dispatch rest with
      | .exit code => pure (.exit code)
      | .value more => pure (.value (s ++ more))

/-- Evaluates a part of a string to its text. -/
def Part.evaluate (dispatch : Dispatch κ) : Part → Action κ (Flow String)
  | .text s => pure (.value s)
  | .node n => do
    match ← embedded n (n.evaluate dispatch) with
    | .exit code => pure (.exit code)
    | .value v => do
      Action.note (.substituted n v)
      pure (.value v.text)

end

end CommandShell
