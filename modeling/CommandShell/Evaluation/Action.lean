/-
# CommandShell.Evaluation.Action -- steps that read and change a context

An action either succeeds or fails, and in both cases leaves a context: what was done before a
failure stays done.
-/
import CommandShell.Evaluation.Context

namespace CommandShell

/-- A step of evaluation with a result of type `α`. -/
def Action (κ α : Type) : Type := Context κ → Except Error α × Context κ

namespace Action

variable {κ α β : Type}

/-- Does nothing. -/
protected def pure (a : α) : Action κ α := fun c => (.ok a, c)

/-- One action, then another that may depend on the first result; a failure ends both. -/
protected def bind (x : Action κ α) (f : α → Action κ β) : Action κ β := fun c =>
  match x c with
  | (.ok a, next) => f a next
  | (.error e, next) => (.error e, next)

instance : Monad (Action κ) where
  pure := Action.pure
  bind := Action.bind

/-- Fails. -/
def fail (e : Error) : Action κ α := fun c => (.error e, c)

/-- The context as it stands. -/
def context : Action κ (Context κ) := fun c => (.ok c, c)

/-- Changes the context. -/
def update (f : Context κ → Context κ) : Action κ Unit := fun c => (.ok (), f c)

/-- Adds to the journal. -/
def note (e : Event) : Action κ Unit := update (·.note e)

/-- Takes over a result. -/
def ofExcept : Except Error α → Action κ α
  | .ok a => pure a
  | .error e => fail e

/-- Changes the context, if that is possible. -/
def tryUpdate (f : Context κ → Except Error (Context κ)) : Action κ Unit := fun c =>
  match f c with
  | .ok next => (.ok (), next)
  | .error e => (.error e, c)

/-! ## Depth -/

/-- Fails because evaluation may not go deeper. -/
def refuse : Action κ α := fun c =>
  (.error (.depthExceeded c.interpreter.maxDepth), c.note (.refused c.interpreter.maxDepth))

/-- The context one level deeper. -/
def enter (c : Context κ) : Context κ :=
  { c with depth := c.depth + 1 }.note (.entered (c.depth + 1))

/-- The context one level less deep. -/
def leave (c : Context κ) : Context κ :=
  { c with depth := c.depth - 1 }.note (.left c.depth)

/-- Runs an action one level deeper, if there is a level left. -/
def nested (body : Action κ α) : Action κ α := fun c =>
  if c.depth < c.interpreter.maxDepth then
    let (answer, next) := body (enter c)
    (answer, leave next)
  else refuse c

end Action

end CommandShell
