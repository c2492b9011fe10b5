/-
# CommandShell.Evaluation.Event -- what happens during evaluation

Evaluation keeps a journal of events, in the order in which they happen. Some of them can be shown
to the user; all of them say what evaluation did apart from its result: which texts were read, how
deep it went, which variables it missed and which commands it ran with what answer.
-/
import CommandShell.Evaluation.Outcome
import CommandShell.Program.Reader

namespace CommandShell

/-- A step of evaluation. -/
inductive Event where
  /-- A text is read as a program. -/
  | reading (reader : Reader) (source : String)
  /-- A whole text could not be read. -/
  | unreadable (e : ReadError)
  /-- Evaluation goes one level deeper, to the given depth. -/
  | entered (depth : Nat)
  /-- Evaluation comes back from the given depth. -/
  | left (depth : Nat)
  /-- Evaluation may not go deeper than the given depth. -/
  | refused (limit : Nat)
  /-- A variable that is read is not set. -/
  | missed (name : String)
  /-- A command is called with evaluated arguments. -/
  | called (name : String) (arguments : List Value) (flags : List Flag)
  /-- A called command is registered, and runs. -/
  | invoked (name : String) (arguments : List Value) (flags : List Flag)
  /-- A command that ran has answered. -/
  | answered (name : String) (answer : Except Error (Flow Value))
  /-- A command inside another command or a string failed. -/
  | contained (n : Node) (e : Error)
  /-- A substitution inside a string has its value. -/
  | substituted (n : Node) (v : Value)
  /-- A statement failed. -/
  | statementFailed (e : Error)
  /-- An option got a new current value. -/
  | pushed (option : String) (v : Value)
  /-- An option lost its current value. -/
  | popped (option : String) (v : Value)
  /-- The working directory changed. -/
  | moved (path : RawText)

end CommandShell
