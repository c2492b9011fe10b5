/-
# CommandShell.Evaluation.Outcome -- how evaluation ends

A node ends with a value or with the request to leave the shell; a statement can also fail.
-/
import CommandShell.Error

namespace CommandShell

/-- A result, or the request to leave the shell with a code. -/
inductive Flow (α : Type) where
  | value (a : α)
  | exit (code : Int32)
  deriving Repr

/-- How a statement ends. -/
inductive Outcome where
  | value (v : Value)
  | failed (e : Error)
  | exited (code : Int32)
  deriving Repr

namespace Outcome

/-- Whether a statement asked to leave the shell. -/
def isExit : Outcome → Bool
  | .exited _ => true
  | _ => false

end Outcome

end CommandShell
