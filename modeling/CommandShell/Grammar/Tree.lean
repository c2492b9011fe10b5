/-
# CommandShell.Grammar.Tree -- what the grammar reads

Trees keep the words of the source as they were written: strings are not yet split at their
substitutions, flags and arguments stand in source order, and comments are kept.
-/
import CommandShell.Decimal.Binary64

namespace CommandShell.Grammar

mutual

/-- A command or a lone expression. -/
inductive Body where
  | command (name : String) (arguments : List Argument)
  | expr (e : Expr)

/-- A word of a command. -/
inductive Argument where
  | flag (name : String) (long : Bool)
  | expr (e : Expr)

/-- A word that stands for a value. -/
inductive Expr where
  | variable (name : String)
  | substitution (inner : Body)
  | quoted (raw : String)
  | bare (raw : String)
  | integer (value : Int64)
  | float (value : Binary64)

end

/-- A statement: perhaps a body, perhaps a comment. -/
structure Statement where
  body : Option Body
  comment : Option String

/-! ## Strings in source order -/

mutual

/-- The raw strings of a body, from left to right. -/
def Body.strings : Body → List String
  | .command _ arguments => Argument.stringsOf arguments
  | .expr e => e.strings

/-- The raw strings of a list of words, from left to right. -/
def Argument.stringsOf : List Argument → List String
  | [] => []
  | a :: rest => a.strings ++ Argument.stringsOf rest

/-- The raw strings of a word. -/
def Argument.strings : Argument → List String
  | .flag _ _ => []
  | .expr e => e.strings

/-- The raw strings of an expression. -/
def Expr.strings : Expr → List String
  | .substitution inner => inner.strings
  | .quoted raw => [raw]
  | .bare raw => [raw]
  | .variable _ | .integer _ | .float _ => []

end

/-- The raw strings of a program, from left to right. -/
def Statement.stringsOf (program : List Statement) : List String :=
  program.flatMap (fun s => (s.body.map Body.strings).getD [])

/-! ## Substitution depth -/

mutual

/-- The longest chain of substitutions in a body, each lying inside the one before. -/
def Body.depth : Body → Nat
  | .command _ arguments => Argument.depthOf arguments
  | .expr e => e.depth

/-- The longest chain of substitutions in a list of words. -/
def Argument.depthOf : List Argument → Nat
  | [] => 0
  | a :: rest => max a.depth (Argument.depthOf rest)

/-- The longest chain of substitutions in a word. -/
def Argument.depth : Argument → Nat
  | .flag _ _ => 0
  | .expr e => e.depth

/-- The longest chain of substitutions in an expression. -/
def Expr.depth : Expr → Nat
  | .substitution inner => inner.depth + 1
  | .variable _ | .quoted _ | .bare _ | .integer _ | .float _ => 0

end

end CommandShell.Grammar
