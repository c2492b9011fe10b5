/-
# CommandShell.Program.Node -- programs as they are evaluated

A program is a list of nodes. Flags are told apart from positional arguments when a command is
built, in `Node.ofWords`; a flag that stands anywhere else is a node of its own, which evaluation
refuses.
-/
import CommandShell.Decimal.Layout

namespace CommandShell

/-- A number or a string of the source. -/
inductive Literal where
  | integer (value : Int64)
  | float (value : Binary64)
  | string (value : String)
  deriving DecidableEq, Repr

/-- A modifier of a command, `-name` or `--name`. -/
structure Flag where
  name : String
  long : Bool
  value : Literal
  deriving DecidableEq, Repr

/-- A flag as written in source: it carries the number one. -/
def Flag.written (name : String) (long : Bool) : Flag := ⟨name, long, .integer 1⟩

mutual

/-- A piece of a program that can be evaluated. -/
inductive Node where
  | literal (l : Literal)
  | flag (f : Flag)
  | variable (name : String)
  | interpolated (parts : List Part)
  | command (name : String) (arguments : List Node) (flags : List Flag)
  deriving Repr

/-- A part of a string with substitutions. -/
inductive Part where
  | text (s : String)
  | node (n : Node)
  deriving Repr

end

/-- Statements to evaluate in order. -/
structure Program where
  statements : List Node
  deriving Repr

namespace Node

/-- The flag a node is, if it is one. -/
def asFlag? : Node → Option Flag
  | .flag f => some f
  | _ => none

/-- The node, unless it is a flag. -/
def unlessFlag? : Node → Option Node
  | .flag _ => none
  | n => some n

/-- The command with the given words: its flags in order, and its other words in order. -/
def ofWords (name : String) (words : List Node) : Node :=
  .command name (words.filterMap unlessFlag?) (words.filterMap asFlag?)

end Node

/-! ## How programs are written -/

namespace Literal

/-- A string is written between quotes, as it is. -/
def display : Literal → String
  | .integer value => toString value.toInt
  | .float value => value.text
  | .string value => "\"" ++ value ++ "\""

end Literal

/-- A flag is written with its dashes and without its value. -/
def Flag.display (f : Flag) : String := (if f.long then "--" else "-") ++ f.name

mutual

/-- A command is written inside `$( ... )`, its flags before its arguments. -/
def Node.display : Node → String
  | .literal l => l.display
  | .flag f => f.display
  | .variable name => "$\x7b" ++ name ++ "\x7d"
  | .interpolated parts => "\"" ++ String.join (Part.displayEach parts) ++ "\""
  | .command name arguments flags =>
    "$(" ++ " ".intercalate (name :: flags.map Flag.display ++ Node.displayEach arguments) ++ ")"

/-- How each of the given nodes is written. -/
def Node.displayEach : List Node → List String
  | [] => []
  | n :: rest => n.display :: Node.displayEach rest

/-- How each part of a string is written. -/
def Part.displayEach : List Part → List String
  | [] => []
  | p :: rest => p.display :: Part.displayEach rest

/-- A text part is written as it is. -/
def Part.display : Part → String
  | .text s => s
  | .node n => n.display

end

/-- Statements are written one to a line. -/
def Program.display (p : Program) : String := "\n".intercalate (p.statements.map Node.display)

end CommandShell
