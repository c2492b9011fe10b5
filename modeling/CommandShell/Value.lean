/-
# CommandShell.Value -- what statements produce

Values are numbers, strings, lists of values, and the absence of a value. The text of a list is the
texts of its items with a blank between any two, so an empty list and a missing value both have the
empty text.
-/
import CommandShell.Program.Node

namespace CommandShell

/-- What evaluation produces. -/
inductive Value where
  | integer (value : Int64)
  | float (value : Binary64)
  | string (value : String)
  | list (items : List Value)
  | unit
  deriving Repr

/-- The kinds of values. -/
inductive Kind where
  | integer | float | string | list | unit
  deriving DecidableEq, Repr

/-- The name of a kind. -/
def Kind.name : Kind → String
  | .integer => "integer"
  | .float => "float"
  | .string => "string"
  | .list => "list"
  | .unit => "unit"

namespace Value

/-- The kind of a value. -/
def kind : Value → Kind
  | .integer _ => .integer
  | .float _ => .float
  | .string _ => .string
  | .list _ => .list
  | .unit => .unit

/-- The integer a value is. -/
def asInteger? : Value → Option Int64
  | .integer value => some value
  | _ => none

/-- The string a value is. -/
def asString? : Value → Option String
  | .string value => some value
  | _ => none

/-- The value of a literal. -/
def ofLiteral : Literal → Value
  | .integer value => .integer value
  | .float value => .float value
  | .string value => .string value

mutual

/-- The text of a value. -/
def text : Value → String
  | .integer value => toString value.toInt
  | .float value => value.text
  | .string value => value
  | .list items => " ".intercalate (texts items)
  | .unit => ""

/-- The texts of values. -/
def texts : List Value → List String
  | [] => []
  | v :: rest => v.text :: texts rest

end

/-- The texts of values, with a blank between any two. -/
def joined (values : List Value) : String := " ".intercalate (texts values)

/-- A list of strings as a value. -/
def ofStrings (items : List String) : Value := .list (items.map .string)

/-- The lines in which a statement's value is shown: a list shows one item to a line, and the
absence of a value shows nothing. -/
def lines : Value → List String
  | .unit => []
  | .list items => items.map text
  | v => [v.text]

end Value

end CommandShell
