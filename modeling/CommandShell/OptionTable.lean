/-
# CommandShell.OptionTable -- options as stacks of values

An option is declared with a default, which stays at the bottom of its stack. Its current value is
the one on top; pushing covers it and popping uncovers it, down to the default.
-/
import CommandShell.Error
import CommandShell.NameMap

namespace CommandShell

/-- The declared options, each with its values from the current one down to the default. -/
structure OptionTable where
  values : NameMap (List Value)

namespace OptionTable

/-- No options. -/
def empty : OptionTable := ⟨.empty⟩

/-- Declares an option; whatever it held before is dropped. -/
def declare (t : OptionTable) (name : String) (default : Value) : OptionTable :=
  ⟨t.values.insert name [default]⟩

/-- Covers the current value of an option. -/
def push (t : OptionTable) (name : String) (value : Value) : Except Error OptionTable :=
  match t.values.get? name with
  | none => .error (.undeclaredOption name)
  | some stack => .ok ⟨t.values.insert name (value :: stack)⟩

/-- The current value of an option. -/
def peek (t : OptionTable) (name : String) : Except Error Value :=
  match t.values.get? name with
  | some (value :: _) => .ok value
  | _ => .error (.undeclaredOption name)

/-- Uncovers the value below the current one, which is returned. -/
def pop (t : OptionTable) (name : String) : Except Error (Value × OptionTable) :=
  match t.values.get? name with
  | none => .error (.undeclaredOption name)
  | some (value :: below :: rest) => .ok (value, ⟨t.values.insert name (below :: rest)⟩)
  | some _ => .error (.optionAtDefault name)

/-- The names of the declared options, in order. -/
def names (t : OptionTable) : List String := t.values.names

/-- The option that says whether input is repeated before it is evaluated. -/
def echo : String := "echo"

/-- The options every shell starts with. -/
def standard : OptionTable := empty.declare echo (.string "off")

end OptionTable

end CommandShell
