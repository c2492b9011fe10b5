/-
# CommandShell.Grammar.Nesting -- the limit on nested substitutions

Before a text is read, one pass over its characters bounds how deeply its substitutions can nest.
The pass keeps a depth: `$(` always opens a level, a plain `(` opens one only inside a level, and
`)` closes one if there is one. It knows nothing of strings or comments: it may count levels that
the grammar would not, and a `)` in a string closes a level that the grammar still has open.
-/
import CommandShell.Text.Position

namespace CommandShell.Grammar.Nesting

open Text (Position)

/-- Scans a text from the given depth and place; the first opening that would pass the limit is
returned. -/
def scan (limit : Nat) : Nat → Position → List Char → Option Position
  | _, _, [] => none
  | depth, p, '$' :: '(' :: rest =>
    if depth < limit then scan limit (depth + 1) ((p.step '$').step '(') rest else some p
  | depth, p, '(' :: rest =>
    if depth = 0 then scan limit 0 (p.step '(') rest
    else if depth < limit then scan limit (depth + 1) (p.step '(') rest
    else some p
  | depth, p, ')' :: rest => scan limit (depth - 1) (p.step ')') rest
  | depth, p, c :: rest => scan limit depth (p.step c) rest

/-- The first opening of a text that passes the limit, if any does. -/
def firstExcess (limit : Nat) (source : List Char) : Option Position :=
  scan limit 0 .start source

example : firstExcess 1 "a\n $($(x))".toList = some ⟨2, 4⟩ := by decide
example : firstExcess 0 "((x))".toList = none := by decide

end CommandShell.Grammar.Nesting
