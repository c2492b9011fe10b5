/-
# CommandShell.Program.ReadError -- why a text is no program

A text is refused because it nests too deeply, because the grammar got stuck, or because a
substitution inside one of its strings is refused.
-/
import CommandShell.Grammar.Rule
import CommandShell.Text.Position

namespace CommandShell

open Grammar (Expected Refusals)
open Text (Position)

/-- The causes for which a text is refused. -/
inductive ReadError where
  /-- The grammar got stuck at `place`, where any of `expected` could have gone on. -/
  | stuck (place : Position) (expected : List Expected)
  /-- The opening at `place` nests more deeply than `limit`. -/
  | tooDeep (place : Position) (limit : Nat)
  /-- The substitution `span` of a string is refused. -/
  | substitution (span : String) (inner : ReadError)
  deriving DecidableEq, Repr

namespace ReadError

/-- The refusals of a rule on the given text, as a report. -/
def ofRefusals (source : List Char) (r : Refusals) : ReadError :=
  .stuck (.ofOffset source r.offset) (Expected.arrange r.expected)

/-- What could have gone on, as one phrase. -/
def describe : List Expected → String
  | [] => "<unreported>"
  | [e] => e.text
  | es => "one of " ++ ", ".intercalate (es.map Expected.text)

/-- A place, as one phrase. -/
def locate (p : Position) : String :=
  "line " ++ toString p.line ++ ", column " ++ toString p.column

/-- The report of a refused text. -/
def message : ReadError → String
  | .stuck place expected => locate place ++ ": expected " ++ describe expected
  | .tooDeep place limit =>
    locate place ++ ": substitutions nested deeper than " ++ toString limit
  | .substitution span inner => "in substitution '" ++ span ++ "': " ++ inner.message

end ReadError

end CommandShell
