/-
# CommandShell.Grammar.Alphabet -- the terminals of the language

The grammar is written over fixed marks, such as `$(`, and over classes of characters, such as
the digits. A reader that gets stuck reports the terminals it would have taken; `Expected` names
them, `Expected.text` spells them, and `Expected.all` lists them in the order of their spellings.
-/
import CommandShell.Decimal.Reading

namespace CommandShell.Grammar

open Decimal (isDigit)

/-! ## Marks -/

/-- The fixed texts of the language. -/
inductive Mark where
  | hash | dollar | openSubstitution | openVariable | closeSubstitution | dash | doubleDash | point
  | semicolon | quote | lineFeed | carriageReturn | closeVariable
  deriving DecidableEq, Repr

/-- The characters of a mark. -/
def Mark.chars : Mark → List Char
  | .hash => ['#']
  | .dollar => ['$']
  | .openSubstitution => ['$', '(']
  | .openVariable => ['$', '{']
  | .closeSubstitution => [')']
  | .dash => ['-']
  | .doubleDash => ['-', '-']
  | .point => ['.']
  | .semicolon => [';']
  | .quote => ['"']
  | .lineFeed => ['\n']
  | .carriageReturn => ['\r']
  | .closeVariable => ['}']

/-! ## Classes of characters -/

/-- Letters and the underscore. -/
def isNameStart (c : Char) : Bool :=
  ('a' ≤ c && c ≤ 'z') || ('A' ≤ c && c ≤ 'Z') || c == '_'

/-- What a name goes on with. -/
def isNameRest (c : Char) : Bool := isNameStart c || isDigit c

/-- What an unquoted string may start with. -/
def isBareStart (c : Char) : Bool :=
  isNameStart c || c == '.' || c == ':' || c == '*' || c == '?' || c == '/' || c == '@' ||
    c == '~' || c == '\x7b' || c == '\x7d'

/-- What an unquoted string goes on with. -/
def isBareRest (c : Char) : Bool := isBareStart c || isDigit c

/-- The blanks that separate words within a line. -/
def isSpace (c : Char) : Bool := c == ' ' || c == '\t'

/-- What may stand between double quotes. -/
def isQuotable (c : Char) : Bool := c != '"'

/-- What a comment goes on with. -/
def isCommentary (c : Char) : Bool := c != '\n' && c != '\r'

/-- The signs of a number. -/
def isSign (c : Char) : Bool := c == '+' || c == '-'

/-- The marks of a power of ten. -/
def isPowerMark (c : Char) : Bool := c == 'e' || c == 'E'

/-! ## What a reader could have taken -/

/-- A terminal of the grammar, as named in reports. -/
inductive Expected where
  | mark (m : Mark)
  | sign
  | digit
  | powerMark
  | quotable
  | commentary
  | identifier
  | integer
  | string
  deriving DecidableEq, Repr

namespace Expected

/-- All terminals, in the order of their spellings. -/
def all : List Expected :=
  [.mark .hash, .mark .dollar, .mark .openSubstitution, .mark .openVariable,
    .mark .closeSubstitution, .mark .dash, .mark .doubleDash, .mark .point, .mark .semicolon,
    .mark .quote, .mark .lineFeed, .mark .carriageReturn, .mark .closeVariable,
    .sign, .digit, .powerMark, .quotable, .commentary, .identifier, .integer, .string]

/-- How a terminal is spelled in reports. -/
def text : Expected → String
  | .mark .hash => "\"#\""
  | .mark .dollar => "\"$\""
  | .mark .openSubstitution => "\"$(\""
  | .mark .openVariable => "\"$\x7b\""
  | .mark .closeSubstitution => "\")\""
  | .mark .dash => "\"-\""
  | .mark .doubleDash => "\"--\""
  | .mark .point => "\".\""
  | .mark .semicolon => "\";\""
  | .mark .quote => "\"\\\"\""
  | .mark .lineFeed => "\"\\n\""
  | .mark .carriageReturn => "\"\\r\""
  | .mark .closeVariable => "\"\x7d\""
  | .sign => "['+' | '-']"
  | .digit => "['0'..='9']"
  | .powerMark => "['e' | 'E']"
  | .quotable => "[^ '\"']"
  | .commentary => "[^ '\\n' | '\\r']"
  | .identifier => "identifier"
  | .integer => "integer"
  | .string => "string"

example : (all.map text).Pairwise (· < ·) := by decide

theorem mem_all (e : Expected) : e ∈ all := by
  rcases e with ⟨m⟩ | _ | _ | _ | _ | _ | _ | _ | _ <;> first | (cases m <;> decide) | decide

/-- The given terminals, each once, in the order of their spellings. -/
def arrange (es : List Expected) : List Expected := all.filter (fun e => es.contains e)

theorem mem_arrange {e : Expected} {es : List Expected} : e ∈ arrange es ↔ e ∈ es := by
  simp [arrange, mem_all]

end Expected

end CommandShell.Grammar
