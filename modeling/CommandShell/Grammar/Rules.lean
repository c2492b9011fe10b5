/-
# CommandShell.Grammar.Rules -- the rules of the language

A program is statements between separators; a statement is an optional body, an optional comment
and blanks; a body is a command or an expression. The rules refer to each other through
substitutions, so each one takes the rule for what stands inside a substitution, and `bodyWithin`
ties the knot to a given depth. Every substitution takes two characters for its opening, so the
length of the text is depth enough.
-/
import CommandShell.Grammar.Rule
import CommandShell.Grammar.Tree

namespace CommandShell.Grammar

open Rule
open Decimal (isDigit)

/-! ## Words -/

/-- A name. -/
def identifier : Rule String := word isNameStart isNameRest .identifier

/-- An unquoted string. -/
def bare : Rule String := word isBareStart isBareRest .string

/-- A string between double quotes; what stands between them is taken as it is. -/
def quoted : Rule String := do
  mark .quote
  let raw ← run isQuotable .quotable
  mark .quote
  pure (String.ofList raw)

/-- `${name}` or `$name`. -/
def variableName : Rule String :=
  orElse
    (do
      mark .openVariable
      let name ← identifier
      mark .closeVariable
      pure name)
    (do
      mark .dollar
      identifier)

/-! ## Numbers -/

/-- The optional sign of a number; true for a minus. -/
def sign : Rule Bool := do
  let s ← optional (oneOf isSign .sign)
  pure (s == some '-')

/-- Decimal digits, at least one. -/
def digits : Rule (List Char) := run1 isDigit .digit

/-- A number with a sign. -/
def signed (negative : Bool) (n : Nat) : Int := if negative then -(n : Int) else n

/-- A power of ten. -/
def power : Rule Int := do
  let _ ← oneOf isPowerMark .powerMark
  let negative ← sign
  let ds ← digits
  pure (signed negative (Decimal.powerOf ds))

/-- A number with a fraction. -/
def float : Rule Binary64 := do
  let negative ← sign
  let whole ← digits
  mark .point
  let fraction ← digits
  let exponent ← optional power
  pure (Decimal.ofParts negative whole fraction (exponent.getD 0)).toBinary64

/-- The 64-bit integer of the given value, if there is one. -/
def int64? (value : Int) : Option Int64 :=
  if Int64.minValue.toInt ≤ value ∧ value ≤ Int64.maxValue.toInt then some (Int64.ofInt value)
  else none

/-- An integer; one that does not fit is refused at its end. -/
def integer : Rule Int64 := do
  let negative ← sign
  let ds ← digits
  match int64? (signed negative (Decimal.valueOf ds)) with
  | some value => pure value
  | none => refuse .integer

/-- A number. -/
def number : Rule Expr :=
  orElse (Expr.float <$> float) (Expr.integer <$> integer)

/-! ## Expressions and commands -/

/-- `$( ... )` around a command or an expression. -/
def substitution (inner : Rule Body) : Rule Body := do
  mark .openSubstitution
  skipSpaces
  let body ← inner
  skipSpaces
  mark .closeSubstitution
  pure body

/-- A word that stands for a value. -/
def expr (inner : Rule Body) : Rule Expr :=
  orElse (Expr.variable <$> variableName) <|
  orElse (Expr.substitution <$> substitution inner) <|
  orElse (Expr.quoted <$> quoted) <|
  orElse (Expr.bare <$> bare) number

/-- `--name` or `-name`. -/
def flag : Rule Argument :=
  orElse
    (do
      mark .doubleDash
      let name ← identifier
      pure (.flag name true))
    (do
      mark .dash
      let name ← identifier
      pure (.flag name false))

/-- A word of a command. -/
def argument (inner : Rule Body) : Rule Argument :=
  orElse flag (Argument.expr <$> expr inner)

/-- A name and the words after it, each behind blanks. -/
def command (inner : Rule Body) : Rule Body := do
  let name ← identifier
  let words ← many (do spaces; argument inner)
  pure (.command name words)

/-- A command or an expression, given the rule for the inside of a substitution. -/
def bodyOver (inner : Rule Body) : Rule Body :=
  orElse (command inner) (Body.expr <$> expr inner)

/-- A command or an expression whose substitutions nest less deeply than the given number. -/
def bodyWithin : Nat → Rule Body
  | 0, _ => ⟨none, .none⟩
  | n + 1, c => bodyOver (bodyWithin n) c

/-! ## Statements and programs -/

/-- `#` and the rest of the line. -/
def comment : Rule String := do
  mark .hash
  let text ← run isCommentary .commentary
  pure (String.ofList text)

/-- A statement, perhaps empty. -/
def statement (body : Rule Body) : Rule Statement := do
  skipSpaces
  let b ← optional body
  skipSpaces
  let note ← optional comment
  skipSpaces
  pure ⟨b, note⟩

/-- A line end or a semicolon. -/
def separator : Rule Unit :=
  orElse
    (do
      let _ ← optional (mark .carriageReturn)
      mark .lineFeed)
    (mark .semicolon)

/-- Statements up to where they stop, given the rule for their bodies. -/
def statements (body : Rule Body) : Rule (List Statement) := separated (statement body) separator

/-- A whole text of statements. -/
def programOver (body : Rule Body) : Rule (List Statement) := do
  let found ← statements body
  atEnd
  pure found

/-- A whole text that is one command or expression. -/
def expressionOver (body : Rule Body) : Rule Body := do
  skipSpaces
  let found ← body
  skipSpaces
  atEnd
  pure found

/-- Runs a rule on a whole text; a text that does not match leaves its refusals. -/
def runOn {α : Type} (rule : Rule Body → Rule α) (source : List Char) : Except Refusals α :=
  match rule (bodyWithin (source.length + 1)) (Cursor.start source) with
  | ⟨some (a, _), _⟩ => .ok a
  | ⟨none, refused⟩ => .error refused

/-- Reads a program. -/
def program (source : List Char) : Except Refusals (List Statement) := runOn programOver source

/-- Reads one command or expression. -/
def expression (source : List Char) : Except Refusals Body := runOn expressionOver source

end CommandShell.Grammar
