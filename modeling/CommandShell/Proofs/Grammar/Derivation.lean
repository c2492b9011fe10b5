/-
# CommandShell.Proofs.Grammar.Derivation -- the language as an unordered grammar

The rules of `CommandShell.Grammar.Rules` commit to the first alternative that matches and take as
much as they can. This module says the same language without any order: which texts spell which
trees, by concatenation alone. A text may be cut in any way that the productions allow, and nothing
is said about which alternative is tried first.

Three side conditions are all that is left of the order:

* a lone expression is not an unquoted string that could be the name of a command;
* a comment extends to the end of its line;
* an integer is one that 64 bits can hold.

A floating-point literal has the value that `Binary64.ofText?` reads from its own text.
-/
import CommandShell.Grammar.Rules

namespace CommandShell.Grammar

open Decimal (isDigit)

/-! ## Words -/

/-- Blanks, perhaps none. -/
def Blanks (u : List Char) : Prop := ∀ c ∈ u, isSpace c = true

/-- One character of the first class and any number of the second. -/
inductive Run (first more : Char → Bool) : List Char → Prop
  | mk {c : Char} {u : List Char} :
      first c = true → (∀ d ∈ u, more d = true) → Run first more (c :: u)

/-- The texts of names. -/
def NameText : List Char → Prop := Run isNameStart isNameRest

/-- The texts of unquoted strings. -/
def BareText : List Char → Prop := Run isBareStart isBareRest

/-! ## Numbers -/

/-- Decimal digits, at least one. -/
def DigitsText : List Char → Prop := Run isDigit isDigit

/-- An optional sign, and whether it is a minus. -/
inductive SignText : List Char → Bool → Prop
  | absent : SignText [] false
  | plus : SignText ['+'] false
  | minus : SignText ['-'] true

/-- A mark, an optional sign and digits. -/
inductive PowerText : List Char → Prop
  | mk {c : Char} {s ds : List Char} {negative : Bool} :
      isPowerMark c = true → SignText s negative → DigitsText ds → PowerText (c :: (s ++ ds))

/-- An optional sign, digits, a point, digits, and perhaps a power of ten. -/
inductive FloatText : List Char → Prop
  | mk {s whole fraction power : List Char} {negative : Bool} :
      SignText s negative → DigitsText whole → DigitsText fraction →
      (power = [] ∨ PowerText power) →
      FloatText (s ++ (whole ++ '.' :: (fraction ++ power)))

/-! ## Expressions and commands -/

/-- Whether an expression is an unquoted string that starts as the name of a command does. -/
def Expr.startsName : Expr → Bool
  | .bare raw => raw.toList.head?.any isNameStart
  | _ => false

mutual

/-- The texts of commands and lone expressions. -/
inductive BodyText : List Char → Body → Prop
  | command {u v : List Char} {words : List Argument} :
      NameText u → WordsText v words → BodyText (u ++ v) (.command (String.ofList u) words)
  | expr {u : List Char} {e : Expr} :
      ExprText u e → e.startsName = false → BodyText u (.expr e)

/-- The texts of the words of a command, each behind at least one blank. -/
inductive WordsText : List Char → List Argument → Prop
  | nil : WordsText [] []
  | cons {b u v : List Char} {a : Argument} {rest : List Argument} :
      Blanks b → b ≠ [] → WordText u a → WordsText v rest →
      WordsText (b ++ u ++ v) (a :: rest)

/-- The texts of a word of a command. -/
inductive WordText : List Char → Argument → Prop
  | long {u : List Char} :
      NameText u → WordText ('-' :: '-' :: u) (.flag (String.ofList u) true)
  | short {u : List Char} :
      NameText u → WordText ('-' :: u) (.flag (String.ofList u) false)
  | expr {u : List Char} {e : Expr} : ExprText u e → WordText u (.expr e)

/-- The texts of words that stand for values. -/
inductive ExprText : List Char → Expr → Prop
  | braced {u : List Char} :
      NameText u → ExprText ('$' :: '\x7b' :: (u ++ ['\x7d'])) (.variable (String.ofList u))
  | named {u : List Char} :
      NameText u → ExprText ('$' :: u) (.variable (String.ofList u))
  | substitution {a u b : List Char} {inner : Body} :
      Blanks a → BodyText u inner → Blanks b →
      ExprText ('$' :: '(' :: (a ++ u ++ b ++ [')'])) (.substitution inner)
  | quoted {u : List Char} :
      (∀ c ∈ u, isQuotable c = true) → ExprText ('"' :: (u ++ ['"'])) (.quoted (String.ofList u))
  | bare {u : List Char} : BareText u → ExprText u (.bare (String.ofList u))
  | integer {s ds : List Char} {negative : Bool} {value : Int64} :
      SignText s negative → DigitsText ds →
      value.toInt = signed negative (ds.foldl Decimal.putDigit 0) →
      ExprText (s ++ ds) (.integer value)
  | float {u : List Char} {value : Binary64} :
      FloatText u → Binary64.ofText? (String.ofList u) = some value → ExprText u (.float value)

end

/-! ## Statements and programs -/

/-- Nothing, or a text of the given kind. -/
inductive Optionally {α : Type} (P : List Char → α → Prop) : List Char → Option α → Prop
  | absent : Optionally P [] none
  | present {u : List Char} {a : α} : P u a → Optionally P u (some a)

/-- The texts of comments. -/
inductive CommentText : List Char → String → Prop
  | mk {u : List Char} :
      (∀ c ∈ u, isCommentary c = true) → CommentText ('#' :: u) (String.ofList u)

/-- Whether a line ends here: the text does, or a line break follows. -/
def AtLineEnd (rest : List Char) : Prop := ∀ c ∈ rest.head?, c = '\n' ∨ c = '\r'

/-- The texts of statements, given the text that follows. -/
inductive StatementText (follow : List Char) : List Char → Statement → Prop
  | mk {a u b v c : List Char} {body : Option Body} {note : Option String} :
      Blanks a → Optionally BodyText u body → Blanks b → Optionally CommentText v note →
      Blanks c → (note.isSome = true → AtLineEnd (c ++ follow)) →
      StatementText follow (a ++ u ++ b ++ v ++ c) ⟨body, note⟩

/-- The texts between two statements. -/
inductive SeparatorText : List Char → Prop
  | lineFeed : SeparatorText ['\n']
  | carriageReturn : SeparatorText ['\r', '\n']
  | semicolon : SeparatorText [';']

/-- The texts of programs. -/
inductive ProgramText : List Char → List Statement → Prop
  | last {u : List Char} {s : Statement} : StatementText [] u s → ProgramText u [s]
  | next {u sep v : List Char} {s : Statement} {rest : List Statement} :
      StatementText (sep ++ v) u s → SeparatorText sep → ProgramText v rest →
      ProgramText (u ++ (sep ++ v)) (s :: rest)

/-- The texts that are one command or expression between blanks. -/
inductive LoneText : List Char → Body → Prop
  | mk {a u b : List Char} {body : Body} :
      Blanks a → BodyText u body → Blanks b → LoneText (a ++ u ++ b) body

end CommandShell.Grammar
