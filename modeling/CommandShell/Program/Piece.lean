/-
# CommandShell.Program.Piece -- strings cut at their substitutions

A string is text with substitutions in it: `$name`, `${name}` and `$( ... )` with balanced
parentheses. A `$` that starts no complete substitution is text, and so is a character behind a
backslash, together with the backslash. Cutting looks at each position once: it either takes a
whole substitution or one step of text.
-/
import CommandShell.Grammar.Alphabet

namespace CommandShell

open Grammar (isNameStart isNameRest)

/-- A piece of a string, as it was written. -/
inductive Piece where
  | text (raw : String)
  | span (raw : String)
  deriving DecidableEq, Repr

namespace Piece

/-! ## Complete substitutions -/

/-- How many characters lie up to and including the parenthesis that closes the last of `depth + 1`
open ones; none if the text ends before. -/
def closing? : Nat → List Char → Option Nat
  | _, [] => none
  | depth, '(' :: rest => (closing? (depth + 1) rest).map (· + 1)
  | 0, ')' :: _ => some 1
  | depth + 1, ')' :: rest => (closing? depth rest).map (· + 1)
  | depth, _ :: rest => (closing? depth rest).map (· + 1)

/-- The length of a name at the start of a text; none if there is no name. -/
def nameLength? : List Char → Option Nat
  | [] => none
  | c :: rest => if isNameStart c then some ((rest.takeWhile isNameRest).length + 1) else none

/-- The length of a braced name behind its opening brace, with the closing one. -/
def bracedLength? (text : List Char) : Option Nat :=
  match nameLength? text with
  | none => none
  | some n => if (text.drop n).head? = some '\x7d' then some (n + 1) else none

/-- The length of the complete substitution at the start of a text, if there is one. -/
def spanLength? : List Char → Option Nat
  | '$' :: '(' :: rest => (closing? 0 rest).map (· + 2)
  | '$' :: '\x7b' :: rest => (bracedLength? rest).map (· + 2)
  | '$' :: rest => (nameLength? rest).map (· + 1)
  | _ => none

/-! ## Cutting -/

/-- A cut text, still as characters. -/
inductive Cut where
  | text (raw : List Char)
  | span (raw : List Char)
  deriving DecidableEq, Repr

/-- Puts characters of text in front of cut pieces. -/
def prependText (raw : List Char) : List Cut → List Cut
  | .text more :: rest => .text (raw ++ more) :: rest
  | cuts => .text raw :: cuts

/-- Cuts a text, skipping the given number of characters that belong to a piece already made. -/
def cutFrom : Nat → List Char → List Cut
  | _, [] => []
  | skip + 1, _ :: rest => cutFrom skip rest
  | 0, '\\' :: d :: rest => prependText ['\\', d] (cutFrom 0 rest)
  | 0, c :: rest =>
    match spanLength? (c :: rest) with
    | some n => .span ((c :: rest).take n) :: cutFrom (n - 1) rest
    | none => prependText [c] (cutFrom 0 rest)

/-- Cuts a text into text and complete substitutions. -/
def cut (raw : List Char) : List Cut := cutFrom 0 raw

/-- The piece of a cut. -/
def ofCut : Cut → Piece
  | .text raw => .text (String.ofList raw)
  | .span raw => .span (String.ofList raw)

/-- The pieces of a string. -/
def split (raw : String) : List Piece := (cut raw.toList).map ofCut

example : split "a$x b$\x7by\x7dc" =
    [.text "a", .span "$x", .text " b", .span "$\x7by\x7d", .text "c"] := by
  decide
example : split "<$(echo (hi) there)>\\$z $" =
    [.text "<", .span "$(echo (hi) there)", .text ">\\$z $"] := by
  decide

end Piece

end CommandShell
