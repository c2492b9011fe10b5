/-
# CommandShell.Text.Position -- where in a text something stands

Readers count characters consumed; people count lines and columns, both from one. A line feed
ends its line and every other character is one column wide.
-/

namespace CommandShell.Text

/-- A place in a text as people count it. -/
structure Position where
  line : Nat
  column : Nat
  deriving DecidableEq, Repr

namespace Position

/-- The place of a text's first character. -/
def start : Position := ⟨1, 1⟩

/-- The place after one more character. -/
def step (p : Position) (c : Char) : Position :=
  if c = '\n' then ⟨p.line + 1, 1⟩ else ⟨p.line, p.column + 1⟩

/-- The place right after a text. -/
def after (text : List Char) : Position := text.foldl step start

/-- The place of the character with the given offset. -/
def ofOffset (text : List Char) (offset : Nat) : Position := after (text.take offset)

end Position

/-- How many bytes the first characters of a text take in UTF-8. -/
def byteOffset (text : List Char) (offset : Nat) : Nat :=
  (text.take offset).foldl (fun n c => n + c.utf8Size) 0

example : Position.ofOffset "ab\ncé".toList 5 = ⟨2, 3⟩ := by decide
example : byteOffset "aé".toList 2 = 3 := by decide

end CommandShell.Text
