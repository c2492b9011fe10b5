/-
# CommandShell.Text.Lines -- a text as its lines

A line ends at a line feed, and one carriage return right before that line feed belongs to the
ending. What follows the last line feed is a line only if it is not empty, and a carriage return
that no line feed follows is part of its line.
-/

namespace CommandShell.Text

/-- The lines of a text, without their endings. -/
def splitLines : List Char → List (List Char)
  | [] => []
  | '\n' :: rest => [] :: splitLines rest
  | '\r' :: '\n' :: rest => [] :: splitLines rest
  | c :: rest =>
    match splitLines rest with
    | [] => [[c]]
    | line :: more => (c :: line) :: more

/-- The lines of a string, without their endings. -/
def lines (s : String) : List String := (splitLines s.toList).map String.ofList

example : lines "a\r\nb\n\nc\r" = ["a", "b", "", "c\r"] := by decide

end CommandShell.Text
