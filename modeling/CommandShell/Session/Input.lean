/-
# CommandShell.Session.Input -- lines of bytes

Input comes as bytes and is taken line by line: up to and including a line feed, or up to the end.
A line must be UTF-8 text, and loses all the line feeds and carriage returns at its end.
-/

namespace CommandShell.Input

/-- The byte that ends a line. -/
def lineFeed : UInt8 := 10

/-- Cuts bytes behind each line feed; what follows the last one counts if it is not empty. -/
def chunks : List UInt8 → List (List UInt8)
  | [] => []
  | b :: rest =>
    if b = lineFeed then [b] :: chunks rest
    else match chunks rest with
      | [] => [[b]]
      | chunk :: more => (b :: chunk) :: more

/-- Drops the line feeds and carriage returns at the end of a line. -/
def trimEnding (line : List Char) : List Char :=
  (line.reverse.dropWhile (fun c => c == '\n' || c == '\r')).reverse

/-- The text of a line, if it is one. -/
def decode? (chunk : List UInt8) : Option String :=
  (String.fromUTF8? ⟨chunk.toArray⟩).map (fun s => String.ofList (trimEnding s.toList))

/-- The lines of the input; one that is no text is missing. -/
def lines (bytes : List UInt8) : List (Option String) := (chunks bytes).map decode?

end CommandShell.Input
