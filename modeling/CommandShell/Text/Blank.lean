/-
# CommandShell.Text.Blank -- blank characters, and texts that hold nothing else

Input that is blank from end to end is skipped by a session, and a text whose only line breaks
stand in its blank tail counts as a single line. Both tests use the Unicode property White_Space;
the grammar's own blanks (space and tab) are a smaller class and live with the grammar.
-/

namespace CommandShell.Text

/-- The characters of the Unicode property White_Space. -/
def isBlank (c : Char) : Bool :=
  let n := c.toNat
  (0x09 ≤ n && n ≤ 0x0D) || n == 0x20 || n == 0x85 || n == 0xA0 || n == 0x1680 ||
    (0x2000 ≤ n && n ≤ 0x200A) || n == 0x2028 || n == 0x2029 || n == 0x202F || n == 0x205F ||
    n == 0x3000

/-- Every character that core counts as whitespace is blank here. -/
theorem isBlank_of_isWhitespace {c : Char} (h : c.isWhitespace = true) : isBlank c = true := by
  simp only [Char.isWhitespace, Bool.or_eq_true, decide_eq_true_eq] at h
  rcases h with ((rfl | rfl) | rfl) | rfl <;> decide

/-- Whether a text holds no character that shows. -/
def isAllBlank (s : String) : Bool := s.toList.all isBlank

/-- Whether a line break stands before some character that shows. Line breaks in the blank tail
of a text do not count. -/
def breaksInside : List Char → Bool
  | [] => false
  | c :: rest => (c == '\n' && rest.any (fun d => !isBlank d)) || breaksInside rest

end CommandShell.Text
