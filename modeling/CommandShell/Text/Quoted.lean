/-
# CommandShell.Text.Quoted -- texts shown between quotes

A quoted text stands on one line and shows every character: quotes and backslashes are marked by a
backslash, the common controls have their letter, and other characters that do not show on their own
are written by their code.
-/
import CommandShell.Text.Hidden

namespace CommandShell.Text

/-- A number in base sixteen. -/
def hexText (n : Nat) : String := String.ofList (Nat.toDigits 16 n)

/-- A character inside quotes. -/
def quoteChar : Char → String
  | '\x00' => "\\0"
  | '\t' => "\\t"
  | '\r' => "\\r"
  | '\n' => "\\n"
  | '\\' => "\\\\"
  | '"' => "\\\""
  | c => if isHidden c then "\\u\x7b" ++ hexText c.toNat ++ "\x7d" else c.toString

/-- A text between quotes. -/
def inQuotes (s : String) : String := "\"" ++ String.join (s.toList.map quoteChar) ++ "\""

example : inQuotes "a\"b\té\u200b" = "\"a\\\"b\\té\\u\x7b200b\x7d\"" := by decide +kernel

end CommandShell.Text
