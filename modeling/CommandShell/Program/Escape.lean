/-
# CommandShell.Program.Escape -- backslash escapes in text

Known escapes are `\n`, `\t`, `\r`, `\0`, `\\`, `\$`, `\"`, `\xHH` and `\u{H...}`. A backslash that
starts none of them is kept, and decoding goes on with the very next character. The two characters
of `\xHH` are read as a number in base sixteen, where a leading `+` counts as a sign.
-/
import CommandShell.Decimal.Reading

namespace CommandShell.Escape

/-- The value of a digit in base sixteen. -/
def hexValue? (c : Char) : Option Nat :=
  if '0' ≤ c && c ≤ '9' then some (c.toNat - '0'.toNat)
  else if 'a' ≤ c && c ≤ 'f' then some (c.toNat - 'a'.toNat + 10)
  else if 'A' ≤ c && c ≤ 'F' then some (c.toNat - 'A'.toNat + 10)
  else none

/-- The value of a run of digits in base sixteen. -/
def hexNumber? (digits : List Char) : Option Nat :=
  digits.foldl (fun n c => do return 16 * (← n) + (← hexValue? c)) (some 0)

/-- The character of a two-character code. -/
def ofPair? : Char → Char → Option Char
  | '+', d => (hexValue? d).map Char.ofNat
  | c, d => (hexNumber? [c, d]).map Char.ofNat

/-- The character with the given code, if the code names one. -/
def ofCode? (n : Nat) : Option Char := if n.isValidChar then some (Char.ofNat n) else none

/-- The character of a braced code, given what follows the opening brace, and how many characters
the code and the closing brace take. -/
def ofBraced? (text : List Char) : Option (Char × Nat) :=
  let digits := text.takeWhile (fun c => (hexValue? c).isSome)
  if digits.isEmpty || 6 < digits.length || (text.drop digits.length).head? != some '\x7d' then none
  else do
    let code ← hexNumber? digits
    let c ← ofCode? code
    return (c, digits.length + 1)

/-- The character an escape stands for, given what follows the backslash, and how many characters
follow the backslash in it. -/
def decode? : List Char → Option (Char × Nat)
  | 'n' :: _ => some ('\n', 1)
  | 't' :: _ => some ('\t', 1)
  | 'r' :: _ => some ('\r', 1)
  | '0' :: _ => some ('\x00', 1)
  | '\\' :: _ => some ('\\', 1)
  | '$' :: _ => some ('$', 1)
  | '"' :: _ => some ('"', 1)
  | 'x' :: c :: d :: _ => (ofPair? c d).map (·, 3)
  | 'u' :: '\x7b' :: rest => (ofBraced? rest).map (fun (c, n) => (c, n + 2))
  | _ => none

/-- Decodes a text, skipping the given number of characters that belong to an escape already
decoded. -/
def decodeFrom : Nat → List Char → List Char
  | _, [] => []
  | skip + 1, _ :: rest => decodeFrom skip rest
  | 0, c :: rest =>
    if c = '\\' then
      match decode? rest with
      | some (d, n) => d :: decodeFrom n rest
      | none => '\\' :: decodeFrom 0 rest
    else c :: decodeFrom 0 rest

/-- Decodes the escapes of a text. -/
def unescape (s : String) : String := String.ofList (decodeFrom 0 s.toList)

example : unescape "a\\tb\\x41\\u\x7be9\x7d\\q\\" = "a\tbAé\\q\\" := by decide

end CommandShell.Escape
