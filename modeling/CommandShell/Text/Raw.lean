/-
# CommandShell.Text.Raw -- bytes that need not be a text

The file system takes bytes for names and paths, and they need not be UTF-8. Where such bytes are
shown, a replacement character stands for each stretch of them that is no character: for the bytes
that begin a character up to the one that does not go on with it, or for a byte that begins none.
-/

namespace CommandShell

/-- Bytes that are meant as a text. -/
structure RawText where
  bytes : List UInt8
  deriving DecidableEq, Repr

namespace RawText

/-- The bytes of a text. -/
def ofText (s : String) : RawText := ⟨s.toList.flatMap String.utf8EncodeChar⟩

instance : Coe String RawText := ⟨ofText⟩

/-! ## Reading characters -/

/-- What stands for bytes that are no character. -/
def replacement : Char := '\ufffd'

/-- The bytes that can come next, from the least to the greatest. -/
structure Span where
  least : Nat
  greatest : Nat
  deriving DecidableEq, Repr

/-- The bytes that go on with a character. -/
def Span.tail : Span := ⟨0x80, 0xBF⟩

/-- The bytes that go on behind the first one. Some are left out, as they would write a character in
more bytes than it takes, or write a number that is no character. -/
def Span.second (first : Nat) : Span :=
  if first = 0xE0 then ⟨0xA0, 0xBF⟩
  else if first = 0xED then ⟨0x80, 0x9F⟩
  else if first = 0xF0 then ⟨0x90, 0xBF⟩
  else if first = 0xF4 then ⟨0x80, 0x8F⟩
  else .tail

/-- What has been read of a character: the number its bytes make up, and the bytes that are still to
come. If none are to come, no character is begun. -/
structure Begun where
  number : Nat
  coming : List Span
  deriving DecidableEq, Repr

/-- No character is begun. -/
def Begun.nothing : Begun := ⟨0, []⟩

/-- What a byte begins that stands first. -/
def begin? (b : Nat) : Option Begun :=
  if b < 0x80 then some ⟨b, []⟩
  else if b < 0xC2 then none
  else if b < 0xE0 then some ⟨b % 0x20, [.tail]⟩
  else if b < 0xF0 then some ⟨b % 0x10, [.second b, .tail]⟩
  else if b < 0xF5 then some ⟨b % 0x08, [.second b, .tail, .tail]⟩
  else none

/-- The character, if it is complete. -/
def Begun.settle (p : Begun) : List Char × Begun :=
  if p.coming.isEmpty then ([Char.ofNat p.number], .nothing) else ([], p)

/-- Takes a byte that stands first. -/
def takeFirst (b : Nat) : List Char × Begun :=
  match begin? b with
  | some p => p.settle
  | none => ([replacement], .nothing)

/-- Takes a byte: the characters that are complete or given up with it, and what is begun then. -/
def Begun.take (p : Begun) (b : Nat) : List Char × Begun :=
  match p.coming with
  | [] => takeFirst b
  | span :: coming =>
    if span.least ≤ b ∧ b ≤ span.greatest then
      Begun.settle ⟨p.number * 0x40 + b % 0x40, coming⟩
    else (replacement :: (takeFirst b).1, (takeFirst b).2)

/-- The characters of bytes, behind what is begun. -/
def shownFrom (p : Begun) : List UInt8 → List Char
  | [] => if p.coming.isEmpty then [] else [replacement]
  | b :: rest => (p.take b.toNat).1 ++ shownFrom (p.take b.toNat).2 rest

/-- The bytes as a text, with replacements where they are none. -/
def shown (r : RawText) : String := String.ofList (shownFrom .nothing r.bytes)

example : shown ⟨[0x61, 0xE2, 0x82, 0xAC, 0xF0, 0x9F, 0x62, 0xFF, 0xE2, 0x82]⟩ =
    "a€\ufffdb\ufffd\ufffd" := by decide

end RawText

end CommandShell
