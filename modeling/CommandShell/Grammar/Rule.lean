/-
# CommandShell.Grammar.Rule -- ordered-choice rules that remember where they got stuck

A `Rule` reads from a `Cursor`. It either fails or returns a value with the cursor behind what it
took, and in both cases it reports its refusals: the furthest offset at which some terminal did not
match, with the terminals tried there. Choices commit to the first alternative that matches, and
repetitions take as much as they can. Nothing is ever retried, so a rule is a function.

Refusals are kept even when the rule as a whole matches: the end of a run of digits is also a place
where one more digit would have been taken.
-/
import CommandShell.Grammar.Alphabet

namespace CommandShell.Grammar

/-- What is left to read, and how many characters were read before it. -/
structure Cursor where
  offset : Nat
  rest : List Char
  deriving DecidableEq, Repr

namespace Cursor

/-- The cursor at the start of a text. -/
def start (source : List Char) : Cursor := ⟨0, source⟩

/-- The cursor behind the longest run of characters that satisfy the test. -/
def skipWhile (p : Char → Bool) (c : Cursor) : Cursor :=
  ⟨c.offset + (c.rest.takeWhile p).length, c.rest.dropWhile p⟩

end Cursor

/-! ## Refusals -/

/-- The furthest offset at which a terminal did not match, and the terminals tried there. -/
structure Refusals where
  offset : Nat
  expected : List Expected
  deriving DecidableEq, Repr

namespace Refusals

/-- Nothing was refused. -/
def none : Refusals := ⟨0, []⟩

/-- Keeps the refusals that reach further; at one offset, both. -/
def merge (a b : Refusals) : Refusals :=
  if a.offset < b.offset then b
  else if b.offset < a.offset then a
  else ⟨a.offset, a.expected ++ b.expected⟩

@[simp] theorem merge_none (a : Refusals) : a.merge none = a := by
  rcases a with ⟨_ | n, es⟩ <;> simp [merge, none]

@[simp] theorem none_merge (a : Refusals) : none.merge a = a := by
  rcases a with ⟨_ | n, es⟩ <;> simp [merge, none]

theorem offset_merge (a b : Refusals) : (a.merge b).offset = max a.offset b.offset := by
  unfold merge
  split
  · omega
  · split
    · omega
    · simp only []
      omega

end Refusals

/-- The outcome of trying a rule at a cursor. -/
structure Attempt (α : Type) where
  result : Option (α × Cursor)
  refusals : Refusals

/-- A rule of the grammar. -/
def Rule (α : Type) : Type := Cursor → Attempt α

namespace Rule

variable {α β : Type}

/-! ## Combinators -/

/-- Takes nothing. -/
protected def pure (a : α) : Rule α := fun c => ⟨some (a, c), .none⟩

/-- One rule, then another that may depend on what the first returned. -/
protected def bind (p : Rule α) (f : α → Rule β) : Rule β := fun c =>
  match p c with
  | ⟨none, refused⟩ => ⟨none, refused⟩
  | ⟨some (a, next), refused⟩ =>
    let after := f a next
    ⟨after.result, refused.merge after.refusals⟩

instance : Monad Rule where
  pure := Rule.pure
  bind := Rule.bind

/-- Fails and reports the terminal that was wanted here. -/
def refuse (e : Expected) : Rule α := fun c => ⟨none, ⟨c.offset, [e]⟩⟩

/-- The first rule, or the second where the first fails. -/
def orElse (p q : Rule α) : Rule α := fun c =>
  match p c with
  | ⟨some r, refused⟩ => ⟨some r, refused⟩
  | ⟨none, refused⟩ =>
    let other := q c
    ⟨other.result, refused.merge other.refusals⟩

/-- The rule if it matches, and otherwise nothing. -/
def optional (p : Rule α) : Rule (Option α) := fun c =>
  match p c with
  | ⟨some (a, next), refused⟩ => ⟨some (some a, next), refused⟩
  | ⟨none, refused⟩ => ⟨some (none, c), refused⟩

/-- Matches in a row, at most one more than the bound is long. -/
def manyAlong (p : Rule α) (bound : List Char) : Rule (List α) := fun c =>
  match p c with
  | ⟨none, refused⟩ => ⟨some ([], c), refused⟩
  | ⟨some (a, next), refused⟩ =>
    match bound with
    | [] => ⟨some ([a], next), refused⟩
    | _ :: shorter =>
      let more := manyAlong p shorter next
      ⟨more.result.map (fun (as, last) => (a :: as, last)), refused.merge more.refusals⟩

/-- As many matches in a row as there are. Each match of the rules used here takes at least one
character, so the text that is left to read is bound enough. -/
def many (p : Rule α) : Rule (List α) := fun c => manyAlong p c.rest c

/-- As many matches as there are, with a separator between any two. -/
def separated (p : Rule α) (separator : Rule Unit) : Rule (List α) :=
  orElse
    (do
      let first ← p
      let more ← many (do separator; p)
      pure (first :: more))
    (pure [])

/-- Requires the end of the text; reports nothing. -/
def atEnd : Rule Unit := fun c => ⟨if c.rest.isEmpty then some ((), c) else none, .none⟩

/-! ## Terminals -/

/-- A fixed text. -/
def mark (m : Mark) : Rule Unit := fun c =>
  if m.chars.isPrefixOf c.rest then
    ⟨some ((), ⟨c.offset + m.chars.length, c.rest.drop m.chars.length⟩), .none⟩
  else refuse (.mark m) c

/-- One character of a class. -/
def oneOf (p : Char → Bool) (e : Expected) : Rule Char := fun c =>
  match c.rest with
  | [] => refuse e c
  | ch :: rest => if p ch then ⟨some (ch, ⟨c.offset + 1, rest⟩), .none⟩ else refuse e c

/-- The longest run of characters of a class, perhaps empty; its end refused one more. -/
def run (p : Char → Bool) (e : Expected) : Rule (List Char) := fun c =>
  let next := c.skipWhile p
  ⟨some (c.rest.takeWhile p, next), ⟨next.offset, [e]⟩⟩

/-- The longest run of characters of a class, at least one; its end refused one more. -/
def run1 (p : Char → Bool) (e : Expected) : Rule (List Char) := do
  let first ← oneOf p e
  let more ← run p e
  pure (first :: more)

/-- A word: one starting character and the longest run of following ones. Only its absence is
reported. -/
def word (start more : Char → Bool) (e : Expected) : Rule String := fun c =>
  match c.rest with
  | [] => refuse e c
  | ch :: rest =>
    if start ch then
      ⟨some (String.ofList (ch :: rest.takeWhile more),
        Cursor.skipWhile more ⟨c.offset + 1, rest⟩), .none⟩
    else refuse e c

/-- Skips blanks, perhaps none; reports nothing. -/
def skipSpaces : Rule Unit := fun c => ⟨some ((), c.skipWhile isSpace), .none⟩

/-- Skips blanks, at least one; reports nothing. -/
def spaces : Rule Unit := fun c =>
  let next := c.skipWhile isSpace
  ⟨if next.offset = c.offset then none else some ((), next), .none⟩

end Rule

end CommandShell.Grammar
