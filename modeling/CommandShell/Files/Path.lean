/-
# CommandShell.Files.Path -- the bytes of paths

Paths are joined and taken apart as bytes here, without a look at the files. Slashes in a row count
as one, and a trailing slash, or a trailing `.`, is no component of its own when the last name or
the directory of a path is asked for.
-/
import CommandShell.Text.Raw

namespace CommandShell.Files.Path

/-- The byte between the names of a path. -/
def slash : UInt8 := 0x2F

/-- The byte of which `.` and `..` are made. -/
def dot : UInt8 := 0x2E

/-- Whether a path starts at the root. -/
def isAbsolute (path : RawText) : Bool := path.bytes.head? == some slash

/-- A path seen from a directory: an absolute path stands for itself. -/
def join (directory path : RawText) : RawText :=
  if isAbsolute path then path
  else if directory.bytes.getLast?.all (· == slash) then ⟨directory.bytes ++ path.bytes⟩
  else ⟨directory.bytes ++ slash :: path.bytes⟩

/-- A path seen from a directory, where the empty path is the directory itself. -/
def absolute (directory path : RawText) : RawText :=
  if path.bytes.isEmpty then directory else join directory path

/-! ## Components -/

/-- Cuts bytes at their slashes. -/
def splitSlashes : List UInt8 → List (List UInt8)
  | [] => [[]]
  | b :: rest =>
    if b = slash then [] :: splitSlashes rest
    else match splitSlashes rest with
      | [] => [[b]]
      | part :: more => (b :: part) :: more

/-- One step of a walk along a path. -/
inductive Step where
  /-- Into the entry of that name. -/
  | into (name : RawText)
  /-- Nowhere, from a directory. -/
  | stay
  /-- To the directory above. -/
  | up
  /-- Nowhere; what was reached must be a directory. -/
  | directory
  deriving DecidableEq, Repr

/-- The step of a component, if it is not empty. -/
def stepOf (part : List UInt8) : Option Step :=
  if part = [] then none
  else if part = [dot] then some .stay
  else if part = [dot, dot] then some .up
  else some (.into ⟨part⟩)

/-- The steps of a path. A trailing slash asks for a directory. -/
def steps (path : RawText) : List Step :=
  (splitSlashes path.bytes).filterMap stepOf ++
    if path.bytes.getLast? == some slash then [.directory] else []

/-- The path through the given names, from the root. -/
def ofNames (names : List RawText) : RawText :=
  ⟨slash :: [slash].intercalate (names.map RawText.bytes)⟩

/-! ## Last name and directory -/

/-- Drops trailing slashes and trailing `.` components of bytes given from their end. -/
def trimBack : List UInt8 → List UInt8
  | [] => []
  | b :: rest =>
    if b = slash ∨ b = dot ∧ rest.head? = some slash then trimBack rest else b :: rest

/-- The last name of an absolute path; none for the root and for a path that ends in `..`. -/
def name? (path : RawText) : Option RawText :=
  let last := (trimBack path.bytes.reverse).takeWhile (· != slash)
  if last.isEmpty || last == [dot, dot] then none else some ⟨last.reverse⟩

/-- The directory of an absolute path; none for the root. -/
def parent? (path : RawText) : Option RawText :=
  let whole := trimBack path.bytes.reverse
  if whole.isEmpty then none
  else
    let above := trimBack (whole.dropWhile (· != slash))
    some (if above.isEmpty then "/" else ⟨above.reverse⟩)

example : name? "/a/b/./" = some (.ofText "b") ∧ parent? "/a/b/./" = some (.ofText "/a") := by
  decide
example : name? "/a/.." = none ∧ parent? "/a/.." = some (.ofText "/a") := by decide
example : name? "/" = none ∧ parent? "/" = none := by decide

end CommandShell.Files.Path
