/-
# CommandShell.Files.Status -- what is told about a file

A status is nine lines: the last name and the directory of the path that was asked for, and what is
kept about the object it leads to. Times are told in local time.
-/
import CommandShell.Files.Walk

namespace CommandShell.Files

/-- What is told about an object. -/
structure Status where
  name : String
  directory : String
  size : Nat
  /-- The type bits and the permission bits. -/
  mode : Nat
  inode : Nat
  links : Nat
  accessed : Option Moment
  modified : Option Moment
  created : Option Moment
  deriving DecidableEq, Repr

/-- The type bits of a plain file. -/
def fileBits : Nat := 0x8000

/-- The type bits of a directory. -/
def directoryBits : Nat := 0x4000

namespace Status

/-- A mode in base sixteen, with capital letters. -/
def modeText (mode : Nat) : String :=
  "0x" ++ String.ofList ((Nat.toDigits 16 mode).map Char.toUpper)

/-- A time, if the file system keeps it. -/
def timeText (ahead : Int → Int) : Option Moment → String
  | some t => t.text (ahead t.seconds)
  | none => "unavailable"

/-- The lines of a status, where it is known how far local time is ahead. -/
def lines (s : Status) (ahead : Int → Int) : List String :=
  [ "Name: " ++ s.name,
    "Directory: " ++ s.directory,
    "Size: " ++ toString s.size,
    "Mode: " ++ modeText s.mode,
    "Inode: " ++ toString s.inode,
    "Links: " ++ toString s.links,
    "Accessed: " ++ timeText ahead s.accessed,
    "Modified: " ++ timeText ahead s.modified,
    "Created: " ++ timeText ahead s.created ]

end Status

/-- A part of a path as a text; nothing if the path has no such part. -/
def partText (part : Option RawText) : String := (part.map RawText.shown).getD ""

/-- The status of what an absolute path leads to. -/
def Tree.status (t : Tree) (path : RawText) : Except Failure Status := do
  let told (about : Attributes) (bits size links : Nat) : Status :=
    { name := partText (Path.name? path)
      directory := partText (Path.parent? path)
      size := size
      mode := bits + about.mode
      inode := about.inode
      links := links
      accessed := about.accessed
      modified := about.modified
      created := about.created }
  match ← t.find [] path with
  | (_, .file data) => return told data.toAttributes fileBits data.size (t.links data.inode)
  | (_, .directory data) => return told data.toAttributes directoryBits data.size data.links
  | (_, .link _) => throw .tooManyLinks

end CommandShell.Files
