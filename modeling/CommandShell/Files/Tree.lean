/-
# CommandShell.Files.Tree -- the files a shell can see

A tree maps canonical paths, given as the names from the root, to objects. It never changes while
the shell runs. A file with several names is several entries that carry one inode number. The shell
acts as the owner of every entry, so of the permission bits only the owner's are asked.
-/
import CommandShell.Files.CivilTime
import CommandShell.Files.Failure
import CommandShell.Text.Raw

namespace CommandShell.Files

/-- What is kept about a file or directory besides what it holds. A time that the file system does
not keep is missing. -/
structure Attributes where
  /-- The permission bits. -/
  mode : Nat
  inode : Nat := 0
  accessed : Option Moment := none
  modified : Option Moment := none
  created : Option Moment := none
  deriving DecidableEq, Repr

/-- The permissions of directories that nothing is said about. -/
def usualMode : Nat := 0o755

/-- What is known of a plain file. -/
structure FileData extends Attributes where
  /-- How many bytes the file holds. -/
  size : Nat
  /-- The text the bytes make up, if they are UTF-8. -/
  text : Option String
  deriving DecidableEq, Repr

/-- The file with the given bytes. -/
def FileData.ofBytes (bytes : List UInt8) (about : Attributes) : FileData :=
  ⟨about, bytes.length, String.fromUTF8? ⟨bytes.toArray⟩⟩

/-- What is known of a directory. What it holds are the entries below it; its size and the number of
its names are the file system's own affair. -/
structure DirectoryData extends Attributes where
  size : Nat := 0
  links : Nat := 2
  deriving DecidableEq, Repr

/-- What a path leads to. -/
inductive Object where
  | directory (data : DirectoryData)
  | file (data : FileData)
  | link (target : RawText)
  deriving DecidableEq, Repr

/-- The files, by canonical path. -/
structure Tree where
  entries : List (List RawText × Object)
  root : DirectoryData := { mode := usualMode }
  /-- How many seconds local time is ahead of universal time, at each second since the start of
  1970. -/
  ahead : Int → Int := fun _ => 0

/-! ## Permissions -/

/-- Whether the owner may read. -/
def ownerReads (mode : Nat) : Bool := mode / 0o400 % 2 == 1

/-- Whether the owner may write. -/
def ownerWrites (mode : Nat) : Bool := mode / 0o200 % 2 == 1

/-- Whether the owner may search a directory. -/
def ownerSearches (mode : Nat) : Bool := mode / 0o100 % 2 == 1

namespace Tree

/-- The tree of the root alone. -/
def empty : Tree := { entries := [] }

/-- The object at a canonical path. The root is always a directory. -/
def object? (t : Tree) (path : List RawText) : Option Object :=
  if path.isEmpty then some (.directory t.root) else t.entries.lookup path

/-- Adds an object. -/
def add (t : Tree) (path : List RawText) (o : Object) : Tree :=
  { t with entries := t.entries ++ [(path, o)] }

/-- The name of an entry of the given directory; none for entries elsewhere. -/
def nameIn? (directory path : List RawText) : Option RawText :=
  if path.dropLast = directory then path.getLast? else none

/-- The names in a directory, in the order in which they were added. -/
def names (t : Tree) (directory : List RawText) : List RawText :=
  t.entries.filterMap (fun e => nameIn? directory e.1)

/-- How many names the file with the given inode number has. -/
def links (t : Tree) (inode : Nat) : Nat :=
  t.entries.countP (fun e => match e.2 with
    | .file data => data.inode == inode
    | _ => false)

end Tree

end CommandShell.Files
