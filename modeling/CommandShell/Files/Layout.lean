/-
# CommandShell.Files.Layout -- building a tree entry by entry

Entries are added in order under a starting directory, each below a directory that is already
there. Adding asks the same permissions as a shell's own steps would: the directory must let its
owner write and search, and a file is opened for reading when its times are set. A starting
directory that was filled before is emptied first, and that asks permissions too.
-/
import CommandShell.Files.Walk

namespace CommandShell.Files

/-- An entry to add, by what it is to be. -/
inductive Item where
  | directory (data : DirectoryData)
  | file (data : FileData)
  | link (target : RawText)
  /-- One more name for the file at the given path. -/
  | alias (path : RawText)
  deriving DecidableEq, Repr

/-- An entry to add, by its path below the starting directory. -/
structure Entry where
  path : RawText
  item : Item
  deriving DecidableEq, Repr

namespace Tree

/-- The tree of the directories on the way to the given one, which are all alike. -/
def ofDirectory (names : List RawText) (data : DirectoryData) : Tree :=
  { entries := (List.range names.length).map (fun n => (names.take (n + 1), .directory data))
    root := data }

/-- The canonical directory that an entry goes into. -/
def place (t : Tree) (start : List RawText) (path : RawText) :
    Except Failure (List RawText × RawText) := do
  let (above, name) := splitLast path
  let (names, o) ←
    if above.bytes.isEmpty then t.find [] (Path.ofNames start) else t.find start above
  match o with
  | .directory data =>
    if ownerWrites data.mode && ownerSearches data.mode then return (names, name)
    else throw .permissionDenied
  | _ => throw .notDirectory
where
  /-- A path as what stands before its last slash and what stands behind it. -/
  splitLast (path : RawText) : RawText × RawText :=
    let back := path.bytes.reverse
    (⟨((back.dropWhile (· != Path.slash)).drop 1).reverse⟩,
      ⟨(back.takeWhile (· != Path.slash)).reverse⟩)

/-- The object of an item. -/
def objectOf (t : Tree) (start : List RawText) : Item → Except Failure Object
  | .directory data => .ok (.directory data)
  | .file data => if ownerReads data.mode then .ok (.file data) else .error .permissionDenied
  | .link target => .ok (.link target)
  | .alias path => do
    let (_, o) ← t.find start path
    return o

/-- Adds one entry. -/
def addEntry (t : Tree) (start : List RawText) (e : Entry) : Except Failure Tree := do
  let (directory, name) ← t.place start e.path
  let o ← t.objectOf start e.item
  return t.add (directory ++ [name]) o

/-- Adds entries in order, under the given starting directory, up to the first that fails. What was
added before stays. -/
def addEntries (t : Tree) (start : List RawText) : List Entry → Except Failure Unit × Tree
  | [] => (.ok (), t)
  | e :: rest =>
    match t.addEntry start e with
    | .ok next => addEntries next start rest
    | .error failure => (.error failure, t)

/-! ## Emptying a directory -/

/-- Whether a path leads below the given directory. -/
def isBelow (directory path : List RawText) : Bool :=
  directory.isPrefixOf path && directory.length < path.length

/-- Whether an object can be removed with all that is directly in it. A directory is read to find
its entries, and they are taken out of it one by one. -/
def isRemovable (t : Tree) (path : List RawText) : Object → Bool
  | .directory data =>
    ownerReads data.mode &&
      ((t.names path).isEmpty || (ownerWrites data.mode && ownerSearches data.mode))
  | _ => true

/-- The tree without all that is below a directory, if all of it can be removed. -/
def emptied (t : Tree) (directory : List RawText) : Except Failure Tree :=
  let below := t.entries.filter (fun e => isBelow directory e.1)
  if below.all (fun e => t.isRemovable e.1 e.2) then
    .ok { t with entries := t.entries.filter (fun e => !isBelow directory e.1) }
  else .error .permissionDenied

/-- Empties a starting directory and fills it with the given entries. If it cannot be emptied, all
stays as it is. -/
def refill (t : Tree) (start : List RawText) (entries : List Entry) : Except Failure Unit × Tree :=
  match t.emptied start with
  | .ok bare => bare.addEntries start entries
  | .error failure => (.error failure, t)

end Tree

end CommandShell.Files
