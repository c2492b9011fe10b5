/-
# CommandShell.Files.Walk -- following a path

A walk goes from directory to directory. A link met on the way is replaced by the steps of its
target, at most forty times in one walk. Each step out of a directory, even one that stays, asks
whether the directory may be searched.
-/
import CommandShell.Files.Path
import CommandShell.Files.Tree

namespace CommandShell.Files

open CommandShell.Files.Path (Step)

/-- How many links a walk follows. -/
def maxLinks : Nat := 40

/-- How many bytes a name may have. -/
def maxNameBytes : Nat := 255

/-- How many bytes a path may have. -/
def maxPathBytes : Nat := 4095

/-- Where the steps of a link's target start. -/
def linkStart (here : List RawText) (target : RawText) : List RawText :=
  if Path.isAbsolute target then [] else here

namespace Tree

/-- Walks along steps. What happens at a link is given: it gets the directory the link stands in,
the target, and the steps that remain. -/
def walkOver (t : Tree)
    (follow : List RawText → RawText → List Step → Except Failure (List RawText)) :
    List RawText → List Step → Except Failure (List RawText)
  | here, [] => .ok here
  | here, step :: rest =>
    match t.object? here with
    | some (.directory data) =>
      if step = .directory then walkOver t follow here rest
      else if !ownerSearches data.mode then .error .permissionDenied
      else match step with
        | .stay | .directory => walkOver t follow here rest
        | .up => walkOver t follow here.dropLast rest
        | .into name =>
          if maxNameBytes < name.bytes.length then .error .nameTooLong
          else match t.object? (here ++ [name]) with
            | none => .error .noEntry
            | some (.link target) => follow here target rest
            | some _ => walkOver t follow (here ++ [name]) rest
    | _ => .error .notDirectory

/-- Walks along steps through at most the given number of links. -/
def walkWithin (t : Tree) : Nat → List RawText → List Step → Except Failure (List RawText)
  | 0 => t.walkOver (fun _ _ _ => .error .tooManyLinks)
  | n + 1 => t.walkOver (fun here target rest =>
      walkWithin t n (linkStart here target) (Path.steps target ++ rest))

/-- The canonical path of what a path leads to, seen from a canonical directory. -/
def resolve (t : Tree) (here : List RawText) (path : RawText) : Except Failure (List RawText) :=
  if path.bytes.contains 0 then .error .nulInPath
  else if path.bytes.isEmpty then .error .noEntry
  else if maxPathBytes < path.bytes.length then .error .nameTooLong
  else t.walkWithin maxLinks (linkStart here path) (Path.steps path)

/-- The object a path leads to, with its canonical path. -/
def find (t : Tree) (here : List RawText) (path : RawText) :
    Except Failure (List RawText × Object) := do
  let names ← t.resolve here path
  match t.object? names with
  | some o => return (names, o)
  | none => throw .noEntry

/-- The names in the directory an absolute path leads to. -/
def list (t : Tree) (path : RawText) : Except Failure (List RawText) := do
  match ← t.find [] path with
  | (names, .directory data) =>
    if ownerReads data.mode then return t.names names else throw .permissionDenied
  | _ => throw .notDirectory

/-- The canonical path of the directory an absolute path leads to. -/
def enter (t : Tree) (path : RawText) : Except Failure RawText := do
  match ← t.find [] path with
  | (names, .directory _) => return Path.ofNames names
  | _ => throw .plainFile

/-- The text of the file a path leads to, seen from a canonical directory. -/
def read (t : Tree) (here : List RawText) (path : RawText) : Except Failure String := do
  match ← t.find here path with
  | (_, .file data) =>
    if !ownerReads data.mode then throw .permissionDenied
    else match data.text with
      | some text => return text
      | none => throw .notText
  | (_, .directory data) =>
    if ownerReads data.mode then throw .isDirectory else throw .permissionDenied
  | (_, .link _) => throw .tooManyLinks

end Tree

end CommandShell.Files
