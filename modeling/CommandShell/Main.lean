/-
# CommandShell.Main -- the program

The outermost layer: it looks at the files below the directory it is started in, reads its
arguments and its input, and writes what the shell answers. All decisions are made elsewhere.
-/
import CommandShell.CommandLine.Run
import CommandShell.Files.Layout

namespace CommandShell.Main

open CommandLine

/-- The text that shows how the program is started. -/
def usage : String :=
  "usage: " ++ programName ++ " [-c COMMAND] [--no-banner] [--lenient-vars] [--no-unescape] " ++
    "[--max-depth DEPTH] [--debug EVENT]... [SCRIPT]"

/-- The time of a file. -/
def moment (t : IO.FS.SystemTime) : Files.Moment := ⟨t.sec, t.nsec.toNat⟩

/-- A name that no file has. -/
def nowhere : String := "\x00"

/-- The path that a path leads to when all links are followed. -/
def canonical (path : String) : IO String := do
  match ← (IO.FS.realPath path).toBaseIO with
  | .ok found => return found.toString
  | .error _ => return nowhere

/-- What is kept about the object with the given number. The time of its creation is not found
out. -/
def attributes (mode inode : Nat) (about : IO.FS.Metadata) : Files.Attributes :=
  { mode := mode
    inode := inode
    accessed := moment about.accessed
    modified := moment about.modified }

/-- What is known of a file. Its text is read only if it is wanted. -/
def examine (path : String) (wanted : Bool) (inode : Nat) (about : IO.FS.Metadata) :
    IO Files.FileData := do
  let bytes ← if wanted then (IO.FS.readBinFile path).toBaseIO else pure (.ok .empty)
  let (text, mode) := match bytes with
    | .ok bytes => (String.fromUTF8? bytes, 0o644)
    | .error _ => (none, 0)
  return ⟨attributes mode inode about, about.byteSize.toNat, text⟩

/-- What is known of a directory. -/
def survey (mode inode : Nat) (about : IO.FS.Metadata) : Files.DirectoryData :=
  { attributes mode inode about with
    size := about.byteSize.toNat
    links := about.numLinks.toNat }

/-- Adds an entry of the directory with the given names to a tree, with all that is below it. A link
is kept by where it ends, and objects are numbered as they are met. -/
partial def gather (wanted : String) (names : List RawText) (t : Files.Tree)
    (entry : IO.FS.DirEntry) : IO Files.Tree := do
  let here := names ++ [.ofText entry.fileName]
  let path := (Files.Path.ofNames here).shown
  let inode := t.entries.length + 1
  let about ← entry.path.symlinkMetadata
  match about.type with
  | .symlink => return t.add here (.link (← canonical path))
  | .dir =>
    match ← entry.path.readDir.toBaseIO with
    | .ok inside =>
      inside.foldlM (gather wanted here)
        (t.add here (.directory (survey Files.usualMode inode about)))
    | .error _ => return t.add here (.directory (survey 0 inode about))
  | _ => return t.add here (.file (← examine path (path == wanted) inode about))

/-- Writes what a session has to say and empties its streams. -/
def tell (s : Session) : IO Session := do
  IO.print s.streams.out.written
  IO.eprint s.streams.err.written
  (← IO.getStdout).flush
  return s.withStreams {}

/-- Tells how a session ended. -/
def conclude : Except Trouble Int32 × Session → IO UInt32
  | (answer, s) => do
    let _ ← tell s
    match answer with
    | .ok code => return (reported code).toUInt32
    | .error trouble =>
      IO.eprintln (Trace.line "ERROR" ("error: " ++ trouble.message))
      return 1

/-- Reads the bytes of a line, with its line feed; none are left at the end of the input. -/
partial def readLine (input : IO.FS.Stream) (before : List UInt8) : IO (List UInt8) := do
  match (← input.read 1).toList with
  | [] => return before.reverse
  | b :: _ =>
    if b == Input.lineFeed then return (b :: before).reverse else readLine input (b :: before)

/-- Reads and runs lines up to the end or a request to leave. -/
partial def converse (around : Surroundings) (input : IO.FS.Stream) (interactive : Bool)
    (s : Session) : IO UInt32 := do
  if interactive then
    IO.eprint (s.context.workingDirectory.shown ++ "> ")
    (← IO.getStderr).flush
  match Input.lines (← readLine input []) with
  | [some line] =>
    match Session.run around line s with
    | (.ok none, next) => converse around input interactive (← tell next)
    | ended => conclude (Session.finished ended)
  | rest => conclude (Session.runInput around interactive rest s)

/-- The names on the way from the root to a directory. -/
def namesOf (path : RawText) : List RawText :=
  (Files.Path.splitSlashes path.bytes).filterMap
    (fun part => if part.isEmpty then none else some ⟨part⟩)

/-- Runs the shell as the arguments ask. -/
def serve (a : Arguments) : IO UInt32 := do
  let here ← IO.currentDir
  let home := namesOf here.toString
  let script ← canonical (a.script.getD nowhere)
  let inside ← here.readDir
  let files ← inside.foldlM (gather script home)
    (Files.Tree.ofDirectory home { mode := Files.usualMode })
  let around : Surroundings := { files := files, home := home, trace := Trace.lines a.debug }
  let s := Session.new (interpreter a) (Files.Path.ofNames home)
  if a.command.isSome || a.script.isSome then
    conclude (perform around a [] s)
  else
    for line in greeting a do IO.println line
    let input ← IO.getStdin
    converse around input (← input.isTty) s

end CommandShell.Main

/-- Runs the program. -/
def main (arguments : List String) : IO UInt32 := do
  match CommandShell.Arguments.read arguments with
  | .ok a => CommandShell.Main.serve a
  | .error .versionRequested =>
    IO.println (CommandShell.CommandLine.programName ++ " " ++ CommandShell.CommandLine.version)
    return 0
  | .error e =>
    if e == .helpRequested then IO.println CommandShell.Main.usage
    else IO.eprintln CommandShell.Main.usage
    return (CommandShell.CommandLine.usageCode e).toUInt32
