/-
# CommandShell.CommandLine.Run -- a whole run of the shell

A shell started with `-c` runs that text; otherwise it runs the script it was given, and otherwise
its input, behind a banner. The answer is an exit code and what was written to the two streams.
-/
import CommandShell.CommandLine.Arguments
import CommandShell.Session
import CommandShell.Trace.Show

namespace CommandShell.CommandLine

/-- The name of the program. -/
def programName : String := "unishell"

/-- The version of the program. -/
def version : String := "0.1.0"

/-- The line that greets at the start of an interactive run. -/
def banner : String := "UniShell Version " ++ version

/-- What a run of the program leaves. -/
structure Report where
  code : Nat
  out : String
  err : String
  deriving DecidableEq, Repr

/-- The settings that arguments ask for. -/
def interpreter (a : Arguments) : Interpreter :=
  { reader := { unescapes := !a.noUnescape }
    lenient := a.lenientVars
    maxDepth := a.maxDepth.getD ({} : Interpreter).maxDepth }

/-- The lines of the banner, unless it is not wanted. -/
def greeting (a : Arguments) : List String := if a.noBanner then [] else [banner, ""]

/-- Runs what the arguments ask for. -/
def perform (around : Surroundings) (a : Arguments) (input : List UInt8) (s : Session) :
    Except Trouble Int32 × Session :=
  match a.command, a.script with
  | some source, _ => Session.finished (Session.run around source s)
  | none, some path => Session.runScript around path s
  | none, none =>
    match s.streams.offerOut (greeting a) with
    | (.error reason, streams) => (.error (.stream reason), s.withStreams streams)
    | (.ok (), streams) => Session.runInteractively around false input (s.withStreams streams)

/-- The exit code as the operating system reports it: the low eight bits. -/
def reported (code : Int32) : Nat := (code.toInt % 256).toNat

/-- Runs the shell with the given arguments in a directory, given by its names from the root. -/
def start (files : Files.Tree) (home : List RawText) (a : Arguments) (input : List UInt8) :
    Report :=
  let around : Surroundings := { files := files, home := home, trace := Trace.lines a.debug }
  let s := Session.new (interpreter a) (Files.Path.ofNames home)
  match perform around a input s with
  | (.ok code, s) => ⟨reported code, s.streams.out.written, s.streams.err.written⟩
  | (.error trouble, s) =>
    ⟨1, s.streams.out.written,
      s.streams.err.written ++ Trace.line "ERROR" ("error: " ++ trouble.message) ++ "\n"⟩

/-- Runs the program with its arguments as given. Arguments that are not taken are left to the
caller, except the request for the version. -/
def run (files : Files.Tree) (home : List RawText) (arguments : List String) (input : List UInt8) :
    Except UsageError Report :=
  match Arguments.read arguments with
  | .ok a => .ok (start files home a input)
  | .error .versionRequested => .ok ⟨0, programName ++ " " ++ version ++ "\n", ""⟩
  | .error e => .error e

/-- The exit code of a run whose arguments were not taken. -/
def usageCode : UsageError → Nat
  | .helpRequested | .versionRequested => 0
  | _ => 1

end CommandShell.CommandLine
