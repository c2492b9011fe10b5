/-
# CommandShell.Session -- running input against one context

A session keeps one context with the builtins registered. It takes input as one text, as a script
file or as lines of bytes, writes values to one stream and errors to the other, and stops when a
statement asks to leave. Errors contained in a statement are written before its own outcome. When a
stream refuses a line, evaluation goes on but nothing more is written, and the refusal is what the
session answers. At the end of a text the values are passed on; a stream that fails to do so is
answered alike.
-/
import CommandShell.Builtin
import CommandShell.Session.Input
import CommandShell.Session.Writer

namespace CommandShell

/-- What a session finds around it. -/
structure Surroundings where
  files : Files.Tree
  /-- The canonical directory the shell was started in, from which script paths are seen. -/
  home : List RawText
  /-- The lines that show an event on the stream for errors. -/
  trace : Event → List String := fun _ => []

/-- Why a session gives up. -/
inductive Trouble where
  | unreadableScript (path : RawText) (failure : Files.Failure)
  | stream (reason : String)
  deriving DecidableEq, Repr

/-- The report of a trouble. -/
def Trouble.message : Trouble → String
  | .unreadableScript path failure =>
    "failed to read script '" ++ path.shown ++ "': " ++ failure.message
  | .stream reason => "I/O error: " ++ reason

/-- A session: its context and its streams. -/
structure Session where
  context : Context Builtin
  streams : Streams

/-! ## Showing outcomes -/

/-- What is kept while a text runs: the streams, the code of a request to leave, and whether a
stream has refused a line. -/
structure Progress where
  streams : Streams
  code : Option Int32 := none
  refused : Option String := none

namespace Progress

/-- Takes note of what became of an offer. -/
def after (p : Progress) (offer : Except String Unit × Streams) : Progress :=
  match offer with
  | (.ok (), streams) => { p with streams := streams }
  | (.error reason, streams) => { p with streams := streams, refused := some reason }

/-- Shows events; a refusal is not noticed. -/
def showEvents (p : Progress) (trace : Event → List String) (events : List Event) : Progress :=
  { p with streams := (p.streams.offerErr (events.flatMap trace)).2 }

/-- Writes errors that were contained in a statement. -/
def showErrors (p : Progress) (errors : List Error) : Progress :=
  p.after (p.streams.offerErr (errors.map Error.report))

/-- Writes the outcome of a statement. -/
def showOutcome (p : Progress) : Outcome → Progress
  | .value v => p.after (p.streams.offerOut v.lines)
  | .failed e => p.after (p.streams.offerErr [e.report])
  | .exited code => { p with code := some code }

end Progress

/-- Shows what happened since the last time. -/
def drainJournal (trace : Event → List String) (s : Progress × Context Builtin) :
    Progress × Context Builtin :=
  (s.1.showEvents trace s.2.log, s.2.clearJournal)

/-- Writes the errors that wait to be reported. -/
def drainDiagnostics (s : Progress × Context Builtin) : Progress × Context Builtin :=
  (s.1.showErrors s.2.diagnostics, s.2.clearDiagnostics)

/-- Shows an outcome, with what led to it, unless a stream has refused a line before. -/
def present (trace : Event → List String) : Handler Builtin Progress := fun o s =>
  let shown := drainJournal trace s
  if shown.1.refused.isSome then shown
  else
    let (p, c) := drainDiagnostics shown
    if p.refused.isSome then (p, c) else (p.showOutcome o, c)

namespace Session

/-- A session with the builtins registered. -/
def new (i : Interpreter) (workingDirectory : RawText) : Session :=
  ⟨(Context.new i workingDirectory).withCommands Builtin.registry, {}⟩

/-- The session with other streams. -/
def withStreams (s : Session) (streams : Streams) : Session := { s with streams := streams }

/-- Whether input is repeated before it is evaluated. -/
def echoes (s : Session) : Bool :=
  match s.context.options.peek OptionTable.echo with
  | .ok (.string value) => value == "on"
  | _ => false

/-! ## Running input -/

/-- Evaluates a text that is not blank, shows what comes of it, and at the end has the values passed
on. -/
def evaluate (around : Surroundings) (source : String) (s : Session) :
    Except Trouble (Option Int32) × Session :=
  let i := s.context.interpreter
  let ran := i.evaluateEach (Builtin.commandSet around.files) (present around.trace) source
    ({ streams := s.streams }, s.context)
  let shown := drainJournal around.trace ran
  match shown.1.refused with
  | some reason => (.error (.stream reason), ⟨shown.2, shown.1.streams⟩)
  | none =>
    let (p, c) := drainDiagnostics shown
    match p.refused with
    | some reason => (.error (.stream reason), ⟨c, p.streams⟩)
    | none =>
      match p.streams.out.flush with
      | .error reason => (.error (.stream reason), ⟨c, p.streams⟩)
      | .ok () => (.ok p.code, ⟨c, p.streams⟩)

/-- Runs a text. A blank text does nothing. The answer is the code of a request to leave. -/
def run (around : Surroundings) (source : String) (s : Session) :
    Except Trouble (Option Int32) × Session :=
  if Text.isAllBlank source then (.ok none, s)
  else if s.echoes then
    match s.streams.offerOut [source] with
    | (.error reason, streams) => (.error (.stream reason), s.withStreams streams)
    | (.ok (), streams) => evaluate around source (s.withStreams streams)
  else evaluate around source s

/-- Runs lines one after the other, up to a request to leave. -/
def runAll (around : Surroundings) : List String → Session → Except Trouble (Option Int32) × Session
  | [], s => (.ok none, s)
  | line :: rest, s =>
    match run around line s with
    | (.ok none, next) => runAll around rest next
    | ended => ended

/-- The code of a session that ends without a request to leave. -/
def finished : Except Trouble (Option Int32) × Session → Except Trouble Int32 × Session
  | (.ok code, s) => (.ok (code.getD 0), s)
  | (.error t, s) => (.error t, s)

/-- Runs a script file line by line. -/
def runScript (around : Surroundings) (path : RawText) (s : Session) :
    Except Trouble Int32 × Session :=
  match around.files.read around.home path with
  | .error failure => (.error (.unreadableScript path failure), s)
  | .ok text => finished (runAll around (Text.lines text) s)

/-- Runs lines of input up to a request to leave, a line that is no text, or the end; at the end, an
interactive session ends the line of its prompt. -/
def runInput (around : Surroundings) (interactive : Bool) :
    List (Option String) → Session → Except Trouble Int32 × Session
  | [], s =>
    if interactive then
      match s.streams.offerOut [""] with
      | (.ok (), streams) => (.ok 0, s.withStreams streams)
      | (.error reason, streams) => (.error (.stream reason), s.withStreams streams)
    else (.ok 0, s)
  | none :: _, s => (.error (.stream Files.notTextMessage), s)
  | some line :: rest, s =>
    match run around line s with
    | (.ok none, next) => runInput around interactive rest next
    | ended => finished ended

/-- Runs bytes of input line by line. -/
def runInteractively (around : Surroundings) (interactive : Bool) (bytes : List UInt8)
    (s : Session) : Except Trouble Int32 × Session :=
  runInput around interactive (Input.lines bytes) s

end Session

end CommandShell
