/-
# CommandShell.Session.Writer -- streams that take lines or refuse them

A writer is offered one line after the other, and may be asked to pass on what it took. Which offers
it refuses and when it fails to pass lines on is fixed beforehand, by the number of offers, so that
a writer may fail in any pattern; a refused line leaves no trace.
-/

namespace CommandShell

/-- A stream of lines. -/
structure Writer where
  /-- What was taken so far, each line with its end. -/
  written : String := ""
  /-- How many lines were offered so far. -/
  offered : Nat := 0
  /-- For each offer, the reason for which it is refused, if it is. -/
  refusal : Nat → Option String := fun _ => none
  /-- For each number of offers, the reason for which what was taken is not passed on, if it is
  not. -/
  jam : Nat → Option String := fun _ => none

namespace Writer

/-- A writer that refuses every line. -/
def closed (reason : String) : Writer := { refusal := fun _ => some reason }

/-- Offers a line. -/
def offer (w : Writer) (line : String) : Except String Unit × Writer :=
  match w.refusal w.offered with
  | some reason => (.error reason, { w with offered := w.offered + 1 })
  | none => (.ok (), { w with written := w.written ++ line ++ "\n", offered := w.offered + 1 })

/-- Offers lines up to the first that is refused. -/
def offerAll (w : Writer) : List String → Except String Unit × Writer
  | [] => (.ok (), w)
  | line :: rest =>
    match w.offer line with
    | (.ok (), next) => next.offerAll rest
    | (.error reason, next) => (.error reason, next)

/-- Asks the writer to pass on what it took. -/
def flush (w : Writer) : Except String Unit :=
  match w.jam w.offered with
  | some reason => .error reason
  | none => .ok ()

end Writer

/-- The two streams of a shell: values go to `out`, errors to `err`. -/
structure Streams where
  out : Writer := {}
  err : Writer := {}

namespace Streams

/-- Offers lines to the stream for values. -/
def offerOut (s : Streams) (lines : List String) : Except String Unit × Streams :=
  let (taken, out) := s.out.offerAll lines
  (taken, { s with out := out })

/-- Offers lines to the stream for errors. -/
def offerErr (s : Streams) (lines : List String) : Except String Unit × Streams :=
  let (taken, err) := s.err.offerAll lines
  (taken, { s with err := err })

end Streams

end CommandShell
