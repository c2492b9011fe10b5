/-
# CommandShell.Trace.Show -- events as lines

Each event that belongs to a topic has a message, and a chosen topic's messages are shown as lines
marked `DEBUG`. Characters that could steer a terminal are written by their codes.
-/
import CommandShell.Evaluation.Event
import CommandShell.Trace.Reading

namespace CommandShell

/-- The messages of an event. -/
def Event.messages : Event → List Message
  | .reading reader source => reader.traceProgram source
  | .unreadable e => [(.parse, "syntax error: " ++ e.message)]
  | .invoked name arguments flags =>
    [(.commands, "invoking " ++ name ++ " with " ++ toString arguments.length ++ " arg(s) and " ++
      toString flags.length ++ " flag(s)")]
  | .contained n e => [(.commands, n.display ++ " failed: " ++ e.message)]
  | .substituted n v => [(.interpolation, n.display ++ " => '" ++ v.text ++ "'")]
  | .statementFailed e => [(.commands, "statement failed: " ++ e.message)]
  | .pushed option v => [(.options, "push " ++ option ++ "=" ++ v.text)]
  | .popped option v => [(.options, "pop " ++ option ++ "=" ++ v.text)]
  | .moved path => [(.commands, "working directory is now " ++ path.shown)]
  | .entered _ | .left _ | .refused _ | .missed _ | .called _ _ _ | .answered _ _ => []

namespace Trace

/-- A character of a shown line: those that could steer a terminal are written by their codes. -/
def safeChar (c : Char) : String :=
  if c = '\x07' then "\\x07"
  else if c = '\x08' then "\\x08"
  else if c = '\x0c' then "\\x0c"
  else if c = '\x1b' then "\\x1b"
  else if c = '\x7f' then "\\x7f"
  else if 0x80 ≤ c.toNat && c.toNat ≤ 0x9F then "\\u\x7b" ++ Text.hexText c.toNat ++ "\x7d"
  else c.toString

/-- A text that cannot steer a terminal. -/
def safe (s : String) : String := String.join (s.toList.map safeChar)

/-- A shown line, with its mark. -/
def line (mark message : String) : String := mark ++ " " ++ safe message

/-- The lines that show an event to a user who asked for the given topics. -/
def lines (topics : List Topic) (e : Event) : List String :=
  e.messages.filterMap (fun m => if topics.contains m.1 then some (line "DEBUG" m.2) else none)

end Trace

end CommandShell
