/-
# CommandShell.Trace.Topic -- what a user can ask to see
-/

namespace CommandShell

/-- The classes of events that can be shown. -/
inductive Topic where
  | commands | interpolation | options | parse
  deriving DecidableEq, Repr

namespace Topic

/-- The name of a topic. -/
def name : Topic → String
  | .commands => "commands"
  | .interpolation => "interpolation"
  | .options => "options"
  | .parse => "parse"

/-- All topics. -/
def all : List Topic := [.commands, .interpolation, .options, .parse]

/-- The topic of the given name. -/
def ofName? (name : String) : Option Topic := all.find? (fun t => t.name == name)

end Topic

end CommandShell
