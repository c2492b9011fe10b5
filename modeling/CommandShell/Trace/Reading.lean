/-
# CommandShell.Trace.Reading -- how a text was read, step by step

Reading shows the tree of every text that the grammar matched and the place where it got stuck
otherwise, for a program and then for each substitution in its strings, up to the first that is
refused. Trees are shown in full on one line.
-/
import CommandShell.Program.Reader
import CommandShell.Text.Quoted
import CommandShell.Trace.Topic

namespace CommandShell

open Grammar (Argument Body Expected Expr Refusals Statement)
open Text (inQuotes)

/-! ## Records and lists -/

/-- A record with its fields. -/
def showRecord (name : String) (fields : List (String × String)) : String :=
  name ++ " \x7b " ++ ", ".intercalate (fields.map (fun f => f.1 ++ ": " ++ f.2)) ++ " \x7d"

/-- A case with its content. -/
def showCase (name content : String) : String := name ++ "(" ++ content ++ ")"

/-- A list. -/
def showList (items : List String) : String := "[" ++ ", ".intercalate items ++ "]"

/-- An optional content. -/
def showOption : Option String → String
  | none => "None"
  | some content => showCase "Some" content

/-- A truth value. -/
def showBool (b : Bool) : String := if b then "true" else "false"

/-! ## Trees -/

mutual

/-- A body. -/
def Grammar.Body.inspect : Body → String
  | .command name arguments =>
    showCase "Command" (showRecord "CommandTree"
      [("name", inQuotes name), ("args", showList (Argument.inspectAll arguments))])
  | .expr e => showCase "Expr" e.inspect

/-- Words. -/
def Grammar.Argument.inspectAll : List Argument → List String
  | [] => []
  | a :: rest => a.inspect :: Argument.inspectAll rest

/-- A word. -/
def Grammar.Argument.inspect : Argument → String
  | .flag name long =>
    showCase "Flag" (showRecord "FlagTree" [("name", inQuotes name), ("long", showBool long)])
  | .expr e => showCase "Expr" e.inspect

/-- An expression. -/
def Grammar.Expr.inspect : Expr → String
  | .variable name => showCase "VarRef" (inQuotes name)
  | .substitution inner => showCase "CmdSubst" inner.inspect
  | .quoted raw => showCase "QuotedString" (inQuotes raw)
  | .bare raw => showCase "BareString" (inQuotes raw)
  | .integer value => showCase "Number" (showCase "Integer" (toString value.toInt))
  | .float value => showCase "Number" (showCase "Float" value.text)

end

/-- A statement. -/
def Grammar.Statement.inspect (s : Statement) : String :=
  showRecord "StatementTree"
    [("body", showOption (s.body.map Body.inspect)),
      ("comment", showOption (s.comment.map inQuotes))]

/-- A program. -/
def showStatements (program : List Statement) : String :=
  showRecord "ProgramTree" [("statements", showList (program.map Statement.inspect))]

/-- Where the grammar got stuck in a text. -/
def showRefusals (source : List Char) (r : Refusals) : String :=
  let place := Text.Position.ofOffset source r.offset
  let location := showRecord "LineCol"
    [("line", toString place.line), ("column", toString place.column),
      ("offset", toString (Text.byteOffset source r.offset))]
  let expected := (Expected.arrange r.expected).map (fun e => inQuotes e.text)
  showRecord "ParseError"
    [("location", location),
      ("expected", showRecord "ExpectedSet"
        [("expected", "\x7b" ++ ", ".intercalate expected ++ "\x7d")])]

/-! ## Steps -/

/-- A shown step: its topic and its message. -/
abbrev Message := Topic × String

namespace Reader

/-- Shows how the substitutions of strings are read, up to the first that is refused. -/
def traceSpans (r : Reader) (traceSpan : String → List Message) : List String → List Message
  | [] => []
  | span :: rest =>
    (.interpolation, "parsing substitution '" ++ span ++ "'") :: traceSpan span ++
      match r.expression span with
      | .ok _ => traceSpans r traceSpan rest
      | .error _ => []

/-- The substitutions of strings, from left to right. -/
def spansOf (strings : List String) : List String :=
  strings.flatMap (fun raw => (Piece.split raw).filterMap (fun
    | .span s => some s
    | .text _ => none))

/-- Shows how a text is read, given how its tree is shown and which strings the tree holds. -/
def traceText {α : Type} (r : Reader) (grammar : List Char → Except Refusals α)
    (display : α → String) (strings : α → List String) (traceSpan : String → List Message)
    (source : String) : List Message :=
  match Grammar.Nesting.firstExcess r.maxNesting source.toList with
  | some _ => [(.parse, "nesting limit " ++ toString r.maxNesting ++ " exceeded")]
  | none =>
    match grammar source.toList with
    | .error refused => [(.parse, "Parse error: " ++ showRefusals source.toList refused)]
    | .ok tree =>
      (.parse, "TREE: " ++ display tree) :: r.traceSpans traceSpan (spansOf (strings tree))

/-- Shows how an expression is read, to the given number of levels. -/
def traceExpression (r : Reader) : Nat → String → List Message
  | 0, _ => []
  | levels + 1, source =>
    r.traceText Grammar.expression Body.inspect Body.strings (r.traceExpression levels) source

/-- Shows how a program is read. -/
def traceProgram (r : Reader) (source : String) : List Message :=
  r.traceText Grammar.program showStatements Statement.stringsOf
    (fun span => r.traceExpression (span.length + 1) span) source

end Reader

end CommandShell
