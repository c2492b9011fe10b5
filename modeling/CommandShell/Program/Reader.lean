/-
# CommandShell.Program.Reader -- from text to programs

Reading checks the nesting of a text, matches it against the grammar, and turns the tree into
nodes: empty statements and comments vanish, `$( ... )` becomes the node inside it, and strings are
cut at their substitutions, each of which is read as an expression of its own. A substitution is
shorter than the text it stands in, so the length of a text bounds how often reading repeats.
-/
import CommandShell.Grammar.Nesting
import CommandShell.Grammar.Rules
import CommandShell.Program.Escape
import CommandShell.Program.Node
import CommandShell.Program.Piece
import CommandShell.Program.ReadError

namespace CommandShell

open Grammar (Argument Body Expr Statement)

/-- The settings of reading. -/
structure Reader where
  /-- Whether backslash escapes in strings are decoded. -/
  unescapes : Bool := true
  /-- How deeply substitutions may nest. -/
  maxNesting : Nat := 100
  deriving DecidableEq, Repr

namespace Reader

/-! ## Trees -/

/-- Checks the nesting of a text and matches it against a grammar. -/
def match? {α : Type} (r : Reader) (grammar : List Char → Except Grammar.Refusals α)
    (source : List Char) : Except ReadError α :=
  match Grammar.Nesting.firstExcess r.maxNesting source with
  | some place => .error (.tooDeep place r.maxNesting)
  | none => (grammar source).mapError (ReadError.ofRefusals source)

/-- The tree of a program. -/
def programTree (r : Reader) (source : String) : Except ReadError (List Statement) :=
  r.match? Grammar.program source.toList

/-- The tree of one command or expression. -/
def expressionTree (r : Reader) (source : String) : Except ReadError Body :=
  r.match? Grammar.expression source.toList

/-! ## Strings -/

/-- The text of a text piece. -/
def plain (r : Reader) (raw : String) : String := if r.unescapes then Escape.unescape raw else raw

/-- Reads the pieces of a string into parts, given how a substitution is read. -/
def partsOf (r : Reader) (readSpan : String → Except ReadError Node) :
    List Piece → Except ReadError (List Part)
  | [] => .ok []
  | .text raw :: rest => do
    let more ← partsOf r readSpan rest
    return .text (r.plain raw) :: more
  | .span raw :: rest => do
    let node ← (readSpan raw).mapError (ReadError.substitution raw)
    let more ← partsOf r readSpan rest
    return .node node :: more

/-- The text of parts without substitutions. -/
def plainText? : List Part → Option String
  | [] => some ""
  | .text s :: rest => (plainText? rest).map (s ++ ·)
  | .node _ :: _ => none

/-- The node of a string: a literal unless it has substitutions. -/
def stringNode (r : Reader) (readSpan : String → Except ReadError Node) (raw : String) :
    Except ReadError Node := do
  let parts ← r.partsOf readSpan (Piece.split raw)
  match plainText? parts with
  | some s => return .literal (.string s)
  | none => return .interpolated parts

/-! ## Nodes -/

mutual

/-- The node of a body, given how a string is read. -/
def nodeOf (readString : String → Except ReadError Node) : Body → Except ReadError Node
  | .command name arguments => do
    let words ← wordsOf readString arguments
    return .ofWords name words
  | .expr e => exprNode readString e

/-- The nodes of the words of a command, from left to right. -/
def wordsOf (readString : String → Except ReadError Node) :
    List Argument → Except ReadError (List Node)
  | [] => .ok []
  | a :: rest => do
    let node ← wordNode readString a
    let more ← wordsOf readString rest
    return node :: more

/-- The node of a word of a command. -/
def wordNode (readString : String → Except ReadError Node) : Argument → Except ReadError Node
  | .flag name long => .ok (.flag (.written name long))
  | .expr e => exprNode readString e

/-- The node of an expression. -/
def exprNode (readString : String → Except ReadError Node) : Expr → Except ReadError Node
  | .variable name => .ok (.variable name)
  | .substitution inner => nodeOf readString inner
  | .quoted raw => readString raw
  | .bare raw => readString raw
  | .integer value => .ok (.literal (.integer value))
  | .float value => .ok (.literal (.float value))

end

/-- The nodes of statements, without the empty ones. -/
def statementNodes (readString : String → Except ReadError Node) :
    List Statement → Except ReadError (List Node)
  | [] => .ok []
  | ⟨none, _⟩ :: rest => statementNodes readString rest
  | ⟨some body, _⟩ :: rest => do
    let node ← nodeOf readString body
    let more ← statementNodes readString rest
    return node :: more

/-! ## Reading -/

/-- Reads an expression whose strings hold substitutions at most the given number of levels deep;
below that, substitutions are text. -/
def expressionWithin (r : Reader) : Nat → String → Except ReadError Node
  | 0, source => do
    let tree ← r.expressionTree source
    nodeOf (fun raw => .ok (.literal (.string raw))) tree
  | levels + 1, source => do
    let tree ← r.expressionTree source
    nodeOf (r.stringNode (r.expressionWithin levels)) tree

/-- Reads one command or expression. -/
def expression (r : Reader) (source : String) : Except ReadError Node :=
  r.expressionWithin source.length source

/-- Reads a program. -/
def program (r : Reader) (source : String) : Except ReadError Program := do
  let tree ← r.programTree source
  let statements ← statementNodes (r.stringNode r.expression) tree
  return ⟨statements⟩

end Reader

end CommandShell
