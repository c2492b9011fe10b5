/-
# CommandShell.Proofs.Evaluation.Interpolation -- a string means its text with the variables put in

A string in quotes is read by one grammar, cut by another, each substitution read again, its texts
decoded, and all of it evaluated. Without commands in it, all of this is textual substitution. That
meaning is given here by a scan of its own: from left to right, a backslash takes the character
behind it along as text, `$name` and `${name}` are variables, and what is left are runs of
text (`Template.segments`). A string then evaluates to its runs, decoded or not, with the texts of
the values in between (`Template.expand`).
-/
import CommandShell.Proofs.Evaluation.FailureOrigin
import CommandShell.Proofs.Evaluation.Handling
import CommandShell.Proofs.Evaluation.LineByLine
import CommandShell.Proofs.Program.Substitution
import Mathlib.Data.List.Forall2

namespace CommandShell

open Grammar Grammar.Nesting Step

variable {κ : Type}

/-! ## Textual substitution -/

namespace Template

/-- The name at the start of a text, as long as it goes, and what follows it. -/
def nameAt? : List Char → Option (String × List Char)
  | [] => none
  | c :: rest =>
    if isNameStart c then
      some (String.ofList (c :: rest.takeWhile isNameRest), rest.dropWhile isNameRest)
    else none

/-- The variable at the start of a text, and what follows it. -/
def variableAt? : List Char → Option (String × List Char)
  | '$' :: '\x7b' :: rest =>
    match nameAt? rest with
    | some (name, '\x7d' :: after) => some (name, after)
    | _ => none
  | '$' :: rest => nameAt? rest
  | _ => none

/-- A stretch of a string. -/
inductive Segment where
  | text (raw : List Char)
  | reference (name : String)
  deriving DecidableEq, Repr

/-- The text gathered so far, if there is any. -/
def flush (pending : List Char) : List Segment := if pending = [] then [] else [.text pending]

theorem length_nameAt? {text after : List Char} {name : String}
    (h : nameAt? text = some (name, after)) : after.length < text.length := by
  cases text with
  | nil => cases h
  | cons c rest =>
    rw [nameAt?] at h
    split at h
    · cases h
      exact Nat.lt_succ_of_le (List.dropWhile_suffix _).length_le
    · cases h

theorem length_variableAt? {text after : List Char} {name : String}
    (h : variableAt? text = some (name, after)) : after.length < text.length := by
  unfold variableAt? at h
  split at h
  · next rest =>
    split at h
    · next hname =>
      cases h
      have hlength := length_nameAt? hname
      simp only [List.length_cons] at hlength ⊢
      omega
    · cases h
  · next rest _ =>
    have hlength := length_nameAt? h
    simp only [List.length_cons] at hlength ⊢
    omega
  · cases h

/-- Scans a text from left to right, with the text gathered so far. -/
def scan (pending : List Char) : List Char → List Segment
  | [] => flush pending
  | '\\' :: c :: rest => scan (pending ++ ['\\', c]) rest
  | c :: rest =>
    match _h : variableAt? (c :: rest) with
    | some (name, after) => flush pending ++ .reference name :: scan [] after
    | none => scan (pending ++ [c]) rest
termination_by text => text.length
decreasing_by
  · simp only [List.length_cons]
    omega
  · exact length_variableAt? ‹_›
  · exact Nat.lt_succ_self _

/-- The runs of text and the variables of a string. -/
def segments (raw : String) : List Segment := scan [] raw.toList

/-- The variable that a segment refers to. -/
def Segment.name? : Segment → Option String
  | .text _ => none
  | .reference name => some name

/-- The variables that a string refers to. -/
def references (raw : String) : List String := (segments raw).filterMap Segment.name?

/-- What a segment stands for. -/
def Segment.expand (unescapes : Bool) (values : String → Value) : Segment → String
  | .text raw => if unescapes then Escape.unescape (String.ofList raw) else String.ofList raw
  | .reference name => (values name).text

/-- A string with its variables put in. -/
def expand (unescapes : Bool) (values : String → Value) (raw : String) : String :=
  String.join ((segments raw).map (Segment.expand unescapes values))

example : segments "a\\$b$c1-$\x7bd\x7de$\x7bf $2\\" =
    [.text "a\\$b".toList, .reference "c1", .text "-".toList, .reference "d",
      .text "e$\x7bf $2\\".toList] := by
  decide +kernel

/-! ## Variables -/

/-- A name ends where no more of it follows. -/
theorem nameAt?_eq_some {text after : List Char} {name : String}
    (h : nameAt? text = some (name, after)) :
    ∃ u, NameText u ∧ name = String.ofList u ∧ text = u ++ after ∧ Avoids isNameRest after := by
  cases text with
  | nil => cases h
  | cons c rest =>
    rw [nameAt?] at h
    split at h
    · next hfirst =>
      cases h
      refine ⟨c :: rest.takeWhile isNameRest, .mk hfirst (fun d hd => List.mem_takeWhile_imp hd),
        rfl, ?_, avoids_dropWhile isNameRest rest⟩
      rw [List.cons_append, List.takeWhile_append_dropWhile]
    · cases h

theorem nameLength?_of_nameAt?_eq_none {text : List Char} (h : nameAt? text = none) :
    Piece.nameLength? text = none := by
  cases text with
  | nil => rfl
  | cons c rest =>
    rw [nameAt?] at h
    split at h
    · cases h
    · next hfirst => rw [Piece.nameLength?, if_neg hfirst]

/-- A variable of the scan is a complete substitution, which the grammar knows as that variable. -/
theorem variableAt?_eq_some {text after : List Char} {name : String}
    (h : variableAt? text = some (name, after)) :
    ∃ u, text = '$' :: (u ++ after) ∧ ExprText ('$' :: u) (.variable name) ∧
      Piece.spanLength? ('$' :: (u ++ after)) = some (u.length + 1) := by
  unfold variableAt? at h
  split at h
  · next rest =>
    split at h
    · next hname =>
      cases h
      obtain ⟨u, hu, rfl, rfl, -⟩ := nameAt?_eq_some hname
      have hlength := Piece.spanLength?_braced hu after
      exact ⟨'\x7b' :: (u ++ ['\x7d']), by simp, .braced hu, by simpa using hlength⟩
    · cases h
  · obtain ⟨u, hu, rfl, rfl, hafter⟩ := nameAt?_eq_some h
    exact ⟨u, rfl, .named hu, Piece.spanLength?_named hu hafter⟩
  · cases h

/-- Where the scan finds no variable there is no complete substitution, unless it is a command. -/
theorem spanLength?_of_variableAt?_eq_none {text : List Char} (h : variableAt? text = none)
    (hopen : ¬ ['$', '('] <+: text) : Piece.spanLength? text = none := by
  unfold Piece.spanLength?
  split
  · exact absurd ⟨_, rfl⟩ hopen
  · next rest =>
    rw [variableAt?] at h
    have hbraced : Piece.bracedLength? rest = none := by
      rw [Piece.bracedLength?]
      cases hname : nameAt? rest with
      | none => rw [nameLength?_of_nameAt?_eq_none hname]
      | some found =>
        obtain ⟨name, after⟩ := found
        obtain ⟨u, hu, rfl, rfl, hafter⟩ := nameAt?_eq_some hname
        rw [Piece.nameLength?_append hu hafter]
        show (if ((u ++ after).drop u.length).head? = some '\x7d' then _ else none) = none
        rw [List.drop_left, if_neg]
        intro hhead
        obtain ⟨more, rfl⟩ := List.head?_eq_some_iff.mp hhead
        rw [hname] at h
        cases h
    rw [hbraced]
    rfl
  · next rest _ hbrace =>
    have hname : nameAt? rest = none := by
      unfold variableAt? at h
      split at h
      · next heq =>
        cases heq
        exact absurd rfl (hbrace _)
      · next heq =>
        cases heq
        exact h
      · next hdollar => exact absurd rfl (hdollar _)
    rw [nameLength?_of_nameAt?_eq_none hname]
    rfl
  · rfl

/-! ## Pieces and segments -/

/-- The segment that a piece of a string is. -/
inductive Spells : Piece.Cut → Segment → Prop
  | text (u : List Char) : Spells (.text u) (.text u)
  | reference {u : List Char} {name : String} :
      ExprText u (.variable name) → Spells (.span u) (.reference name)

/-- Pieces with the text gathered so far in front. -/
def glue (pending : List Char) (cuts : List Piece.Cut) : List Piece.Cut :=
  if pending = [] then cuts else Piece.prependText pending cuts

theorem glue_prependText (pending : List Char) {u : List Char} (hu : u ≠ [])
    (cuts : List Piece.Cut) :
    glue pending (Piece.prependText u cuts) = glue (pending ++ u) cuts := by
  rw [glue, glue, if_neg (fun h => hu (List.append_eq_nil_iff.mp h).2)]
  split
  · next h => rw [h, List.nil_append]
  · exact Piece.prependText_append pending u cuts

theorem forall₂_flush {pending : List Char} {cuts : List Piece.Cut} {segs : List Segment}
    (hcuts : ∀ more rest, cuts ≠ .text more :: rest) (h : List.Forall₂ Spells cuts segs) :
    List.Forall₂ Spells (glue pending cuts) (flush pending ++ segs) := by
  rw [glue, flush]
  split
  · exact h
  · have hglue : Piece.prependText pending cuts = .text pending :: cuts := by
      rcases cuts with _ | ⟨more | u, cuts⟩
      · rfl
      · exact absurd rfl (hcuts more cuts)
      · rfl
    rw [hglue]
    exact .cons (.text pending) h

/-- Cutting a string finds what the scan finds, by induction along the scan: the text it has
gathered is what cutting will put in front of the next piece. -/
theorem spells_scan {pending text : List Char} (hopen : ¬ ['$', '('] <:+: text) :
    List.Forall₂ Spells (glue pending (Piece.cutFrom 0 text)) (scan pending text) := by
  fun_induction scan pending text with
  | case1 pending =>
    have hend : List.Forall₂ Spells (glue pending []) (flush pending ++ []) :=
      forall₂_flush (fun _ _ h => by cases h) .nil
    rwa [List.append_nil] at hend
  | case2 pending c rest ih =>
    have hrest : ¬ ['$', '('] <:+: rest := fun h =>
      hopen (h.trans (List.suffix_append ['\\', c] rest).isInfix)
    rw [Piece.cutFrom, glue_prependText pending (List.cons_ne_nil _ _)]
    exact ih hrest
  | case3 pending c rest _ name after hvariable ih =>
    obtain ⟨u, htext, hu, hlength⟩ := variableAt?_eq_some hvariable
    rw [htext] at hopen ⊢
    have hafter : ¬ ['$', '('] <:+: after := fun h =>
      hopen (h.trans (List.suffix_append ('$' :: u) after).isInfix)
    rw [Piece.cutFrom_span hlength]
    exact forall₂_flush (fun _ _ h => by cases h) (.cons (.reference hu) (ih hafter))
  | case4 pending c rest hslash hnone ih =>
    have hrest : ¬ ['$', '('] <:+: rest :=
      fun h => hopen (h.trans (List.suffix_cons c rest).isInfix)
    have hspan := spanLength?_of_variableAt?_eq_none hnone (fun h => hopen h.isInfix)
    rw [Piece.cutFrom, hspan]
    · show List.Forall₂ Spells (glue pending (Piece.prependText [c] (Piece.cutFrom 0 rest))) _
      rw [glue_prependText pending (List.cons_ne_nil _ _)]
      exact ih hrest
    · exact hslash

/-- A string without commands in it is cut into its segments. -/
theorem spells_segments {raw : String} (hopen : ¬ "$(".toList <:+: raw.toList) :
    List.Forall₂ Spells (Piece.cut raw.toList) (segments raw) := by
  have hscan : List.Forall₂ Spells (glue [] (Piece.cutFrom 0 raw.toList)) (scan [] raw.toList) :=
    spells_scan hopen
  exact hscan

/-- The part of a string that a segment is read as. -/
def Segment.part (r : Reader) : Segment → Part
  | .text raw => .text (r.plain (String.ofList raw))
  | .reference name => .node (.variable name)

end Template

open Template

/-! ## Reading -/

namespace Grammar.Nesting.Gauge

/-- Where no substitution of a command opens the scan finds no level. -/
theorem peak_of_no_open {u : List Char} (h : ¬ ['$', '('] <:+: u) : start.peak u = 0 := by
  induction u with
  | nil => rfl
  | cons c u ih =>
    have hrest := ih (fun hu => h (hu.trans (List.suffix_cons c u).isInfix))
    show max 0 ((start.step c).peak u) = 0
    rw [Nat.zero_max]
    by_cases hc : c = '$'
    · -- what follows a dollar sign is no parenthesis, so the dollar sign is forgotten
      subst hc
      refine (peak_dollar 0 ?_).trans hrest
      intro d hd
      rw [beq_eq_false_iff_ne]
      rintro rfl
      obtain ⟨more, rfl⟩ := List.head?_eq_some_iff.mp hd
      exact h ⟨[], more, rfl⟩
    · rw [step_start hc, hrest]

end Grammar.Nesting.Gauge

namespace Reader

/-- A variable is read as itself, whatever nesting is allowed. -/
theorem expression_variable (r : Reader) {u : List Char} {name : String}
    (hu : ExprText u (.variable name)) : r.expression (String.ofList u) = .ok (.variable name) := by
  have hflat : Flat u := by
    cases hu with
    | braced hname => exact flat_braced hname
    | named hname => exact flat_named hname
  have htree : r.expressionTree (String.ofList u) = .ok (.expr (.variable name)) := by
    refine expressionTree_of_exprText (by rwa [String.toList_ofList]) rfl ?_
    rw [String.toList_ofList, hflat.peak_eq]
    exact Nat.zero_le _
  rw [expression_of_tree htree]
  rfl

/-- The pieces of a string are read as its segments. -/
theorem partsOf_spells (r : Reader) {cuts : List Piece.Cut} {segs : List Segment}
    (h : List.Forall₂ Spells cuts segs) :
    r.partsOf r.expression (cuts.map Piece.ofCut) = .ok (segs.map (Segment.part r)) := by
  induction h with
  | nil => rfl
  | cons hseg _ ih =>
    cases hseg with
    | text u =>
      rw [List.map_cons, Piece.ofCut, partsOf, ih]
      rfl
    | reference hu =>
      rw [List.map_cons, Piece.ofCut, partsOf, r.expression_variable hu, ih]
      rfl

/-- A string in quotes is a program of one statement. -/
theorem program_quoted {r : Reader} {raw : String} {n : Node} (hquote : '"' ∉ raw.toList)
    (hpeak : Gauge.start.peak raw.toList ≤ r.maxNesting)
    (hnode : r.stringNode r.expression raw = .ok n) :
    r.program ("\"" ++ raw ++ "\"") = .ok ⟨[n]⟩ := by
  have htext := programText_quoted hquote
  rw [String.ofList_toList, ← toList_quoted] at htext
  refine program_eq_ok_iff.mpr ⟨_, programTree_eq_ok_iff.mpr ⟨?_, htext⟩, ?_⟩
  · rwa [toList_quoted, firstExcess_eq_none_iff, Gauge.peak_quoted]
  · rw [statementNodes, nodeOf, exprNode, hnode]
    rfl

end Reader

/-! ## Evaluating -/

section Evaluation

variable (dispatch : Dispatch κ)

/-- Parts without substitutions evaluate to their text. -/
theorem evaluateParts_of_plainText? {parts : List Part} {s : String}
    (h : Reader.plainText? parts = some s) :
    Part.evaluateAll dispatch parts = pure (.value s) := by
  induction parts generalizing s with
  | nil =>
    cases h
    rw [Part.evaluateAll]
  | cons p rest ih =>
    cases p with
    | node n => cases h
    | text t =>
      obtain ⟨more, hmore, rfl⟩ := Option.map_eq_some_iff.mp h
      rw [evaluateParts_cons, ih hmore, Part.evaluate]
      rfl

/-- Whether it is a literal or not, a string evaluates to what its parts evaluate to. -/
theorem evaluate_stringNode {r : Reader} {readSpan : String → Except ReadError Node} {raw : String}
    {parts : List Part} (hparts : r.partsOf readSpan (Piece.split raw) = .ok parts) :
    ∃ n, r.stringNode readSpan raw = .ok n ∧ n.evaluate dispatch =
      Action.andThen (Part.evaluateAll dispatch parts) (fun s => pure (.value (.string s))) := by
  cases hplain : Reader.plainText? parts with
  | none =>
    exact ⟨_, Reader.stringNode_interpolated hparts hplain, evaluate_interpolated dispatch parts⟩
  | some s =>
    refine ⟨_, Reader.stringNode_literal hparts hplain, ?_⟩
    rw [evaluateParts_of_plainText? dispatch hplain, Node.evaluate]
    rfl

/-- A reference to a variable that is set evaluates to the text of its value. -/
theorem evaluate_part_variable {c : Context κ} {name : String} {v : Value}
    (h : c.valueOf? name = some v) :
    (Part.node (.variable name)).evaluate dispatch c =
      (.ok (.value v.text), c.note (.substituted (.variable name) v)) := by
  have hread : readVariable name c = (.ok (.value v), c) := by
    rw [readVariable, h]
  rw [evaluate_part_node, embedded, Node.evaluate, Action.andThen_apply, hread]
  · rfl
  · intro _ _ _ hcommand
    cases hcommand

/-- The parts of a string evaluate to what its segments stand for. A value is put in as it is: what
is taken over into the string is not looked at again. -/
theorem evaluateParts_segments (r : Reader) {values : String → Value} (segs : List Segment)
    {c d : Context κ} (hd : d.clearJournal = c.clearJournal)
    (hset : ∀ name ∈ segs.filterMap Segment.name?, c.valueOf? name = some (values name)) :
    ∃ next, Part.evaluateAll dispatch (segs.map (Segment.part r)) d =
        (.ok (.value (String.join (segs.map (Segment.expand r.unescapes values)))), next) ∧
      next.clearJournal = c.clearJournal := by
  induction segs generalizing d with
  | nil => exact ⟨d, by rw [List.map_nil, Part.evaluateAll]; rfl, hd⟩
  | cons seg rest ih =>
    obtain ⟨after, hpart, hafter⟩ : ∃ after, (seg.part r).evaluate dispatch d =
        (.ok (.value (seg.expand r.unescapes values)), after) ∧
        after.clearJournal = c.clearJournal := by
      cases seg with
      | text raw => exact ⟨d, by rw [Segment.part, Part.evaluate]; rfl, hd⟩
      | reference name =>
        have hvalue : d.valueOf? name = some (values name) := by
          show d.clearJournal.valueOf? name = _
          rw [hd]
          exact hset name List.mem_cons_self
        exact ⟨_, evaluate_part_variable dispatch hvalue, hd⟩
    obtain ⟨next, hrest, hnext⟩ := ih hafter (fun name hname =>
      hset name (((List.sublist_cons_self seg rest).filterMap _).subset hname))
    refine ⟨next, ?_, hnext⟩
    rw [List.map_cons, List.map_cons, evaluateParts_cons, String.join_cons]
    exact Action.andThen_value_iff.mpr ⟨_, after, hpart,
      Action.andThen_value_iff.mpr ⟨_, next, hrest, rfl⟩⟩

end Evaluation

namespace Interpreter

/-- A text of one statement that ends with a value has that value as its outcome. -/
theorem evaluate_of_value {set : CommandSet κ} {i : Interpreter} {source : String} {n : Node}
    (hprogram : i.reader.program source = .ok ⟨[n]⟩) {c next : Context κ} {v : Value}
    (hvalue : i.evaluateNode set c n ((c.under i).note (.reading i.reader source)) =
      (.ok (.value v), next)) :
    i.evaluate set source c = ([.value v], next.under c.interpreter) := by
  have hrun : statementsStep (i.evaluateNode set c) [n] []
      ((c.under i).note (.reading i.reader source)) = ((false, [.value v]), next) := by
    rw [statementsStep_cons]
    simp only [seq, hvalue, statementsStep_nil]
    rfl
  exact evaluate_of_program hprogram hrun

/-- Interpolation is textual substitution: a string without commands in it evaluates to its runs of
text with the texts of the values in between. -/
theorem evaluate_expand (set : CommandSet κ) (i : Interpreter) {raw : String}
    (hquote : '"' ∉ raw.toList) (hopen : ¬ "$(".toList <:+: raw.toList) {c : Context κ}
    {values : String → Value}
    (hset : ∀ name ∈ references raw, c.valueOf? name = some (values name)) :
    Alike (i.evaluate set ("\"" ++ raw ++ "\"") c)
      ([.value (.string (expand i.reader.unescapes values raw))], c) := by
  have hparts : i.reader.partsOf i.reader.expression (Piece.split raw) =
      .ok ((segments raw).map (Segment.part i.reader)) :=
    i.reader.partsOf_spells (spells_segments hopen)
  obtain ⟨n, hnode, hevaluate⟩ := evaluate_stringNode
    (set.dispatch (set.reenterWithin (CommandSet.levels i c))) hparts
  have hpeak : Gauge.start.peak raw.toList ≤ i.reader.maxNesting := by
    rw [Gauge.peak_of_no_open hopen]
    exact Nat.zero_le _
  have hprogram := Reader.program_quoted hquote hpeak hnode
  -- the one statement runs under the given settings, after a note that the text is read
  have hsame : ((c.under i).note (.reading i.reader ("\"" ++ raw ++ "\""))).clearJournal =
      (c.under i).clearJournal := rfl
  obtain ⟨next, hall, hnext⟩ := evaluateParts_segments
    (set.dispatch (set.reenterWithin (CommandSet.levels i c))) i.reader (segments raw) hsame hset
  have hvalue : i.evaluateNode set c n
      ((c.under i).note (.reading i.reader ("\"" ++ raw ++ "\""))) =
      (.ok (.value (.string (expand i.reader.unescapes values raw))), next) := by
    rw [evaluateNode, hevaluate]
    exact Action.andThen_value_iff.mpr ⟨_, next, hall, rfl⟩
  rw [evaluate_of_value hprogram hvalue]
  refine ⟨rfl, ?_⟩
  show (next.clearJournal).under c.interpreter = c.clearJournal
  rw [hnext]
  rfl

/-- Escaped dollar signs, dollar signs in front of digits and open braces are text, and so are the
dollar sign and the backslash of a value. -/
theorem evaluate_expand_dollars :
    references "\\$x=$x$\x7by\x7d2 $1 $\x7bx" = ["x", "y"] ∧
    Alike
      (evaluate {} (Builtin.commandSet .empty) ("\"" ++ "\\$x=$x$\x7by\x7d2 $1 $\x7bx" ++ "\"")
        (((Context.new {} "/").setVariable "x" (.string "$y\\n") false).setVariable "y"
          (.integer 7) false))
      ([.value (.string "$x=$y\\n72 $1 $\x7bx")],
        (((Context.new {} "/").setVariable "x" (.string "$y\\n") false).setVariable "y"
          (.integer 7) false)) := by
  have hreferences : references "\\$x=$x$\x7by\x7d2 $1 $\x7bx" = ["x", "y"] := by decide +kernel
  have hexpand : expand true (fun name => if name = "x" then .string "$y\\n" else .integer 7)
      "\\$x=$x$\x7by\x7d2 $1 $\x7bx" = "$x=$y\\n72 $1 $\x7bx" := by decide +kernel
  refine ⟨hreferences, ?_⟩
  rw [← hexpand]
  refine evaluate_expand _ {} (by decide) (by decide +kernel) ?_
  rw [hreferences]
  intro name hname
  simp only [List.mem_cons, List.not_mem_nil, or_false] at hname
  rcases hname with rfl | rfl <;> rfl

end Interpreter

end CommandShell
