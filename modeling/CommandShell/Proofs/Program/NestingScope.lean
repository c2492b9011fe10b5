/-
# CommandShell.Proofs.Program.NestingScope -- the limit on nesting is about whole texts

Every substitution of a string is read as a text of its own, and its nesting is checked again, with
a scan that starts from zero. That check never finds anything: a substitution is a stretch of the
text around it, and there the scan stood at least as high. So a limit refuses a text as a whole or
not at all, and what it does not refuse is read in the same way under every greater limit.
-/
import CommandShell.Proofs.Program.Joining
import CommandShell.Proofs.Program.Spans

namespace CommandShell

open Grammar Grammar.Nesting

/-! ## The scan of a stretch of a text -/

namespace Grammar.Nesting

namespace Gauge

variable {g g' : Gauge}

theorem step_mono (hdepth : g.depth ≤ g'.depth) (hdollar : g.dollar = g'.dollar) (c : Char) :
    (g.step c).depth ≤ (g'.step c).depth ∧ (g.step c).dollar = (g'.step c).dollar := by
  unfold step
  rw [hdollar]
  split
  · -- an opening that counts from below counts from above as well
    have hcounts : g'.dollar = true ∨ 0 < g.depth → g'.dollar = true ∨ 0 < g'.depth :=
      Or.imp_right (fun hpos => Nat.lt_of_lt_of_le hpos hdepth)
    refine ⟨?_, rfl⟩
    simp only
    split
    · next h => rw [if_pos (hcounts h)]; omega
    · split <;> omega
  split
  · refine ⟨?_, rfl⟩
    simp only
    omega
  · exact ⟨hdepth, rfl⟩

/-- A scan that starts higher stays higher. -/
theorem peak_mono (hdepth : g.depth ≤ g'.depth) (hdollar : g.dollar = g'.dollar) (u : List Char) :
    g.peak u ≤ g'.peak u := by
  induction u generalizing g g' with
  | nil => exact hdepth
  | cons c u ih =>
    obtain ⟨hstep, hdollar⟩ := step_mono hdepth hdollar c
    have hrest := ih hstep hdollar
    show max g.depth ((g.step c).peak u) ≤ max g'.depth ((g'.step c).peak u)
    omega

/-- From a dollar sign on, what stands in front of a stretch only adds to its peak. -/
theorem peak_le_of_infix {v text : List Char} (h : '$' :: v <:+: text) :
    start.peak ('$' :: v) ≤ start.peak text := by
  obtain ⟨a, b, rfl⟩ := h
  have hfront : start.peak ('$' :: v) ≤ (start.after a).peak ('$' :: v) := by
    have hdepth : (start.step '$').depth ≤ ((start.after a).step '$').depth := Nat.zero_le _
    have hdollar : (start.step '$').dollar = ((start.after a).step '$').dollar := rfl
    have hrest := peak_mono hdepth hdollar v
    show max 0 _ ≤ max _ _
    omega
  calc start.peak ('$' :: v)
      ≤ (start.after a).peak ('$' :: v) := hfront
    _ ≤ start.peak (a ++ '$' :: v) := after_peak_le_peak_append _ _ _
    _ ≤ start.peak (a ++ '$' :: v ++ b) := peak_le_peak_append _ _ _

end Gauge

theorem firstExcess_of_le {limit limit' : Nat} {text : List Char} (hle : limit ≤ limit')
    (h : firstExcess limit text = none) : firstExcess limit' text = none := by
  rw [firstExcess_eq_none_iff] at h ⊢
  omega

end Grammar.Nesting

/-- A substitution of an admitted text is admitted. -/
theorem Grammar.StandsIn.firstExcess_span {limit : Nat} {text : List Char} {w span : String}
    (hw : StandsIn text w) (hspan : Piece.span span ∈ Piece.split w)
    (h : firstExcess limit text = none) : firstExcess limit span.toList = none := by
  obtain ⟨hstretch, -, v, hv⟩ := hw.span hspan
  rw [firstExcess_eq_none_iff] at h ⊢
  rw [hv] at hstretch ⊢
  exact le_trans (Gauge.peak_le_of_infix hstretch) h

namespace Reader

variable {r r' : Reader} {source : String} {f : String → Except ReadError Node} {e : ReadError}

/-! ## Trees of admitted texts -/

/-- An admitted text is a matter of the grammar alone. -/
theorem match?_of_admitted {α : Type} {text : List Char} (h : firstExcess r.maxNesting text = none)
    (grammar : List Char → Except Refusals α) :
    r.match? grammar text = (grammar text).mapError (ReadError.ofRefusals text) := by
  rw [match?, h]

theorem match?_congr {α : Type} {text : List Char} (h : firstExcess r.maxNesting text = none)
    (h' : firstExcess r'.maxNesting text = none) (grammar : List Char → Except Refusals α) :
    r.match? grammar text = r'.match? grammar text := by
  rw [match?_of_admitted h, match?_of_admitted h']

theorem stuck_of_expressionTree (hadmitted : firstExcess r.maxNesting source.toList = none)
    (h : r.expressionTree source = .error e) : ∃ place expected, e = .stuck place expected := by
  rw [expressionTree, match?_of_admitted hadmitted] at h
  cases hgrammar : Grammar.expression source.toList with
  | ok b =>
    rw [hgrammar] at h
    cases h
  | error refused =>
    rw [hgrammar] at h
    cases h
    exact ⟨_, _, rfl⟩

/-- No tree is refused for a substitution in a string. -/
theorem match?_ne_substitution {α : Type} (grammar : List Char → Except Refusals α)
    (text : List Char) (span : String) (inner : ReadError) :
    r.match? grammar text ≠ .error (.substitution span inner) := by
  intro h
  unfold match? at h
  split at h
  · cases h
  · cases hgrammar : grammar text with
    | ok a =>
      rw [hgrammar] at h
      cases h
    | error refused =>
      rw [hgrammar] at h
      cases h

/-! ## Where errors come from -/

mutual

/-- Only a string keeps a tree from being turned into a node. -/
theorem nodeOf_error : ∀ b : Body, nodeOf f b = .error e → ∃ w ∈ b.strings, f w = .error e
  | .command name arguments, h => by
      rw [nodeOf, bind_eq_error] at h
      rcases h with h | ⟨_, -, h⟩
      · exact wordsOf_error arguments h
      · cases h
  | .expr e', h => by
      rw [nodeOf] at h
      exact exprNode_error e' h

theorem wordsOf_error : ∀ words : List Argument, wordsOf f words = .error e →
    ∃ w ∈ Argument.stringsOf words, f w = .error e
  | [], h => by cases h
  | a :: rest, h => by
      simp only [wordsOf, bind_eq_error] at h
      rcases h with h | ⟨_, -, h | ⟨_, -, h⟩⟩
      · obtain ⟨w, hw, hf⟩ := wordNode_error a h
        exact ⟨w, List.mem_append_left _ hw, hf⟩
      · obtain ⟨w, hw, hf⟩ := wordsOf_error rest h
        exact ⟨w, List.mem_append_right _ hw, hf⟩
      · cases h

theorem wordNode_error : ∀ a : Argument, wordNode f a = .error e → ∃ w ∈ a.strings, f w = .error e
  | .flag _ _, h => by cases h
  | .expr e', h => by
      rw [wordNode] at h
      exact exprNode_error e' h

theorem exprNode_error : ∀ e' : Expr, exprNode f e' = .error e → ∃ w ∈ e'.strings, f w = .error e
  | .variable _, h => by cases h
  | .substitution inner, h => by
      rw [exprNode] at h
      exact nodeOf_error inner h
  | .quoted raw, h => ⟨raw, List.mem_singleton_self raw, h⟩
  | .bare raw, h => ⟨raw, List.mem_singleton_self raw, h⟩
  | .integer _, h => by cases h
  | .float _, h => by cases h

end

theorem statementNodes_error {t : List Statement} (h : statementNodes f t = .error e) :
    ∃ w ∈ Statement.stringsOf t, f w = .error e := by
  induction t with
  | nil => cases h
  | cons s t ih =>
    rw [Statement.stringsOf, List.flatMap_cons]
    obtain ⟨_ | body, note⟩ := s
    · obtain ⟨w, hw, hf⟩ := ih h
      exact ⟨w, hw, hf⟩
    · simp only [statementNodes, bind_eq_error] at h
      rcases h with h | ⟨_, -, h | ⟨_, -, h⟩⟩
      · obtain ⟨w, hw, hf⟩ := nodeOf_error body h
        exact ⟨w, List.mem_append_left _ hw, hf⟩
      · obtain ⟨w, hw, hf⟩ := ih h
        exact ⟨w, List.mem_append_right _ hw, hf⟩
      · cases h

theorem partsOf_error {pieces : List Piece} (h : r.partsOf f pieces = .error e) :
    ∃ span inner, Piece.span span ∈ pieces ∧ f span = .error inner ∧
      e = .substitution span inner := by
  induction pieces with
  | nil => cases h
  | cons piece rest ih =>
    cases piece with
    | text raw =>
      simp only [partsOf, bind_eq_error] at h
      rcases h with h | ⟨_, -, h⟩
      · obtain ⟨span, inner, hspan, hf, he⟩ := ih h
        exact ⟨span, inner, List.mem_cons_of_mem _ hspan, hf, he⟩
      · cases h
    | span raw =>
      simp only [partsOf, bind_eq_error] at h
      rcases h with h | ⟨_, -, h | ⟨_, -, h⟩⟩
      · cases hf : f raw with
        | ok n =>
          rw [hf] at h
          cases h
        | error inner =>
          rw [hf] at h
          cases h
          exact ⟨raw, inner, List.mem_cons_self, hf, rfl⟩
      · obtain ⟨span, inner, hspan, hf, he⟩ := ih h
        exact ⟨span, inner, List.mem_cons_of_mem _ hspan, hf, he⟩
      · cases h

/-- A string is refused for one of its substitutions. -/
theorem stringNode_error {w : String} (h : r.stringNode f w = .error e) :
    ∃ span inner, Piece.span span ∈ Piece.split w ∧ f span = .error inner ∧
      e = .substitution span inner := by
  rw [stringNode, bind_eq_error] at h
  rcases h with h | ⟨parts, -, h⟩
  · exact partsOf_error h
  · split at h <;> cases h

/-! ## Strings of admitted texts -/

section Strings

variable {text : List Char} {w : String} (hw : StandsIn text w)

include hw

/-- The substitutions of a string are read without a further level. -/
theorem stringNode_expression :
    r.stringNode r.expression w = r.stringNode (r.expressionWithin 0) w := by
  refine r.stringNode_congr (fun span hspan => ?_)
  obtain ⟨-, hquote, -⟩ := hw.span hspan
  exact r.expression_of_no_quote hquote

/-- A string of an admitted text is refused only where the grammar is stuck in a substitution. -/
theorem stuck_of_stringNode (hadmitted : firstExcess r.maxNesting text = none)
    (h : r.stringNode r.expression w = .error e) :
    ∃ span place expected, e = .substitution span (.stuck place expected) := by
  rw [stringNode_expression hw] at h
  obtain ⟨span, inner, hspan, hinner, rfl⟩ := stringNode_error h
  obtain ⟨place, expected, rfl⟩ : ∃ place expected, inner = .stuck place expected := by
    cases hb : r.expressionTree span with
    | error e =>
      rw [expressionWithin_of_error hb] at hinner
      cases hinner
      exact stuck_of_expressionTree (hw.firstExcess_span hspan hadmitted) hb
    | ok b =>
      rw [expressionWithin_zero hb] at hinner
      obtain ⟨_, -, hnone⟩ := nodeOf_error b hinner
      cases hnone
  exact ⟨span, place, expected, rfl⟩

theorem stuck_of_substitution (hadmitted : firstExcess r.maxNesting text = none) {span : String}
    {inner : ReadError} (h : r.stringNode r.expression w = .error (.substitution span inner)) :
    ∃ place expected, inner = .stuck place expected := by
  obtain ⟨_, place, expected, heq⟩ := stuck_of_stringNode hw hadmitted h
  cases heq
  exact ⟨place, expected, rfl⟩

/-- What a string of an admitted text is read as does not depend on the limit. -/
theorem stringNode_admitted (hunescapes : r.unescapes = r'.unescapes)
    (hadmitted : firstExcess r.maxNesting text = none)
    (hadmitted' : firstExcess r'.maxNesting text = none) :
    r.stringNode r.expression w = r'.stringNode r'.expression w := by
  have hparts : ∀ pieces, r.partsOf r'.expression pieces = r'.partsOf r'.expression pieces := by
    intro pieces
    induction pieces with
    | nil => rfl
    | cons piece rest ih =>
      cases piece with
      | text raw => rw [partsOf, partsOf, ih, plain, plain, hunescapes]
      | span raw => rw [partsOf, partsOf, ih]
  have hspans : r.stringNode r.expression w = r.stringNode r'.expression w := by
    refine r.stringNode_congr (fun span hspan => ?_)
    obtain ⟨-, hquote, -⟩ := hw.span hspan
    rw [r.expression_of_no_quote hquote, r'.expression_of_no_quote hquote, expressionWithin,
      expressionWithin, expressionTree, expressionTree,
      match?_congr (hw.firstExcess_span hspan hadmitted) (hw.firstExcess_span hspan hadmitted')]
  rw [hspans, stringNode, stringNode, hparts]

end Strings

/-! ## Whole texts -/

/-- A text that two limits admit is read in the same way under both. -/
theorem program_admitted (hunescapes : r.unescapes = r'.unescapes)
    (hadmitted : firstExcess r.maxNesting source.toList = none)
    (hadmitted' : firstExcess r'.maxNesting source.toList = none) :
    r.program source = r'.program source := by
  rw [program, program, programTree, programTree, match?_congr hadmitted hadmitted']
  cases ht : r'.match? Grammar.program source.toList with
  | error e => rfl
  | ok t =>
    have hstrings := (programTree_eq_ok_iff.mp ht).2.strings_standIn
    have hnodes := statementNodes_congr (fun w hw =>
      stringNode_admitted (hstrings w hw) hunescapes hadmitted hadmitted')
    show (statementNodes _ t >>= fun statements => _) = (statementNodes _ t >>= fun statements => _)
    rw [hnodes]

theorem stuck_of_program {span : String} {inner : ReadError}
    (h : r.program source = .error (.substitution span inner)) :
    ∃ place expected, inner = .stuck place expected := by
  cases ht : r.programTree source with
  | error e =>
    rw [program, ht] at h
    cases h
    exact absurd ht (match?_ne_substitution _ _ _ _)
  | ok t =>
    obtain ⟨hadmitted, htext⟩ := programTree_eq_ok_iff.mp ht
    rw [program, ht] at h
    have hnodes : statementNodes (r.stringNode r.expression) t = .error (.substitution span inner) ∨
        _ := bind_eq_error.mp h
    rcases hnodes with h | ⟨_, -, h⟩
    · obtain ⟨w, hw, hstring⟩ := statementNodes_error h
      exact stuck_of_substitution (htext.strings_standIn w hw) hadmitted hstring
    · cases h

theorem stuck_of_expression {span : String} {inner : ReadError}
    (h : r.expression source = .error (.substitution span inner)) :
    ∃ place expected, inner = .stuck place expected := by
  cases hb : r.expressionTree source with
  | error e =>
    rw [expression, expressionWithin_of_error hb] at h
    cases h
    exact absurd hb (match?_ne_substitution _ _ _ _)
  | ok b =>
    obtain ⟨hadmitted, htext⟩ := expressionTree_eq_ok_iff.mp hb
    rw [expression_of_tree hb] at h
    obtain ⟨w, hw, hstring⟩ := nodeOf_error b h
    exact stuck_of_substitution (htext.strings_standIn w hw) hadmitted hstring

theorem program_one_level : r.program source = (do
    let tree ← r.programTree source
    let statements ← statementNodes (r.stringNode (r.expressionWithin 0)) tree
    return ⟨statements⟩) := by
  rw [program]
  cases ht : r.programTree source with
  | error e => rfl
  | ok t =>
    have hstrings := (programTree_eq_ok_iff.mp ht).2.strings_standIn
    show (statementNodes _ t >>= fun statements => _) = (statementNodes _ t >>= fun statements => _)
    rw [statementNodes_congr (fun w hw => stringNode_expression (r := r) (hstrings w hw))]

theorem expression_one_level : r.expression source = r.expressionWithin 1 source := by
  cases hb : r.expressionTree source with
  | error e => rw [expression, expressionWithin_of_error hb, expressionWithin_of_error hb]
  | ok b =>
    have hstrings := (expressionTree_eq_ok_iff.mp hb).2.strings_standIn
    rw [expression_of_tree hb, expressionWithin_succ hb]
    exact nodeOf_congr b (fun w hw => stringNode_expression (hstrings w hw))

/-- The limit on nesting is checked against whole texts, and otherwise does not count.

* A text that is not refused for its nesting is read in the same way under every greater limit,
  whether it is a program or not.
* A substitution in a string is refused because the grammar is stuck in it, not for its nesting and
  not for a substitution in a string of its own.
* So the substitutions of a text are read without a further level. -/
theorem limit_of_whole_texts (unescapes : Bool) (source : String) :
    (∀ limit limit' : Nat, limit ≤ limit' →
      (∀ place most, Reader.program ⟨unescapes, limit⟩ source ≠ .error (.tooDeep place most)) →
      Reader.program ⟨unescapes, limit'⟩ source = Reader.program ⟨unescapes, limit⟩ source) ∧
    (∀ (limit : Nat) (span : String) (inner : ReadError),
      Reader.program ⟨unescapes, limit⟩ source = .error (.substitution span inner) ∨
        Reader.expression ⟨unescapes, limit⟩ source = .error (.substitution span inner) →
      ∃ place expected, inner = .stuck place expected) ∧
    ∀ limit : Nat,
      Reader.program ⟨unescapes, limit⟩ source = (do
        let tree ← Reader.programTree ⟨unescapes, limit⟩ source
        let statements ← statementNodes (Reader.stringNode ⟨unescapes, limit⟩
          (Reader.expressionWithin ⟨unescapes, limit⟩ 0)) tree
        return ⟨statements⟩) ∧
      Reader.expression ⟨unescapes, limit⟩ source =
        Reader.expressionWithin ⟨unescapes, limit⟩ 1 source := by
  refine ⟨fun limit limit' hle h => ?_, fun limit span inner h => ?_, fun limit => ⟨?_, ?_⟩⟩
  · cases hadmitted : firstExcess limit source.toList with
    | none => exact program_admitted rfl (firstExcess_of_le hle hadmitted) hadmitted
    | some place => exact absurd (program_of_excess hadmitted) (h place limit)
  · exact h.elim stuck_of_program stuck_of_expression
  · exact program_one_level
  · exact expression_one_level

/-- A limit of one is enough for a substitution that is refused, and nine do not help it. -/
theorem limit_of_whole_texts_stuck :
    (∀ place most,
      Reader.program ⟨true, 1⟩ "a \"<$(b ;)>\"" ≠ .error (.tooDeep place most)) ∧
    Reader.program ⟨true, 9⟩ "a \"<$(b ;)>\"" = Reader.program ⟨true, 1⟩ "a \"<$(b ;)>\"" ∧
    ∃ inner, Reader.program ⟨true, 1⟩ "a \"<$(b ;)>\"" = .error (.substitution "$(b ;)" inner) ∧
      ∃ place expected, inner = .stuck place expected := by
  have hread : Reader.program ⟨true, 1⟩ "a \"<$(b ;)>\"" = .error (.substitution "$(b ;)"
      (.stuck ⟨1, 5⟩ [.mark .dollar, .mark .openSubstitution, .mark .openVariable,
        .mark .closeSubstitution, .mark .dash, .mark .doubleDash, .mark .quote, .sign, .digit,
        .string])) := by
    cbv
  have hdepth : ∀ place most,
      Reader.program ⟨true, 1⟩ "a \"<$(b ;)>\"" ≠ .error (.tooDeep place most) := by
    intro place most h
    rw [hread] at h
    cases h
  obtain ⟨hlimits, hinner, -⟩ := limit_of_whole_texts true "a \"<$(b ;)>\""
  exact ⟨hdepth, hlimits 1 9 (by decide) hdepth, _, hread, hinner 1 _ _ (.inl hread)⟩

end Reader

end CommandShell
