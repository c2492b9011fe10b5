/-
# CommandShell.Proofs.Program.StuckTexts -- where a refused text points to

A program is refused by the grammar when its statements stop before the end of the text. The report
then points at that place or behind it, inside the text, and says what could have gone on: at the
end of a statement at least a separator could. What stands before the place is a program by itself.

A text that should be one command or expression is refused when something follows the body that was
read. No rule is tried at that place: the end of the text is required, and that it is not reached is
not reported. So the report says only what was tried on the way, and that is said here exactly:
whether it is anything, and whether it lies at the end of the body or before it.
-/
import CommandShell.Proofs.Grammar.BodyEnds
import CommandShell.Proofs.Program.NestingScope
import CommandShell.Proofs.Text.Positions

namespace CommandShell

open Grammar Grammar.Nesting Rule
open Text (Position)

namespace Grammar

/-- The cursor behind what a rule took of a text. -/
theorem Rule.Orderly.offset_eq {α : Type} {p : Rule α} (hp : Orderly p) {source u : List Char}
    {a : α} {next : Cursor} (h : (p (Cursor.start source)).result = some (a, next))
    (hu : source = u ++ next.rest) : next.offset = u.length := by
  have hfinish := (hp.forward h).2
  have hlength := congrArg List.length hu
  simp only [Cursor.finish, Cursor.start, List.length_append] at hfinish hlength
  omega

/-- The refusals of a rule on a text lie inside it. -/
theorem Rule.Orderly.inside_start {α : Type} {p : Rule α} (hp : Orderly p) (source : List Char) :
    (p (Cursor.start source)).refusals.offset ≤ source.length :=
  (hp.inside (Cursor.start source)).trans (Nat.le_of_eq (Nat.zero_add _))

theorem firstExcess_of_append {limit : Nat} {u v : List Char}
    (h : firstExcess limit (u ++ v) = none) : firstExcess limit u = none := by
  rw [firstExcess_eq_none_iff] at h ⊢
  exact (Gauge.start.peak_le_peak_append u v).trans h

/-- A text on which a rule fails leaves the refusals of the rule. -/
theorem runOn_eq_error {α : Type} {rule : Rule Body → Rule α} {source : List Char}
    {refused : Refusals} (h : runOn rule source = .error refused) :
    (rule (bodyWithin (source.length + 1)) (Cursor.start source)).result = none ∧
      (rule (bodyWithin (source.length + 1)) (Cursor.start source)).refusals = refused := by
  unfold runOn at h
  rcases hr : rule (bodyWithin (source.length + 1)) (Cursor.start source) with
    ⟨_ | ⟨found, last⟩, r⟩
  · rw [hr] at h
    cases h
    exact ⟨rfl, rfl⟩
  · rw [hr] at h
    cases h

/-- A refused program has statements up to some place, and its refusals are theirs. -/
theorem program_eq_error {source : List Char} {refused : Refusals}
    (h : program source = .error refused) :
    ∃ found stop,
      (statements (bodyWithin (source.length + 1)) (Cursor.start source)).result =
        some (found, stop) ∧
      (statements (bodyWithin (source.length + 1)) (Cursor.start source)).refusals = refused := by
  obtain ⟨-, hrefused⟩ := runOn_eq_error h
  rcases hr : (statements (bodyWithin (source.length + 1)) (Cursor.start source)).result with
    _ | ⟨found, stop⟩
  · exact absurd hr (total_statements _ _)
  · refine ⟨found, stop, rfl, ?_⟩
    rw [← hrefused, programOver, refusals_bind_of_some hr]
    rcases hend : (atEnd stop).result with _ | ⟨⟨⟩, last⟩
    · rw [refusals_bind_of_none hend]
      exact (Refusals.merge_none _).symm
    · rw [refusals_bind_of_some hend]
      exact (Refusals.merge_none _).symm

/-- Of a text that is refused as an expression, the refusals are those of its body. -/
theorem expression_eq_error {source : List Char} {refused : Refusals}
    (h : expression source = .error refused) :
    (bodyWithin (source.length + 1) ((Cursor.start source).skipWhile isSpace)).refusals =
      refused := by
  obtain ⟨-, hrefused⟩ := runOn_eq_error h
  have hblank : (skipSpaces (Cursor.start source)).result =
      some ((), (Cursor.start source).skipWhile isSpace) := rfl
  rw [← hrefused, expressionOver, refusals_bind_of_some hblank]
  refine Eq.trans ?_ (Refusals.none_merge _).symm
  rcases hbody : (bodyWithin (source.length + 1)
      ((Cursor.start source).skipWhile isSpace)).result with _ | ⟨b, next⟩
  · rw [refusals_bind_of_none hbody]
  · have hskip : (skipSpaces next).result = some ((), next.skipWhile isSpace) := rfl
    have hend : ((do atEnd; pure b) (next.skipWhile isSpace)).refusals = .none := by
      rcases hr : (atEnd (next.skipWhile isSpace)).result with _ | ⟨⟨⟩, last⟩
      · rw [refusals_bind_of_none hr]
        rfl
      · rw [refusals_bind_of_some hr]
        rfl
    rw [refusals_bind_of_some hbody, refusals_bind_of_some hskip, hend]
    exact (Refusals.merge_none _).symm

end Grammar

namespace Reader

variable {r : Reader} {source : String} {place : Position} {expected : List Expected}

/-- What is stuck is the grammar, and not the reading of a string. -/
theorem programTree_of_stuck (h : r.program source = .error (.stuck place expected)) :
    r.programTree source = .error (.stuck place expected) := by
  cases ht : r.programTree source with
  | error e =>
    rw [program, ht] at h
    cases h
    rfl
  | ok t =>
    rw [program, ht] at h
    have hnodes : statementNodes (r.stringNode r.expression) t = .error (.stuck place expected) ∨
        _ := bind_eq_error.mp h
    rcases hnodes with h | ⟨_, -, h⟩
    · obtain ⟨w, -, hstring⟩ := statementNodes_error h
      obtain ⟨span, inner, -, -, heq⟩ := stringNode_error hstring
      cases heq
    · cases h

theorem refusals_of_stuck {α : Type} {grammar : List Char → Except Refusals α} {text : List Char}
    (h : r.match? grammar text = .error (.stuck place expected)) :
    firstExcess r.maxNesting text = none ∧ ∃ refused, grammar text = .error refused ∧
      place = .ofOffset text refused.offset ∧ expected = Expected.arrange refused.expected := by
  unfold match? at h
  split at h
  · cases h
  · next hadmitted =>
    cases hgrammar : grammar text with
    | ok a =>
      rw [hgrammar] at h
      cases h
    | error refused =>
      rw [hgrammar] at h
      cases h
      exact ⟨hadmitted, refused, rfl, rfl, rfl⟩

theorem arrange_eq_nil_iff {es : List Expected} : Expected.arrange es = [] ↔ es = [] := by
  simp only [List.eq_nil_iff_forall_not_mem, Expected.mem_arrange]

/-- A program that the grammar refuses. The statements that it reads stop at some place. The report
names at least one terminal, it points to an offset between that place and the end of the text, by
the line feeds before the offset and the characters behind the last of them, and what stands before
the place is a program by itself, with the statements that were read. -/
theorem program_stuck (h : r.program source = .error (.stuck place expected)) :
    ∃ found stop,
      (Grammar.statements (bodyWithin (source.toList.length + 1))
        (Cursor.start source.toList)).result = some (found, stop) ∧
      expected ≠ [] ∧
      place.PointsFrom source.toList stop.offset ∧
      r.programTree (String.ofList (source.toList.take stop.offset)) = .ok found := by
  obtain ⟨hadmitted, refused, hgrammar, rfl, rfl⟩ := refusals_of_stuck (programTree_of_stuck h)
  obtain ⟨found, stop, hfound, rfl⟩ := program_eq_error hgrammar
  have horderly := orderly_statements (orderly_bodyWithin (source.toList.length + 1))
  have hreaches := statements_reaches (orderly_bodyWithin _) hfound
  have hinside := horderly.inside_start source.toList
  refine ⟨found, stop, hfound, ?_, ?_, ?_⟩
  · exact fun hnil => hreaches.expected (arrange_eq_nil_iff.mp hnil)
  · exact (Position.pointsFrom_ofOffset_iff hinside).mpr hreaches.offset
  · obtain ⟨u, hsource, hu⟩ := (sound_statements (sound_bodyWithin _)).taken hfound
    change source.toList = u ++ stop.rest at hsource
    rw [horderly.offset_eq hfound hsource, programTree_eq_ok_iff, String.toList_ofList, hsource,
      List.take_left]
    rw [hsource] at hadmitted
    exact ⟨firstExcess_of_append hadmitted, hu⟩

/-- The second line is no command: its name is read, and the report points behind the blank that
follows. -/
theorem program_stuck_assignment :
    Reader.program {} "echo ok\nset = 3" = .error (.stuck ⟨2, 5⟩ [.mark .hash, .mark .dollar,
      .mark .openSubstitution, .mark .openVariable, .mark .dash, .mark .doubleDash,
      .mark .semicolon, .mark .quote, .mark .lineFeed, .mark .carriageReturn, .sign, .digit,
      .string]) ∧
    ∃ (found : List Statement) (stop : Cursor), stop.offset = 12 ∧
      Reader.programTree {} (String.ofList ("echo ok\nset = 3".toList.take stop.offset)) =
        .ok found := by
  have hstuck : Reader.program {} "echo ok\nset = 3" = .error (.stuck ⟨2, 5⟩ [.mark .hash,
      .mark .dollar, .mark .openSubstitution, .mark .openVariable, .mark .dash, .mark .doubleDash,
      .mark .semicolon, .mark .quote, .mark .lineFeed, .mark .carriageReturn, .sign, .digit,
      .string]) := by
    cbv
  obtain ⟨found, stop, hfound, -, -, htree⟩ := program_stuck hstuck
  refine ⟨hstuck, found, stop, ?_, htree⟩
  have hoffset : ((Grammar.statements (bodyWithin ("echo ok\nset = 3".toList.length + 1))
      (Cursor.start "echo ok\nset = 3".toList)).result.map (fun r => r.2.offset)) = some 12 := by
    decide +kernel
  rw [hfound] at hoffset
  exact Option.some.inj hoffset

theorem expressionTree_of_stuck (h : r.expression source = .error (.stuck place expected)) :
    r.expressionTree source = .error (.stuck place expected) := by
  cases hb : r.expressionTree source with
  | error e =>
    rw [expression, expressionWithin_of_error hb] at h
    cases h
    rfl
  | ok b =>
    rw [expression_of_tree hb] at h
    obtain ⟨w, -, hstring⟩ := nodeOf_error b h
    obtain ⟨span, inner, -, -, heq⟩ := stringNode_error hstring
    cases heq

/-- A text that is refused as an expression. If no body starts behind the blanks, the report names
something that could have, and points there or further on. If there is a body, the report names
nothing at all exactly if that is a command that has no words but flags with two dashes and no blank
behind it; and it points to the end of the body with its blanks, or further on, exactly if the body
is a command before a blank, or ends in a number without a blank behind it. -/
theorem expression_stuck (h : r.expression source = .error (.stuck place expected)) :
    let first := (Cursor.start source.toList).skipWhile isSpace
    let attempt := (bodyWithin (source.toList.length + 1) first).result
    (attempt = none → expected ≠ [] ∧ place.PointsFrom source.toList first.offset) ∧
    (∀ b next, attempt = some (b, next) →
      (expected = [] ↔ b.hasOnlyLongFlags = true ∧ Avoids isSpace next.rest) ∧
      (place.PointsFrom source.toList (next.skipWhile isSpace).offset ↔
        b.isCommand = true ∧ ¬ Avoids isSpace next.rest ∨
        b.endsInNumber = true ∧ Avoids isSpace next.rest)) := by
  intro first attempt
  obtain ⟨-, refused, hgrammar, rfl, rfl⟩ := refusals_of_stuck (expressionTree_of_stuck h)
  obtain rfl : (bodyWithin (source.toList.length + 1) first).refusals = refused :=
    expression_eq_error hgrammar
  have hinside : (bodyWithin (source.toList.length + 1) first).refusals.offset ≤
      source.toList.length := by
    refine ((orderly_bodyWithin _).inside first).trans ?_
    rw [finish_skipWhile]
    exact Nat.le_of_eq (Nat.zero_add _)
  simp only [Position.pointsFrom_ofOffset_iff hinside, arrange_eq_nil_iff, ne_eq]
  refine ⟨fun hnone => ?_, fun b next hbody => ⟨body_unreported_iff hbody, body_reaches_iff hbody⟩⟩
  have hreaches := explains_bodyOver (orderly_bodyWithin source.toList.length) first hnone
  exact ⟨hreaches.expected, hreaches.offset⟩

/-- Behind the blank of a command one more word was tried. -/
theorem expression_stuck_blank :
    Reader.expression {} "a )" = .error (.stuck ⟨1, 3⟩ [.mark .dollar, .mark .openSubstitution,
      .mark .openVariable, .mark .dash, .mark .doubleDash, .mark .quote, .sign, .digit,
      .string]) ∧
    Position.PointsFrom "a )".toList 2 ⟨1, 3⟩ := by
  have hstuck : Reader.expression {} "a )" = .error (.stuck ⟨1, 3⟩ [.mark .dollar,
      .mark .openSubstitution, .mark .openVariable, .mark .dash, .mark .doubleDash, .mark .quote,
      .sign, .digit, .string]) := by
    cbv
  have hbody : (bodyWithin ("a )".toList.length + 1)
      ((Cursor.start "a )".toList).skipWhile isSpace)).result =
        some (.command "a" [], ⟨1, " )".toList⟩) := rfl
  obtain ⟨-, hread⟩ := expression_stuck hstuck
  exact ⟨hstuck, (hread _ _ hbody).2.mpr (.inl ⟨rfl, fun h => absurd (h ' ' rfl) (by decide)⟩)⟩

/-- A command without words and nothing but a parenthesis behind it: nothing is reported, and the
report points before the command. -/
theorem expression_unreported :
    Reader.expression {} "a)" = .error (.stuck ⟨1, 1⟩ []) ∧
    (bodyWithin ("a)".toList.length + 1) ((Cursor.start "a)".toList).skipWhile isSpace)).result =
      some (.command "a" [], ⟨1, [')']⟩) ∧
    ¬ Position.PointsFrom "a)".toList 1 ⟨1, 1⟩ := by
  refine ⟨by cbv, rfl, fun h => ?_⟩
  have hstart : (⟨1, 1⟩ : Position) = .ofOffset "a)".toList 0 := rfl
  rw [hstart, Position.pointsFrom_ofOffset_iff (Nat.zero_le _)] at h
  cases h

end Reader

end CommandShell
