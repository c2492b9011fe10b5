/-
# CommandShell.Proofs.Grammar.Lines -- programs and their lines

A line that is a program stays one in front of other lines: nothing in it takes the line ending, and
a comment that ran to the end of the text runs to the end of the line. So a text whose lines are
programs is derived by the grammar as a whole, with the statements of its lines in order. All that
can still keep it from being read is the scan for nesting, which goes on from line to line; but then
there is more than one line to it.
-/
import CommandShell.Proofs.Grammar.NestingLimit
import CommandShell.Text.Blank
import CommandShell.Text.Lines

namespace CommandShell

open Grammar Grammar.Nesting

/-! ## The lines of a text -/

namespace Text

/-- The endings of lines. -/
inductive LineEnd : List Char → Prop
  | lineFeed : LineEnd ['\n']
  | carriageReturn : LineEnd ['\r', '\n']

/-- A text as lines with endings; the last line may lack one. -/
inductive LinesText : List Char → List (List Char) → Prop
  | nil : LinesText [] []
  | last (u : List Char) : LinesText u [u]
  | next {u e v : List Char} {ls : List (List Char)} :
      LineEnd e → LinesText v ls → LinesText (u ++ (e ++ v)) (u :: ls)

theorem LinesText.cons {u : List Char} {line : List Char} {more : List (List Char)} (c : Char)
    (h : LinesText u (line :: more)) : LinesText (c :: u) ((c :: line) :: more) := by
  cases h with
  | last => exact .last _
  | next he hv => exact .next (u := c :: line) he hv

theorem linesText_splitLines (text : List Char) : LinesText text (splitLines text) := by
  fun_induction splitLines text with
  | case1 => exact .nil
  | case2 rest ih => exact .next (u := []) .lineFeed ih
  | case3 rest ih => exact .next (u := []) .carriageReturn ih
  | case4 c rest hfeed hreturn hnone ih =>
    rw [hnone] at ih
    cases ih
    exact .last _
  | case5 c rest hfeed hreturn line more hsome ih =>
    rw [hsome] at ih
    exact ih.cons c

/-- Behind a line break that is not inside, everything is blank. -/
theorem isBlank_of_breaksInside {u v : List Char} (h : breaksInside (u ++ '\n' :: v) = false) :
    ∀ c ∈ v, isBlank c = true := by
  induction u with
  | nil =>
    have hany : (v.any (fun d => !isBlank d)) = false := by
      have hor := (Bool.or_eq_false_iff.mp h).1
      simpa using hor
    simpa using hany
  | cons c u ih => exact ih (Bool.or_eq_false_iff.mp h).2

end Text

open Text

namespace Grammar

/-! ## One line in front of others -/

theorem AtLineEnd.append {u v w : List Char} (h : AtLineEnd (u ++ v))
    (hv : ∀ c ∈ (v ++ w).head?, c ∈ v.head? ∨ c = '\n' ∨ c = '\r') : AtLineEnd (u ++ (v ++ w)) := by
  intro c hc
  cases u with
  | nil =>
    rcases hv c hc with hc | hc
    · exact h c hc
    · exact hc
  | cons d u => exact h c hc

theorem StatementText.append_line {follow u e v : List Char} {s : Statement}
    (h : StatementText follow u s) (he : LineEnd e) : StatementText (follow ++ (e ++ v)) u s := by
  obtain ⟨ha, hu, hb, hv, hc, hline⟩ := h
  refine .mk ha hu hb hv hc (fun hnote => (hline hnote).append ?_)
  intro d hd
  cases follow with
  | nil =>
    -- a comment that ran to the end of the text now stops at the line ending
    right
    cases he <;> cases hd
    · exact .inl rfl
    · exact .inr rfl
  | cons f follow => exact .inl hd

theorem separatorText_of_lineEnd {e : List Char} (h : LineEnd e) : SeparatorText e := by
  cases h with
  | lineFeed => exact .lineFeed
  | carriageReturn => exact .carriageReturn

/-- Nothing in a line takes its ending. -/
theorem ProgramText.append_line {u e v : List Char} {t t' : List Statement} (h : ProgramText u t)
    (he : LineEnd e) (hv : ProgramText v t') : ProgramText (u ++ (e ++ v)) (t ++ t') := by
  induction h with
  | last hu => exact .next (hu.append_line he) (separatorText_of_lineEnd he) hv
  | @next u sep w s _ hu hsep _ ih =>
    have hstatement : StatementText (sep ++ (w ++ (e ++ v))) u s := by
      rw [← List.append_assoc]
      exact hu.append_line he
    simpa using ProgramText.next hstatement hsep ih

theorem programText_nil : ProgramText [] [⟨none, none⟩] :=
  .last (.mk (u := []) blanks_nil .absent blanks_nil .absent blanks_nil (fun h => by cases h))

end Grammar

/-! ## The nodes of several lines -/

namespace Reader

theorem statementNodes_append {readString : String → Except ReadError Node}
    {t t' : List Statement} {ns ms : List Node} (ht : statementNodes readString t = .ok ns)
    (ht' : statementNodes readString t' = .ok ms) :
    statementNodes readString (t ++ t') = .ok (ns ++ ms) := by
  induction t generalizing ns with
  | nil =>
    cases ht
    exact ht'
  | cons s t ih =>
    obtain ⟨_ | body, note⟩ := s
    · exact ih ht
    · rw [statementNodes] at ht
      rw [List.cons_append, statementNodes]
      cases hnode : nodeOf readString body with
      | error e =>
        rw [hnode] at ht
        cases ht
      | ok node =>
        rw [hnode] at ht
        cases hmore : statementNodes readString t with
        | error e =>
          rw [hmore] at ht
          cases ht
        | ok more =>
          rw [hmore] at ht
          cases ht
          rw [ih hmore]
          rfl

/-- The statements of a text; none if it cannot be read. -/
def statements (r : Reader) (source : String) : List Node :=
  match r.program source with
  | .ok p => p.statements
  | .error _ => []

theorem statements_eq {r : Reader} {source : String} {p : Program} (h : r.program source = .ok p) :
    r.statements source = p.statements := by
  unfold statements
  rw [h]

theorem program_eq_ok_iff {r : Reader} {source : String} {p : Program} :
    r.program source = .ok p ↔ ∃ t, r.programTree source = .ok t ∧
      statementNodes (r.stringNode r.expression) t = .ok p.statements := by
  unfold program
  cases r.programTree source with
  | error e =>
    constructor
    · intro h
      cases h
    · rintro ⟨t, ht, -⟩
      cases ht
  | ok t =>
    show (statementNodes _ t >>= fun statements => pure ⟨statements⟩) = .ok p ↔ _
    constructor
    · intro h
      refine ⟨t, rfl, ?_⟩
      cases hnodes : statementNodes (r.stringNode r.expression) t with
      | error e =>
        rw [hnodes] at h
        cases h
      | ok ns =>
        rw [hnodes] at h
        cases h
        rfl
    · rintro ⟨t', ht', hnodes⟩
      cases ht'
      rw [hnodes]
      rfl

/-- A text whose lines can be read is derived as a whole, with the statements of its lines. -/
theorem derives_of_lines (r : Reader) {text : List Char} {ls : List (List Char)}
    (htext : LinesText text ls) (hlines : ∀ l ∈ ls, ∃ p, r.program (String.ofList l) = .ok p) :
    ∃ t, ProgramText text t ∧ statementNodes (r.stringNode r.expression) t =
      .ok (ls.flatMap (fun l => r.statements (String.ofList l))) := by
  induction htext with
  | nil => exact ⟨_, programText_nil, rfl⟩
  | last u =>
    obtain ⟨p, hp⟩ := hlines u List.mem_cons_self
    obtain ⟨t, ht, hnodes⟩ := program_eq_ok_iff.mp hp
    have htext := (programTree_eq_ok_iff.mp ht).2
    rw [String.toList_ofList] at htext
    refine ⟨t, htext, ?_⟩
    rw [hnodes, List.flatMap_singleton, statements_eq hp]
  | next he _ ih =>
    obtain ⟨p, hp⟩ := hlines _ List.mem_cons_self
    obtain ⟨t, ht, hnodes⟩ := program_eq_ok_iff.mp hp
    obtain ⟨t', htext', hnodes'⟩ := ih (fun l hl => hlines l (List.mem_cons_of_mem _ hl))
    have htext := (programTree_eq_ok_iff.mp ht).2
    rw [String.toList_ofList] at htext
    refine ⟨t ++ t', htext.append_line he htext', ?_⟩
    rw [statementNodes_append hnodes hnodes', List.flatMap_cons, statements_eq hp]

/-! ## The scan over several lines -/

/-- A text of one line and blanks is admitted when the line is. -/
theorem firstExcess_of_lines (r : Reader) {text : List Char} {ls : List (List Char)}
    (htext : LinesText text ls) (hlines : ∀ l ∈ ls, ∃ p, r.program (String.ofList l) = .ok p)
    (hblank : breaksInside text = false) : firstExcess r.maxNesting text = none := by
  have hline : ∀ l ∈ ls, Gauge.start.peak l ≤ r.maxNesting := by
    intro l hl
    obtain ⟨p, hp⟩ := hlines l hl
    obtain ⟨t, ht, -⟩ := program_eq_ok_iff.mp hp
    have hscan := (programTree_eq_ok_iff.mp ht).1
    rwa [String.toList_ofList, firstExcess_eq_none_iff] at hscan
  rw [firstExcess_eq_none_iff]
  cases htext with
  | nil => exact Nat.zero_le _
  | last => exact hline text List.mem_cons_self
  | @next u e v ls he _ =>
    -- behind the first line there is nothing but blanks, which the scan passes over
    have hflat : Flat (e ++ v) := by
      have hv : ∀ c ∈ v, isBlank c = true := by
        cases he with
        | lineFeed => exact isBlank_of_breaksInside (u := u) hblank
        | carriageReturn =>
          refine isBlank_of_breaksInside (u := u ++ ['\r']) ?_
          simpa using hblank
      have hend : Flat e := by
        cases he <;> decide
      exact hend.append (flat_of_class (by decide) (by decide) hv)
    rw [Gauge.peak_append, hflat.peak_eq]
    have hdepth := Gauge.start.after_depth_le_peak u
    have hpeak := hline u List.mem_cons_self
    omega

/-- A text whose lines can be read is read as their statements in order; or it has lines behind its
first that are not blank. -/
theorem program_of_lines (r : Reader) {source : String}
    (hlines : ∀ line ∈ lines source, ∃ p, r.program line = .ok p) :
    r.program source = .ok ⟨(lines source).flatMap r.statements⟩ ∨
      ∃ e, r.program source = .error e ∧ breaksInside source.toList = true := by
  have htext := linesText_splitLines source.toList
  have hlines' : ∀ l ∈ splitLines source.toList, ∃ p, r.program (String.ofList l) = .ok p :=
    fun l hl => hlines _ (List.mem_map_of_mem hl)
  obtain ⟨t, hprogram, hnodes⟩ := r.derives_of_lines htext hlines'
  cases hscan : firstExcess r.maxNesting source.toList with
  | none =>
    left
    refine program_eq_ok_iff.mpr ⟨t, programTree_eq_ok_iff.mpr ⟨hscan, hprogram⟩, ?_⟩
    rw [hnodes, lines, List.flatMap_map]
  | some place =>
    right
    refine ⟨.tooDeep place r.maxNesting, ?_, ?_⟩
    · unfold program programTree match?
      rw [hscan]
      rfl
    · by_contra hblank
      rw [Bool.not_eq_true] at hblank
      rw [r.firstExcess_of_lines htext hlines' hblank] at hscan
      cases hscan

end Reader

end CommandShell
