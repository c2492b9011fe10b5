/-
# CommandShell.Proofs.Program.ExcessOpenings -- where a text nests too deeply

A text that nests too deeply is refused with the place of an opening. The scan keeps that place by
steps and takes `$(` at once, so it is said here what the place is without the scan: it is that of
the first opening that passes the limit. Whatever comes behind the opening, the text is refused for
it, and every shorter text is admitted, the one that ends between `$` and `(` included.
-/
import CommandShell.Proofs.Program.StuckTexts

namespace CommandShell

open Grammar Grammar.Nesting
open Text (Position lastLine)

namespace Grammar.Nesting

/-! ## The opening that stops a scan -/

/-- The texts that can open a level. -/
inductive Opening : List Char → Prop
  | substitution : Opening ['$', '(']
  | parenthesis : Opening ['(']

theorem Opening.ne_nil {o : List Char} (h : Opening o) : o ≠ [] := by
  cases h
  · exact List.cons_ne_nil _ _
  · exact List.cons_ne_nil _ _

/-- A scan from the given depth and place goes through the stretch `u`, and the opening `o` behind
it stops it, whatever follows. -/
structure StoppedBy (limit depth : Nat) (p : Position) (u o : List Char) (place : Position) :
    Prop where
  opening : Opening o
  place_eq : place = u.foldl Position.step p
  through : scan limit depth p u = none
  stopped : ∀ more, scan limit depth p (u ++ o ++ more) = some place

section StoppedBy

variable {limit depth depth' : Nat} {p p' place : Position} {u o w rest text : List Char}

/-- An opening at once. -/
theorem StoppedBy.here (ho : Opening o) (h : ∀ more, scan limit depth p (o ++ more) = some p) :
    StoppedBy limit depth p [] o p where
  opening := ho
  place_eq := rfl
  through := rfl
  stopped := h

/-- A scan that passes over the first characters is stopped where the scan behind them is. -/
theorem StoppedBy.behind (h : StoppedBy limit depth' p' u o place)
    (hplace : p' = w.foldl Position.step p)
    (hpasses : ∀ v, v = u ∨ u ++ o <+: v → scan limit depth p (w ++ v) = scan limit depth' p' v) :
    StoppedBy limit depth p (w ++ u) o place where
  opening := h.opening
  place_eq := by rw [List.foldl_append, ← hplace, h.place_eq]
  through := by rw [hpasses u (.inl rfl), h.through]
  stopped more := by
    have hmore := hpasses (u ++ o ++ more) (.inr (List.prefix_append _ _))
    rw [List.append_assoc, List.append_assoc, ← List.append_assoc u, hmore, h.stopped]

/-- A character that is no parenthesis, and no dollar sign in front of one, is passed over. -/
theorem scan_other {c : Char} (hopen : c ≠ '(') (hclose : c ≠ ')')
    (hdollar : c = '$' → rest.head? ≠ some '(') :
    scan limit depth p (c :: rest) = scan limit depth (p.step c) rest := by
  rw [scan]
  · rintro more rfl rfl
    exact hdollar rfl rfl
  · exact hopen
  · exact hclose

/-- A scan that finds an excess is stopped by an opening of the text. -/
theorem exists_stoppedBy (h : scan limit depth p text = some place) :
    ∃ u o rest, text = u ++ o ++ rest ∧ StoppedBy limit depth p u o place := by
  fun_induction scan limit depth p text with
  | case1 depth p => cases h
  | case2 depth p rest hlt ih =>
    obtain ⟨u, o, rest, rfl, hstopped⟩ := ih h
    refine ⟨['$', '('] ++ u, o, rest, rfl, hstopped.behind rfl fun v _ => ?_⟩
    simp [scan, hlt]
  | case3 depth p rest hlt =>
    obtain rfl := Option.some.inj h
    refine ⟨[], _, rest, rfl, .here .substitution ?_⟩
    simp [scan, hlt]
  | case4 p rest ih =>
    obtain ⟨u, o, rest, rfl, hstopped⟩ := ih h
    exact ⟨['('] ++ u, o, rest, rfl, hstopped.behind rfl fun v _ => by simp [scan]⟩
  | case5 depth p rest hpos hlt ih =>
    obtain ⟨u, o, rest, rfl, hstopped⟩ := ih h
    refine ⟨['('] ++ u, o, rest, rfl, hstopped.behind rfl fun v _ => ?_⟩
    simp [scan, hpos, hlt]
  | case6 depth p rest hpos hlt =>
    obtain rfl := Option.some.inj h
    refine ⟨[], _, rest, rfl, .here .parenthesis ?_⟩
    simp [scan, hpos, hlt]
  | case7 depth p rest ih =>
    obtain ⟨u, o, rest, rfl, hstopped⟩ := ih h
    exact ⟨[')'] ++ u, o, rest, rfl, hstopped.behind rfl fun v _ => by simp [scan]⟩
  | case8 depth p c rest hdollar hopen hclose ih =>
    obtain ⟨u, o, rest, rfl, hstopped⟩ := ih h
    -- what comes next is the next character of the text, unless the text is cut off in front of it
    have hhead : c = '$' → (u ++ o).head? ≠ some '(' := by
      intro hc hparen
      obtain ⟨more, hmore⟩ := List.head?_eq_some_iff.mp hparen
      exact hdollar (more ++ rest) hc (by rw [hmore, List.cons_append])
    refine ⟨[c] ++ u, o, rest, rfl, hstopped.behind rfl fun v hv => ?_⟩
    show scan limit depth p (c :: v) = _
    refine scan_other hopen hclose fun hc hparen => hhead hc ?_
    rcases hv with rfl | ⟨more, rfl⟩
    · rw [List.head?_append, hparen, Option.some_or]
    · have hne : u ++ o ≠ [] := List.append_ne_nil_of_right_ne_nil u hstopped.opening.ne_nil
      rwa [List.head?_append_of_ne_nil _ hne] at hparen

end StoppedBy

/-! ## The first opening that passes the limit -/

/-- The opening `o` behind the stretch `u` is the first of a text that passes the limit, and the
place is its own. -/
structure ExcessAt (limit : Nat) (source : List Char) (place : Position) (u o : List Char) :
    Prop where
  opening : Opening o
  stands : u ++ o <+: source
  /-- Lines are counted by line feeds. -/
  line : place.line = 1 + u.count '\n'
  /-- Columns are counted by characters of the line. -/
  column : place.column = 1 + (lastLine u).length
  before : firstExcess limit u = none
  /-- Every text that ends before the opening does is admitted. -/
  shortest : ∀ v, v <+: u ++ o → v ≠ u ++ o → firstExcess limit v = none
  /-- Every text that goes on behind the opening is refused at this place. -/
  onward : ∀ more, firstExcess limit (u ++ o ++ more) = some place

section Excess

variable {limit : Nat} {source u o : List Char} {place : Position}

theorem firstExcess_of_prefix {v w : List Char} (hv : v <+: w) (h : firstExcess limit w = none) :
    firstExcess limit v = none := by
  obtain ⟨more, rfl⟩ := hv
  exact firstExcess_of_append h

/-- The first character of `$(` alone opens nothing. -/
theorem firstExcess_dollar (h : firstExcess limit u = none) :
    firstExcess limit (u ++ ['$']) = none := by
  rw [firstExcess_eq_none_iff] at h ⊢
  have hlast := Gauge.start.after_depth_le_peak u
  have hdollar : (Gauge.start.after u).peak ['$'] = (Gauge.start.after u).depth :=
    Flat.peak_eq (by decide) _
  rw [Gauge.peak_append, hdollar]
  omega

theorem Opening.proper_prefix (ho : Opening o) {v : List Char} (hv : v <+: u ++ o)
    (hne : v ≠ u ++ o) : v <+: u ∨ v = u ++ ['$'] := by
  cases ho with
  | substitution =>
    have hsplit : u ++ ['$', '('] = u ++ ['$'] ++ ['('] := by simp
    rw [hsplit] at hv hne
    have hdollar := (List.prefix_concat_iff.mp hv).resolve_left hne
    exact (List.prefix_concat_iff.mp hdollar).symm
  | parenthesis => exact .inl ((List.prefix_concat_iff.mp hv).resolve_left hne)

/-- An excess is found exactly at the first opening that passes the limit. -/
theorem firstExcess_eq_some_iff :
    firstExcess limit source = some place ↔ ∃ u o, ExcessAt limit source place u o := by
  constructor
  · intro h
    obtain ⟨u, o, rest, rfl, hopening, hplace, hthrough, hstopped⟩ := exists_stoppedBy h
    change firstExcess limit u = none at hthrough
    refine ⟨u, o, hopening, List.prefix_append _ _, ?_, ?_, hthrough, fun v hv hne => ?_, hstopped⟩
    · rw [hplace]
      exact Position.line_after u
    · rw [hplace]
      exact Position.column_after u
    · rcases hopening.proper_prefix hv hne with hv | rfl
      · exact firstExcess_of_prefix hv hthrough
      · exact firstExcess_dollar hthrough
  · rintro ⟨u, o, h⟩
    obtain ⟨rest, rfl⟩ := h.stands
    exact h.onward rest

end Excess

end Grammar.Nesting

/-! ## Refused texts -/

namespace Reader

variable {r : Reader} {source : String} {place : Position} {most : Nat}

/-- Only the scan refuses a text for its nesting, not the grammar. -/
theorem match?_eq_tooDeep_iff {α : Type} {grammar : List Char → Except Refusals α}
    {text : List Char} :
    r.match? grammar text = .error (.tooDeep place most) ↔
      most = r.maxNesting ∧ firstExcess r.maxNesting text = some place := by
  unfold match?
  cases firstExcess r.maxNesting text with
  | some found =>
    simp only [Except.error.injEq, ReadError.tooDeep.injEq, Option.some.injEq]
    exact ⟨fun ⟨hplace, hmost⟩ => ⟨hmost.symm, hplace⟩, fun ⟨hmost, hplace⟩ => ⟨hplace, hmost.symm⟩⟩
  | none =>
    cases grammar text with
    | ok a => simp [Except.mapError]
    | error refused => simp [Except.mapError, ReadError.ofRefusals]

/-- A string is refused for a substitution of it, and never for its own nesting. -/
theorem stringNode_ne_tooDeep (readSpan : String → Except ReadError Node) (w : String) :
    r.stringNode readSpan w ≠ .error (.tooDeep place most) := by
  intro h
  obtain ⟨_, _, -, -, heq⟩ := stringNode_error h
  cases heq

theorem program_eq_tooDeep_iff :
    r.program source = .error (.tooDeep place most) ↔
      r.programTree source = .error (.tooDeep place most) := by
  cases ht : r.programTree source with
  | error e =>
    rw [program, ht]
    exact ⟨fun h => by cases h; rfl, fun h => by cases h; rfl⟩
  | ok t =>
    refine iff_of_false (fun h => ?_) (fun h => by cases h)
    rw [program, ht] at h
    have hnodes : statementNodes (r.stringNode r.expression) t = .error (.tooDeep place most) ∨
        _ := bind_eq_error.mp h
    rcases hnodes with h | ⟨_, -, h⟩
    · obtain ⟨w, -, hw⟩ := statementNodes_error h
      exact stringNode_ne_tooDeep _ w hw
    · cases h

theorem expression_eq_tooDeep_iff :
    r.expression source = .error (.tooDeep place most) ↔
      r.expressionTree source = .error (.tooDeep place most) := by
  cases hb : r.expressionTree source with
  | error e =>
    rw [expression, expressionWithin_of_error hb]
    exact ⟨fun h => by cases h; rfl, fun h => by cases h; rfl⟩
  | ok b =>
    refine iff_of_false (fun h => ?_) (fun h => by cases h)
    rw [expression_of_tree hb] at h
    obtain ⟨w, -, hw⟩ := nodeOf_error b h
    exact stringNode_ne_tooDeep _ w hw

/-- A text is refused for its nesting exactly when some opening passes the limit, and the place is
that of the first one: the text before it is admitted, and every text that goes on behind it is
refused at the same place. This holds of programs and of expressions, of their trees and of what is
made of the trees. -/
theorem tooDeep_iff_excessAt (r : Reader) (source : String) (place : Position) (most : Nat) :
    (firstExcess r.maxNesting source.toList = some place ↔
      ∃ u o, ExcessAt r.maxNesting source.toList place u o) ∧
    (r.programTree source = .error (.tooDeep place most) ↔
      most = r.maxNesting ∧ ∃ u o, ExcessAt r.maxNesting source.toList place u o) ∧
    (r.expressionTree source = .error (.tooDeep place most) ↔
      most = r.maxNesting ∧ ∃ u o, ExcessAt r.maxNesting source.toList place u o) ∧
    (r.program source = .error (.tooDeep place most) ↔
      most = r.maxNesting ∧ ∃ u o, ExcessAt r.maxNesting source.toList place u o) ∧
    (r.expression source = .error (.tooDeep place most) ↔
      most = r.maxNesting ∧ ∃ u o, ExcessAt r.maxNesting source.toList place u o) := by
  simp only [program_eq_tooDeep_iff, expression_eq_tooDeep_iff, programTree, expressionTree,
    match?_eq_tooDeep_iff, firstExcess_eq_some_iff, and_self]

end Reader

end CommandShell
