/-
# CommandShell.Proofs.Program.Spans -- where the substitutions of a text stand

A string is cut exactly at its substitutions: the pieces put together again are the string. So a
substitution is a stretch of the text that its string stands in, from a dollar sign on, and there is
no double quote in it. Without a double quote there is no quoted word, and an unquoted one has no
substitutions: reading goes back to the grammar for the substitutions of a text, and never for those
of a substitution (`expression_of_no_quote`).
-/
import CommandShell.Proofs.Program.Cutting

namespace CommandShell

open Grammar

/-! ## Cutting and putting together -/

namespace Piece

theorem joined_prependText (u : List Char) (cuts : List Cut) :
    joined (prependText u cuts) = u ++ joined cuts := by
  rcases cuts with _ | ⟨more | more, rest⟩
  · simp [prependText, joined, Cut.raw]
  · simp [prependText, joined, Cut.raw]
  · simp [prependText, joined, Cut.raw]

/-- A complete substitution starts with a dollar sign, and there is more of it. -/
theorem of_spanLength? {text : List Char} {n : Nat} (h : spanLength? text = some n) :
    ∃ rest, text = '$' :: rest ∧ 0 < n := by
  obtain ⟨u, rest, rfl, rfl, hu⟩ := complete_of_spanLength? h
  obtain ⟨v, rfl⟩ := hu.exists_cons
  exact ⟨v ++ rest, rfl, Nat.succ_pos v.length⟩

theorem raw_infix_joined {c : Cut} {cuts : List Cut} (h : c ∈ cuts) : c.raw <:+: joined cuts := by
  obtain ⟨front, back, rfl⟩ := List.append_of_mem h
  refine ⟨joined front, joined back, ?_⟩
  simp [joined]

/-- A piece is a stretch of the text that was cut. -/
theorem raw_infix_of_mem_cut {c : Cut} {raw : List Char} (h : c ∈ cut raw) : c.raw <:+: raw := by
  have hjoined := raw_infix_joined h
  rwa [(exact_cut raw).lossless] at hjoined

theorem head_of_span_mem {raw u : List Char} (h : Cut.span u ∈ cut raw) : ∃ v, u = '$' :: v := by
  obtain ⟨front, back, heq⟩ := List.append_of_mem h
  have hfits : Complete u (joined back) := (exact_cut raw).fits front (.span u) back heq
  exact hfits.exists_cons

end Piece

/-! ## The strings of a program -/

namespace Grammar

theorem StatementText.strings_standIn {follow u : List Char} {s : Statement}
    (h : StatementText follow u s) : ∀ w ∈ (s.body.map Body.strings).getD [], StandsIn u w := by
  obtain @⟨a, u, b, v, c, body, note, -, hu, -, -, -, -⟩ := h
  cases hu with
  | absent =>
    intro w hw
    cases hw
  | present hbody =>
    intro w hw
    refine (hbody.strings_standIn w hw).mono ⟨a, b ++ v ++ c, ?_⟩
    simp

theorem ProgramText.strings_standIn {u : List Char} {t : List Statement} (h : ProgramText u t) :
    ∀ w ∈ Statement.stringsOf t, StandsIn u w := by
  induction h with
  | last hs =>
    intro w hw
    rw [Statement.stringsOf, List.flatMap_singleton] at hw
    exact hs.strings_standIn w hw
  | @next u sep v s rest hs _ _ ih =>
    intro w hw
    rw [Statement.stringsOf, List.flatMap_cons] at hw
    rcases List.mem_append.mp hw with hw | hw
    · exact (hs.strings_standIn w hw).mono (List.prefix_append _ _).isInfix
    · exact (ih w hw).mono ⟨u ++ sep, [], by simp⟩

theorem BareText.ne_nil {u : List Char} (hu : BareText u) : u ≠ [] := by
  obtain ⟨-, -⟩ := hu
  exact List.cons_ne_nil _ _

/-- The strings of a text without quotes are unquoted words. -/
theorem StandsIn.bareText {text : List Char} {w : String} (h : StandsIn text w)
    (hquote : '"' ∉ text) : BareText w.toList := by
  cases h with
  | bare hw => exact hw
  | quoted _ haround => exact absurd (haround.subset List.mem_cons_self) hquote

/-- A substitution of a string is a stretch of the text around it, from a dollar sign on and
without a quote. -/
theorem StandsIn.span {text : List Char} {w span : String} (h : StandsIn text w)
    (hspan : Piece.span span ∈ Piece.split w) :
    span.toList <:+: text ∧ '"' ∉ span.toList ∧ ∃ v, span.toList = '$' :: v := by
  have hcut := Piece.span_mem_split.mp hspan
  have hstretch : span.toList <:+: w.toList := Piece.raw_infix_of_mem_cut hcut
  cases h with
  | bare hw => exact absurd hcut (Piece.span_not_mem_of_no_dollar (hw.not_mem rfl rfl))
  | quoted hquote haround =>
    refine ⟨?_, fun hmem => hquote (hstretch.subset hmem), Piece.head_of_span_mem hcut⟩
    exact hstretch.trans (List.IsInfix.trans ⟨['"'], ['"'], rfl⟩ haround)

end Grammar

/-! ## Reading substitutions -/

namespace Reader

section Steps

variable {α β : Type} {x : Except ReadError α} {f : α → Except ReadError β}

theorem bind_eq_ok {b : β} : x >>= f = .ok b ↔ ∃ a, x = .ok a ∧ f a = .ok b := by
  cases x <;> simp [bind, Except.bind]

theorem bind_eq_error {e : ReadError} :
    x >>= f = .error e ↔ x = .error e ∨ ∃ a, x = .ok a ∧ f a = .error e := by
  cases x <;> simp [bind, Except.bind]

end Steps

/-- An unquoted word is the literal of its own text. -/
theorem stringNode_bare (r : Reader) (readSpan : String → Except ReadError Node) {w : String}
    (hw : BareText w.toList) : r.stringNode readSpan w = .ok (.literal (.string w)) := by
  have hslash : '\\' ∉ w.toList := hw.not_mem rfl rfl
  have hcut : Piece.cut w.toList = [.text w.toList] := by
    have htext := Piece.cutFrom_text hslash (hw.not_mem rfl rfl) hw.ne_nil []
    rw [List.append_nil] at htext
    exact htext
  have hsplit : Piece.split w = [.text w] := by
    rw [Piece.split, hcut, List.map_singleton, Piece.ofCut, String.ofList_toList]
  have hparts : r.partsOf readSpan (Piece.split w) = .ok [.text w] := by
    rw [hsplit, partsOf, r.plain_of_no_slash hslash]
    rfl
  have hplain : plainText? [.text w] = some w := by
    simp [plainText?]
  exact stringNode_literal hparts hplain

/-- In a text without quotes there are no substitutions of strings, so reading never goes back to
the grammar. -/
theorem expression_of_no_quote (r : Reader) {source : String} (h : '"' ∉ source.toList) :
    r.expression source = r.expressionWithin 0 source := by
  cases hb : r.expressionTree source with
  | error e => rw [expression, expressionWithin_of_error hb, expressionWithin_of_error hb]
  | ok b =>
    have hstrings := (expressionTree_eq_ok_iff.mp hb).2.strings_standIn
    rw [expression_of_tree hb, expressionWithin, hb]
    exact nodeOf_congr b (fun w hw => r.stringNode_bare _ ((hstrings w hw).bareText h))

/-- The node of a text without quotes depends on its tree alone. -/
theorem expressionWithin_zero {r : Reader} {source : String} {b : Body}
    (hb : r.expressionTree source = .ok b) :
    r.expressionWithin 0 source = nodeOf (fun raw => .ok (.literal (.string raw))) b := by
  rw [expressionWithin, hb]
  rfl

theorem statementNodes_congr {f g : String → Except ReadError Node} {t : List Statement}
    (h : ∀ w ∈ Statement.stringsOf t, f w = g w) : statementNodes f t = statementNodes g t := by
  induction t with
  | nil => rfl
  | cons s t ih =>
    rw [Statement.stringsOf, List.flatMap_cons] at h
    have hrest := ih (fun w hw => h w (List.mem_append_right _ hw))
    obtain ⟨_ | body, note⟩ := s
    · exact hrest
    · rw [statementNodes, statementNodes, hrest,
        nodeOf_congr body (fun w hw => h w (List.mem_append_left _ hw))]

end Reader

end CommandShell
