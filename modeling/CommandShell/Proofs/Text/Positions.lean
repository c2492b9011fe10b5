/-
# CommandShell.Proofs.Text.Positions -- lines and columns as counts

The place behind a text is kept by one step per character. Here it is said what comes of it: the
line counts the line feeds, the column the characters behind the last of them. A place that comes
later in a text is later in the order of lines and columns, so two places of one text are the same
only if they are places of the same character.
-/
import CommandShell.Text.Position
import Mathlib.Data.List.Induction

namespace CommandShell.Text

/-- The characters behind the last line feed of a text. -/
def lastLine (text : List Char) : List Char := (text.reverse.takeWhile (· != '\n')).reverse

namespace Position

theorem after_snoc (text : List Char) (c : Char) : after (text ++ [c]) = (after text).step c := by
  simp [after]

theorem line_after (text : List Char) : (after text).line = 1 + text.count '\n' := by
  induction text using List.reverseRecOn with
  | nil => rfl
  | append_singleton text c ih =>
    rw [after_snoc, List.count_append, List.count_singleton, step]
    split
    · next h => simp [ih, h, Nat.add_assoc]
    · next h => simp [ih, beq_eq_false_iff_ne.mpr h]

theorem column_after (text : List Char) : (after text).column = 1 + (lastLine text).length := by
  induction text using List.reverseRecOn with
  | nil => rfl
  | append_singleton text c ih =>
    rw [after_snoc, step, lastLine, List.reverse_append, List.reverse_singleton,
      List.singleton_append, List.takeWhile_cons]
    split
    · next h => simp [h]
    · next h =>
      rw [lastLine] at ih
      simp only [bne_iff_ne, ne_eq, h, not_false_eq_true, ↓reduceIte, List.length_reverse,
        List.length_cons, ih]
      omega

/-! ## The order of places -/

/-- Whether a place comes before another one. -/
def Before (p q : Position) : Prop := p.line < q.line ∨ p.line = q.line ∧ p.column < q.column

theorem not_before_self (p : Position) : ¬ p.Before p := by
  rintro (h | ⟨-, h⟩)
  · exact Nat.lt_irrefl _ h
  · exact Nat.lt_irrefl _ h

theorem Before.trans {p q r : Position} (h : p.Before q) (h' : q.Before r) : p.Before r := by
  unfold Before at *
  omega

theorem before_step (p : Position) (c : Char) : p.Before (p.step c) := by
  unfold step
  split
  · exact .inl (Nat.lt_succ_self _)
  · exact .inr ⟨rfl, Nat.lt_succ_self _⟩

theorem ofOffset_succ {text : List Char} {k : Nat} (hk : k < text.length) :
    ofOffset text (k + 1) = (ofOffset text k).step text[k] := by
  rw [ofOffset, ofOffset, List.take_succ_eq_append_getElem hk, after_snoc]

/-- Places of one text are in the order of their characters. -/
theorem ofOffset_before {text : List Char} {j k : Nat} (hjk : j < k) (hk : k ≤ text.length) :
    (ofOffset text j).Before (ofOffset text k) := by
  induction hjk with
  | refl =>
    rw [ofOffset_succ hk]
    exact before_step _ _
  | step _ ih =>
    rw [ofOffset_succ hk]
    exact (ih (Nat.le_of_succ_le hk)).trans (before_step _ _)

theorem ofOffset_injective {text : List Char} {j k : Nat} (hj : j ≤ text.length)
    (hk : k ≤ text.length) (h : ofOffset text j = ofOffset text k) : j = k := by
  rcases Nat.lt_trichotomy j k with hlt | heq | hlt
  · exact absurd (h ▸ ofOffset_before hlt hk) (not_before_self _)
  · exact heq
  · exact absurd (h ▸ ofOffset_before hlt hj) (not_before_self _)

/-- The place of an offset of the text, the given one or a later one: its line counts the line feeds
before that offset, and its column the characters behind the last of them. -/
def PointsFrom (text : List Char) (k : Nat) (p : Position) : Prop :=
  ∃ q, k ≤ q ∧ q ≤ text.length ∧ p.line = 1 + (text.take q).count '\n' ∧
    p.column = 1 + (lastLine (text.take q)).length

theorem eq_ofOffset_iff {text : List Char} {q : Nat} {p : Position} :
    p = ofOffset text q ↔
      p.line = 1 + (text.take q).count '\n' ∧ p.column = 1 + (lastLine (text.take q)).length := by
  rw [← line_after, ← column_after, ofOffset]
  constructor
  · rintro rfl
    exact ⟨rfl, rfl⟩
  · rintro ⟨hline, hcolumn⟩
    cases p
    cases hline
    cases hcolumn
    rfl

theorem pointsFrom_ofOffset_iff {text : List Char} {k n : Nat} (hn : n ≤ text.length) :
    (ofOffset text n).PointsFrom text k ↔ k ≤ n := by
  constructor
  · rintro ⟨q, hk, hq, hplace⟩
    have heq := ofOffset_injective hn hq (eq_ofOffset_iff.mpr hplace)
    omega
  · intro hk
    exact ⟨n, hk, hn, eq_ofOffset_iff.mp rfl⟩

end Position

end CommandShell.Text
