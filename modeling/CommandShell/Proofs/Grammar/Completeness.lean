/-
# CommandShell.Proofs.Grammar.Completeness -- what has a derivation is taken

The other direction: the rules take every text that the unordered grammar derives, with the same
tree. Two things have to be shown where a derivation is silent. Alternatives that come earlier in
the order refuse the text, which its first one or two characters decide. And a rule that takes all
it can stops where the derivation stops, which what follows decides: behind a word stands a
delimiter, and behind a body, past its blanks, stands something that no word starts with.

Both directions together make the rules exact, and with them each text has at most one tree.
-/
import CommandShell.Proofs.Grammar.Soundness
import CommandShell.Program.Reader

namespace CommandShell.Grammar

open Rule
open Decimal (isDigit)

/-! ## First characters -/

/-- What a body can start with. -/
def isBodyStart (c : Char) : Bool :=
  isBareStart c || isDigit c || isSign c || c == '$' || c == '"'

theorem refuses_variableName {text : List Char} (h : Avoids (· == '$') text) :
    Refuses variableName text :=
  Refuses.orElse (Refuses.bind (refuses_mark_of_avoids rfl h))
    (Refuses.bind (refuses_mark_of_avoids rfl h))

theorem refuses_substitution {text : List Char} (h : Avoids (· == '$') text) (inner : Rule Body) :
    Refuses (substitution inner) text :=
  Refuses.bind (refuses_mark_of_avoids rfl h)

theorem refuses_quoted {text : List Char} (h : Avoids (· == '"') text) : Refuses quoted text :=
  Refuses.bind (refuses_mark_of_avoids rfl h)

theorem refuses_bare {text : List Char} (h : Avoids isBareStart text) : Refuses bare text :=
  refuses_word h _ _

theorem refuses_number {text : List Char} (hdigit : Avoids isDigit text)
    (hsign : Avoids isSign text) : Refuses number text := by
  have hread : Reads sign [] false text := reads_sign .absent hsign
  have hdigits : Refuses digits text := refuses_run1 hdigit _
  exact Refuses.orElse (Refuses.map (hread.refuses_bind (Refuses.bind hdigits)))
    (Refuses.map (hread.refuses_bind (Refuses.bind hdigits)))

theorem refuses_flag {text : List Char} (h : Avoids (· == '-') text) : Refuses flag text :=
  Refuses.orElse (Refuses.bind (refuses_mark_of_avoids rfl h))
    (Refuses.bind (refuses_mark_of_avoids rfl h))

theorem refuses_identifier {text : List Char} (h : Avoids isNameStart text) :
    Refuses identifier text :=
  refuses_word h _ _

theorem refuses_command {text : List Char} (h : Avoids isNameStart text) (inner : Rule Body) :
    Refuses (command inner) text :=
  Refuses.bind (refuses_identifier h)

section Start

variable {text : List Char} (h : Avoids isBodyStart text)

include h

theorem refuses_expr (inner : Rule Body) : Refuses (expr inner) text := by
  have hdollar : Avoids (· == '$') text := h.mono (fun c hc => by simp [isBodyStart, hc])
  have hquote : Avoids (· == '"') text := h.mono (fun c hc => by simp [isBodyStart, hc])
  have hbare : Avoids isBareStart text := h.mono (fun c hc => by simp [isBodyStart, hc])
  have hdigit : Avoids isDigit text := h.mono (fun c hc => by simp [isBodyStart, hc])
  have hsign : Avoids isSign text := h.mono (fun c hc => by simp [isBodyStart, hc])
  exact Refuses.orElse (Refuses.map (refuses_variableName hdollar))
    (Refuses.orElse (Refuses.map (refuses_substitution hdollar inner))
      (Refuses.orElse (Refuses.map (refuses_quoted hquote))
        (Refuses.orElse (Refuses.map (refuses_bare hbare)) (refuses_number hdigit hsign))))

theorem refuses_argument (inner : Rule Body) : Refuses (argument inner) text := by
  have hdash : Avoids (· == '-') text :=
    h.mono (fun c hc => by simp [isBodyStart, isSign, eq_of_beq hc])
  exact Refuses.orElse (refuses_flag hdash) (Refuses.map (refuses_expr h inner))

theorem refuses_bodyWithin (n : Nat) : Refuses (bodyWithin n) text := by
  have hname : Avoids isNameStart text :=
    h.mono (fun c hc => by simp [isBodyStart, isBareStart, hc])
  cases n with
  | zero => exact fun _ _ => rfl
  | succ n =>
    exact Refuses.orElse (refuses_command hname _) (Refuses.map (refuses_expr h _))

end Start

theorem isNameStart_of_isDigit {c : Char} (h : isDigit c = true) : isNameStart c = false := by
  cases hn : isNameStart c with
  | false => rfl
  | true =>
    exfalso
    simp only [isDigit, Bool.and_eq_true, decide_eq_true_eq] at h
    simp only [isNameStart, Bool.or_eq_true, Bool.and_eq_true, decide_eq_true_eq,
      beq_iff_eq] at hn
    rcases hn with (⟨hlow, _⟩ | ⟨hlow, _⟩) | rfl
    · exact absurd (Char.le_trans hlow h.2) (by decide)
    · exact absurd (Char.le_trans hlow h.2) (by decide)
    · exact absurd h.2 (by decide)

theorem isBareStart_of_isDigit {c : Char} (h : isDigit c = true) : isBareStart c = false := by
  have hne : ∀ {d : Char}, isDigit d = false → (c == d) = false :=
    fun hd => beq_eq_false_iff_ne.mpr (ne_of_class h hd)
  simp only [isBareStart, isNameStart_of_isDigit h, hne (d := '.') rfl, hne (d := ':') rfl,
    hne (d := '*') rfl, hne (d := '?') rfl, hne (d := '/') rfl, hne (d := '@') rfl,
    hne (d := '~') rfl, hne (d := '\x7b') rfl, hne (d := '\x7d') rfl, Bool.or_self]

/-- A dash before a digit starts no flag. -/
theorem refuses_flag_of_digit {d : Char} (hd : isDigit d = true) (text : List Char) :
    Refuses flag ('-' :: d :: text) := by
  have hdash : d ≠ '-' := ne_of_class hd rfl
  have hname : Avoids isNameStart (d :: text) := avoids_cons.mpr (isNameStart_of_isDigit hd)
  apply Refuses.orElse
  · refine Refuses.bind (refuses_mark ?_)
    rintro ⟨t, ht⟩
    exact hdash (List.cons.inj (List.cons.inj ht).2).1.symm
  · exact (reads_mark .dash (d :: text)).refuses_bind (Refuses.bind (refuses_identifier hname))

theorem refuses_flag_of_numeral {s ds : List Char} {negative : Bool} (hs : SignText s negative)
    (hds : DigitsText ds) (rest : List Char) : Refuses flag (s ++ ds ++ rest) := by
  obtain ⟨hd, _⟩ := hds
  cases hs with
  | absent => exact refuses_flag (avoids_of_class hd rfl _)
  | plus => exact refuses_flag (avoids_cons.mpr rfl)
  | minus => exact refuses_flag_of_digit hd _

/-- No word that stands for a value is taken for a flag. -/
theorem ExprText.refuses_flag {u : List Char} {e : Expr} (h : ExprText u e) (rest : List Char) :
    Refuses flag (u ++ rest) := by
  cases h with
  | braced _ => exact Grammar.refuses_flag (avoids_cons.mpr rfl)
  | named _ => exact Grammar.refuses_flag (avoids_cons.mpr rfl)
  | substitution _ _ _ => exact Grammar.refuses_flag (avoids_cons.mpr rfl)
  | quoted _ => exact Grammar.refuses_flag (avoids_cons.mpr rfl)
  | bare hu =>
    obtain ⟨hfirst, _⟩ := hu
    exact Grammar.refuses_flag (avoids_of_class hfirst rfl _)
  | integer hs hds _ => exact refuses_flag_of_numeral hs hds rest
  | float hu _ =>
    obtain ⟨hs, hwhole, _, _⟩ := hu
    have h := refuses_flag_of_numeral hs hwhole
    simp only [List.append_assoc] at h ⊢
    exact h _

/-- The first character of a numeral. -/
theorem SignText.head_numeral {s ds : List Char} {negative : Bool} (hs : SignText s negative)
    (hds : DigitsText ds) :
    ∃ c more, s ++ ds = c :: more ∧ (isDigit c || isSign c) = true := by
  obtain ⟨hd, _⟩ := hds
  cases hs with
  | absent => exact ⟨_, _, rfl, by rw [hd]; rfl⟩
  | plus => exact ⟨_, _, rfl, rfl⟩
  | minus => exact ⟨_, _, rfl, rfl⟩

theorem ExprText.head {u : List Char} {e : Expr} (h : ExprText u e) :
    ∃ c more, u = c :: more ∧ isBodyStart c = true := by
  cases h with
  | braced _ => exact ⟨_, _, rfl, rfl⟩
  | named _ => exact ⟨_, _, rfl, rfl⟩
  | substitution _ _ _ => exact ⟨_, _, rfl, rfl⟩
  | quoted _ => exact ⟨_, _, rfl, rfl⟩
  | bare hu =>
    obtain ⟨hfirst, _⟩ := hu
    exact ⟨_, _, rfl, by simp [isBodyStart, hfirst]⟩
  | integer hs hds _ =>
    obtain ⟨c, more, hu, hc⟩ := hs.head_numeral hds
    rcases Bool.or_eq_true_iff.mp hc with hc | hc <;>
      exact ⟨c, more, hu, by simp [isBodyStart, hc]⟩
  | float hu _ =>
    obtain ⟨hs, hwhole, _, _⟩ := hu
    obtain ⟨c, more, hu, hc⟩ := hs.head_numeral hwhole
    rw [← List.append_assoc, hu]
    rcases Bool.or_eq_true_iff.mp hc with hc | hc <;>
      exact ⟨c, _, rfl, by simp [isBodyStart, hc]⟩

theorem BodyText.head {u : List Char} {b : Body} (h : BodyText u b) :
    ∃ c more, u = c :: more ∧ isBodyStart c = true := by
  cases h with
  | command hu _ =>
    obtain ⟨hfirst, _⟩ := hu
    exact ⟨_, _, rfl, by simp [isBodyStart, isBareStart, hfirst]⟩
  | expr hu _ => exact hu.head

theorem isSpace_iff {c : Char} : isSpace c = true ↔ c = ' ' ∨ c = '\t' := by
  simp [isSpace]

theorem isSpace_of_isBodyStart {c : Char} (h : isBodyStart c = true) : isSpace c = false := by
  cases hs : isSpace c with
  | false => rfl
  | true => rcases isSpace_iff.mp hs with rfl | rfl <;> cases h

theorem BodyText.avoids_space {u : List Char} {b : Body} (h : BodyText u b) (rest : List Char) :
    Avoids isSpace (u ++ rest) := by
  obtain ⟨c, more, rfl, hc⟩ := h.head
  exact avoids_cons.mpr (isSpace_of_isBodyStart hc)

theorem WordText.avoids_space {u : List Char} {a : Argument} (h : WordText u a)
    (rest : List Char) : Avoids isSpace (u ++ rest) := by
  cases h with
  | long _ => exact avoids_cons.mpr rfl
  | short _ => exact avoids_cons.mpr rfl
  | expr hu =>
    obtain ⟨c, more, rfl, hc⟩ := hu.head
    exact avoids_cons.mpr (isSpace_of_isBodyStart hc)

/-- A lone expression does not start as a command does. -/
theorem ExprText.avoids_nameStart {u : List Char} {e : Expr} (h : ExprText u e)
    (he : e.startsName = false) (rest : List Char) : Avoids isNameStart (u ++ rest) := by
  have hnumeral : ∀ {c : Char}, (isDigit c || isSign c) = true → isNameStart c = false := by
    intro c hc
    rcases Bool.or_eq_true_iff.mp hc with hc | hc
    · exact isNameStart_of_isDigit hc
    · rcases isSign_iff.mp hc with rfl | rfl <;> decide
  cases h with
  | braced _ => exact avoids_cons.mpr rfl
  | named _ => exact avoids_cons.mpr rfl
  | substitution _ _ _ => exact avoids_cons.mpr rfl
  | quoted _ => exact avoids_cons.mpr rfl
  | bare hu =>
    obtain ⟨_, _⟩ := hu
    apply avoids_cons.mpr
    simpa [Expr.startsName] using he
  | integer hs hds _ =>
    obtain ⟨c, more, hu, hc⟩ := hs.head_numeral hds
    rw [hu]
    exact avoids_cons.mpr (hnumeral hc)
  | float hu _ =>
    obtain ⟨hs, hwhole, _, _⟩ := hu
    obtain ⟨c, more, hu, hc⟩ := hs.head_numeral hwhole
    rw [← List.append_assoc, hu]
    exact avoids_cons.mpr (hnumeral hc)

/-! ## What follows a body -/

/-- What can stand behind a body and its blanks. -/
def stops : List Char := ['#', '\n', '\r', ';', ')']

/-- Past its blanks, the text ends or goes on with something that no word starts with. -/
def Stops (rest : List Char) : Prop :=
  ∃ b t, rest = b ++ t ∧ Blanks b ∧ ∀ c ∈ t.head?, c ∈ stops

theorem mem_delimiters_of_isSpace {c : Char} (h : isSpace c = true) : c ∈ delimiters := by
  rcases isSpace_iff.mp h with rfl | rfl <;> decide

theorem delimited_of_blanks {b : List Char} (hb : Blanks b) (hne : b ≠ []) (rest : List Char) :
    Delimited (b ++ rest) := by
  cases b with
  | nil => exact absurd rfl hne
  | cons c more =>
    intro d hd
    cases hd
    exact mem_delimiters_of_isSpace (hb c List.mem_cons_self)

theorem Stops.delimited {rest : List Char} (h : Stops rest) : Delimited rest := by
  obtain ⟨b, t, rfl, hb, ht⟩ := h
  by_cases hne : b = []
  · subst hne
    intro c hc
    exact (by decide : stops ⊆ delimiters) (ht c hc)
  · exact delimited_of_blanks hb hne t

/-- No further word of a command follows. -/
theorem Stops.refuses_spaced {rest : List Char} (h : Stops rest) (inner : Rule Body) :
    Refuses (do spaces; argument inner) rest := by
  obtain ⟨b, t, rfl, hb, ht⟩ := h
  have hspace : Avoids isSpace t := avoids_of_mem ht rfl
  have hstart : Avoids isBodyStart t := avoids_of_mem ht rfl
  by_cases hne : b = []
  · subst hne
    exact Refuses.bind (refuses_spaces hspace)
  · exact (reads_spaces hb hne hspace).refuses_bind (refuses_argument hstart inner)

theorem WordsText.delimited {v : List Char} {words : List Argument} (h : WordsText v words)
    {rest : List Char} (hrest : Delimited rest) : Delimited (v ++ rest) := by
  cases h with
  | nil => exact hrest
  | cons hb hne _ _ =>
    rw [List.append_assoc, List.append_assoc]
    exact delimited_of_blanks hb hne _

/-! ## Words -/

theorem reads_identifier {u rest : List Char} (hu : NameText u) (hrest : Avoids isNameRest rest) :
    Reads identifier u (String.ofList u) rest :=
  reads_word hu hrest _

theorem reads_quoted {u : List Char} (hu : ∀ c ∈ u, isQuotable c = true) (rest : List Char) :
    Reads quoted ('"' :: (u ++ ['"'])) (String.ofList u) rest :=
  Reads.bind (u := ['"']) (reads_mark .quote _)
    (Reads.bind (reads_run hu (avoids_cons.mpr rfl) _)
      (Reads.bind_pure (reads_mark .quote rest) rfl))

theorem reads_braced {u : List Char} (hu : NameText u) (rest : List Char) :
    Reads variableName ('$' :: '\x7b' :: (u ++ ['\x7d'])) (String.ofList u) rest :=
  Reads.orElse_left
    (Reads.bind (u := ['$', '\x7b']) (reads_mark .openVariable _)
      (Reads.bind (reads_identifier hu (avoids_cons.mpr rfl))
        (Reads.bind_pure (reads_mark .closeVariable rest) rfl)))

theorem reads_named {u rest : List Char} (hu : NameText u) (hrest : Delimited rest) :
    Reads variableName ('$' :: u) (String.ofList u) rest := by
  have hbrace : ¬ Mark.openVariable.chars <+: '$' :: u ++ rest := by
    obtain ⟨hfirst, _⟩ := hu
    rintro ⟨t, ht⟩
    rw [show _ = '\x7b' from (List.cons.inj (List.cons.inj ht).2).1.symm] at hfirst
    cases hfirst
  exact Reads.orElse_right (Refuses.bind (refuses_mark hbrace))
    (Reads.bind (u := ['$']) (reads_mark .dollar _)
      (reads_identifier hu (hrest.avoids rfl)))

theorem reads_flag_long {u rest : List Char} (hu : NameText u) (hrest : Delimited rest) :
    Reads flag ('-' :: '-' :: u) (.flag (String.ofList u) true) rest :=
  Reads.orElse_left
    (Reads.bind (u := ['-', '-']) (reads_mark .doubleDash _)
      (Reads.bind_pure (reads_identifier hu (hrest.avoids rfl)) rfl))

theorem reads_flag_short {u rest : List Char} (hu : NameText u) (hrest : Delimited rest) :
    Reads flag ('-' :: u) (.flag (String.ofList u) false) rest := by
  have hdash : ¬ Mark.doubleDash.chars <+: '-' :: u ++ rest := by
    obtain ⟨hfirst, _⟩ := hu
    rintro ⟨t, ht⟩
    rw [show _ = '-' from (List.cons.inj (List.cons.inj ht).2).1.symm] at hfirst
    cases hfirst
  exact Reads.orElse_right (Refuses.bind (refuses_mark hdash))
    (Reads.bind (u := ['-']) (reads_mark .dash _)
      (Reads.bind_pure (reads_identifier hu (hrest.avoids rfl)) rfl))

/-! ## Expressions and commands -/

/-- `$(` is no variable. -/
theorem refuses_variableName_of_paren (text : List Char) :
    Refuses variableName ('$' :: '(' :: text) := by
  apply Refuses.orElse
  · refine Refuses.bind (refuses_mark ?_)
    rintro ⟨t, ht⟩
    exact absurd (List.cons.inj (List.cons.inj ht).2).1 (by decide)
  · exact (reads_mark .dollar ('(' :: text)).refuses_bind
      (refuses_identifier (avoids_cons.mpr rfl))

theorem reads_substitution {inner : Rule Body} {a u b rest : List Char} {body : Body}
    (ha : Blanks a) (hu : BodyText u body) (hb : Blanks b)
    (hinner : ∀ rest, Stops rest → Reads inner u body rest) :
    Reads (substitution inner) ('$' :: '(' :: (a ++ u ++ b ++ [')'])) body rest := by
  have hclose : Avoids isSpace ([')'] ++ rest) := avoids_cons.mpr rfl
  have hstops : Stops (b ++ [')'] ++ rest) :=
    ⟨b, [')'] ++ rest, List.append_assoc _ _ _, hb, fun c hc => by cases hc; decide⟩
  have hbody : Avoids isSpace (u ++ (b ++ [')']) ++ rest) := by
    rw [List.append_assoc]
    exact hu.avoids_space _
  have hread : Reads (substitution inner) (['$', '('] ++ (a ++ (u ++ (b ++ [')'])))) body rest :=
    Reads.bind (reads_mark .openSubstitution _)
      (Reads.bind (reads_skipSpaces ha hbody)
        (Reads.bind (hinner _ hstops)
          (Reads.bind (reads_skipSpaces hb hclose)
            (Reads.bind_pure (reads_mark .closeSubstitution rest) rfl))))
  simpa using hread

section Choice

variable {inner : Rule Body} {u rest : List Char}

theorem reads_expr_quoted (hu : ∀ c ∈ u, isQuotable c = true) :
    Reads (expr inner) ('"' :: (u ++ ['"'])) (.quoted (String.ofList u)) rest :=
  Reads.orElse_right (Refuses.map (refuses_variableName (avoids_cons.mpr rfl)))
    (Reads.orElse_right (Refuses.map (refuses_substitution (avoids_cons.mpr rfl) inner))
      (Reads.orElse_left (Reads.map (reads_quoted hu rest))))

theorem reads_expr_bare (hu : BareText u) (hrest : Delimited rest) :
    Reads (expr inner) u (.bare (String.ofList u)) rest := by
  have hread : Reads bare u (String.ofList u) rest := reads_word hu (hrest.avoids rfl) _
  obtain @⟨c, more, hfirst, _⟩ := hu
  have hdollar : Avoids (· == '$') (c :: more ++ rest) := avoids_of_class hfirst rfl _
  have hquote : Avoids (· == '"') (c :: more ++ rest) := avoids_of_class hfirst rfl _
  exact Reads.orElse_right (Refuses.map (refuses_variableName hdollar))
    (Reads.orElse_right (Refuses.map (refuses_substitution hdollar inner))
      (Reads.orElse_right (Refuses.map (refuses_quoted hquote))
        (Reads.orElse_left (Reads.map hread))))

/-- What starts with a digit or a sign starts no other expression than a number. -/
theorem avoids_of_numeral {c : Char} (hc : (isDigit c || isSign c) = true) (more : List Char) :
    Avoids (· == '$') (c :: more) ∧ Avoids (· == '"') (c :: more) ∧
      Avoids isBareStart (c :: more) := by
  have hother : c ≠ '$' ∧ c ≠ '"' ∧ isBareStart c = false := by
    rcases Bool.or_eq_true_iff.mp hc with hc | hc
    · exact ⟨ne_of_class hc rfl, ne_of_class hc rfl, isBareStart_of_isDigit hc⟩
    · rcases isSign_iff.mp hc with rfl | rfl <;> decide
  exact ⟨avoids_cons.mpr (beq_eq_false_iff_ne.mpr hother.1),
    avoids_cons.mpr (beq_eq_false_iff_ne.mpr hother.2.1), avoids_cons.mpr hother.2.2⟩

/-- A text that starts with a digit or a sign is left to the rule for numbers. -/
theorem reads_expr_number {e : Expr} {c : Char} {more : List Char} (hu : u = c :: more)
    (hc : (isDigit c || isSign c) = true) (hread : Reads number u e rest) :
    Reads (expr inner) u e rest := by
  subst hu
  obtain ⟨hdollar, hquote, hbare⟩ := avoids_of_numeral hc (more ++ rest)
  exact Reads.orElse_right (Refuses.map (refuses_variableName hdollar))
    (Reads.orElse_right (Refuses.map (refuses_substitution hdollar inner))
      (Reads.orElse_right (Refuses.map (refuses_quoted hquote))
        (Reads.orElse_right (Refuses.map (refuses_bare hbare)) hread)))

end Choice

mutual

/-- A body is read by any rule that goes as deep as its substitutions do. -/
theorem reads_body {u : List Char} {b : Body} : BodyText u b → ∀ {n : Nat}, b.depth ≤ n →
    ∀ {rest : List Char}, Stops rest → Reads (bodyWithin (n + 1)) u b rest
  | .command hu hv, n, hn, rest, hrest => by
      -- a command is tried first, so nothing has to be refused before it
      have hname := reads_identifier hu ((hv.delimited hrest.delimited).avoids rfl)
      have hwords := reads_many (hrest.refuses_spaced (bodyWithin n))
        (reads_words hv (n := n) (by simpa [Body.depth] using hn) hrest.delimited)
      exact Reads.orElse_left (Reads.bind hname (Reads.bind_pure hwords rfl))
  | .expr hu hstart, n, hn, rest, hrest => by
      have hread := reads_expr hu (n := n) (by simpa [Body.depth] using hn) hrest.delimited
      exact Reads.orElse_right (refuses_command (hu.avoids_nameStart hstart rest) _)
        (Reads.map hread)

/-- The words of a command are read one by one, each before a delimiter. -/
theorem reads_words {v : List Char} {words : List Argument} : WordsText v words →
    ∀ {n : Nat}, Argument.depthOf words ≤ n → ∀ {rest : List Char}, Delimited rest →
    Repeats (fun u a rest => Reads (do spaces; argument (bodyWithin n)) u a rest ∧ u ≠ [])
      rest v words
  | .nil, _, _, _, _ => .nil
  | .cons hb hne hu hv, n, hn, rest, hrest => by
      rw [Argument.depthOf, Nat.max_le] at hn
      refine .cons ⟨?_, by simp [hne]⟩ (reads_words hv hn.2 hrest)
      exact Reads.bind (reads_spaces hb hne (hu.avoids_space _))
        (reads_word_of_command hu hn.1 (hv.delimited hrest))

/-- A word of a command is read before a delimiter. -/
theorem reads_word_of_command {u : List Char} {a : Argument} : WordText u a → ∀ {n : Nat},
    a.depth ≤ n → ∀ {rest : List Char}, Delimited rest →
    Reads (argument (bodyWithin n)) u a rest
  | .long hu, _, _, _, hrest => Reads.orElse_left (reads_flag_long hu hrest)
  | .short hu, _, _, _, hrest => Reads.orElse_left (reads_flag_short hu hrest)
  | .expr hu, n, hn, rest, hrest => by
      have hread := reads_expr hu (n := n) (by simpa [Argument.depth] using hn) hrest
      exact Reads.orElse_right (hu.refuses_flag rest) (Reads.map hread)

/-- A word that stands for a value is read before a delimiter. -/
theorem reads_expr {u : List Char} {e : Expr} : ExprText u e → ∀ {n : Nat}, e.depth ≤ n →
    ∀ {rest : List Char}, Delimited rest → Reads (expr (bodyWithin n)) u e rest
  | .braced hu, _, _, _, _ => Reads.orElse_left (Reads.map (reads_braced hu _))
  | .named hu, _, _, _, hrest => Reads.orElse_left (Reads.map (reads_named hu hrest))
  | .substitution ha hu hb, n, hn, rest, _ => by
      -- each substitution takes one level off the bound
      rw [Expr.depth] at hn
      obtain ⟨m, rfl⟩ : ∃ m, n = m + 1 := ⟨n - 1, by omega⟩
      have hread : Reads (substitution (bodyWithin (m + 1))) _ _ rest :=
        reads_substitution ha hu hb (fun _ hstops => reads_body hu (by omega) hstops)
      exact Reads.orElse_right (Refuses.map (refuses_variableName_of_paren _))
        (Reads.orElse_left (Reads.map hread))
  | .quoted hu, _, _, _, _ => reads_expr_quoted hu
  | .bare hu, _, _, _, hrest => reads_expr_bare hu hrest
  | .integer hs hds hvalue, n, _, rest, hrest => by
      obtain ⟨c, more, hu, hc⟩ := hs.head_numeral hds
      exact reads_expr_number hu hc (reads_number_integer hs hds hvalue hrest)
  | .float hu hvalue, n, _, rest, hrest => by
      have hread := reads_number_float hu hvalue hrest
      obtain ⟨hs, hwhole, _, _⟩ := hu
      obtain ⟨c, more, hu, hc⟩ := hs.head_numeral hwhole
      exact reads_expr_number (by rw [← List.append_assoc, hu]; rfl) hc hread

end

/-! ## The bound on the depth

Every substitution takes characters of its own, so the length of a text bounds how deeply its
substitutions nest, and `bodyWithin` never runs out of depth. -/

mutual

theorem BodyText.depth_le_length {u : List Char} {b : Body} : BodyText u b → b.depth ≤ u.length
  | .command _ hv => by
      rw [Body.depth, List.length_append]
      have hwords := hv.depth_le_length
      omega
  | .expr hu _ => by
      rw [Body.depth]
      exact hu.depth_le_length

theorem WordsText.depth_le_length {v : List Char} {words : List Argument} :
    WordsText v words → Argument.depthOf words ≤ v.length
  | .nil => by simp [Argument.depthOf]
  | .cons _ _ hu hv => by
      have hword := hu.depth_le_length
      have hwords := hv.depth_le_length
      rw [Argument.depthOf, List.length_append, List.length_append]
      omega

theorem WordText.depth_le_length {u : List Char} {a : Argument} :
    WordText u a → a.depth ≤ u.length
  | .long _ => by simp [Argument.depth]
  | .short _ => by simp [Argument.depth]
  | .expr hu => by
      rw [Argument.depth]
      exact hu.depth_le_length

theorem ExprText.depth_le_length {u : List Char} {e : Expr} : ExprText u e → e.depth ≤ u.length
  | .substitution _ hu _ => by
      have hbody := hu.depth_le_length
      simp only [Expr.depth, List.length_cons, List.length_append]
      omega
  | .braced _ => by simp [Expr.depth]
  | .named _ => by simp [Expr.depth]
  | .quoted _ => by simp [Expr.depth]
  | .bare _ => by simp [Expr.depth]
  | .integer _ _ _ => by simp [Expr.depth]
  | .float _ _ => by simp [Expr.depth]

end

/-! ## Statements and programs -/

/-- What a separator can start with. -/
def breaks : List Char := ['\n', '\r', ';']

/-- The text ends, or goes on with a separator. -/
def Breaks (rest : List Char) : Prop := ∀ c ∈ rest.head?, c ∈ breaks

theorem Breaks.avoids {p : Char → Bool} {rest : List Char} (h : Breaks rest)
    (hp : breaks.any p = false) : Avoids p rest :=
  avoids_of_mem h hp

theorem SeparatorText.breaks {sep : List Char} (h : SeparatorText sep) (rest : List Char) :
    Breaks (sep ++ rest) := by
  intro c hc
  cases h <;> cases hc <;> decide

theorem SeparatorText.ne_nil {sep : List Char} (h : SeparatorText sep) : sep ≠ [] := by
  cases h <;> exact List.cons_ne_nil _ _

theorem reads_separator {sep : List Char} (h : SeparatorText sep) (rest : List Char) :
    Reads separator sep () rest := by
  have hnone : ∀ {text : List Char}, Avoids (· == '\r') text →
      Reads (optional (mark .carriageReturn)) [] none text :=
    fun havoid => Refuses.optional (refuses_mark_of_avoids rfl havoid)
  cases h with
  | lineFeed =>
    exact Reads.orElse_left
      (Reads.bind (u := []) (hnone (avoids_cons.mpr rfl)) (reads_mark .lineFeed rest))
  | carriageReturn =>
    exact Reads.orElse_left (Reads.bind (u := ['\r'])
      (Reads.optional (reads_mark .carriageReturn _)) (reads_mark .lineFeed rest))
  | semicolon =>
    refine Reads.orElse_right ?_ (reads_mark .semicolon rest)
    exact (hnone (avoids_cons.mpr rfl)).refuses_bind
      (refuses_mark_of_avoids rfl (avoids_cons.mpr rfl))

theorem refuses_separator_nil : Refuses separator [] := by
  refine Refuses.orElse ?_ (refuses_mark_of_avoids rfl (avoids_nil _))
  exact (Refuses.optional (refuses_mark_of_avoids rfl (avoids_nil _))).refuses_bind
    (refuses_mark_of_avoids rfl (avoids_nil _))

theorem Blanks.append {a b : List Char} (ha : Blanks a) (hb : Blanks b) : Blanks (a ++ b) := by
  intro c hc
  rcases List.mem_append.mp hc with hc | hc
  · exact ha c hc
  · exact hb c hc

theorem blanks_nil : Blanks [] := by
  intro c hc
  cases hc

theorem blanks_space : Blanks [' '] := by
  intro c hc
  rw [List.mem_singleton.mp hc]
  rfl

theorem AtLineEnd.avoids_commentary {rest : List Char} (h : AtLineEnd rest) :
    Avoids isCommentary rest := by
  intro c hc
  rcases h c hc with rfl | rfl <;> decide

theorem reads_comment {v : List Char} {note : String} (hv : CommentText v note)
    {rest : List Char} (hrest : AtLineEnd rest) : Reads comment v note rest := by
  obtain ⟨hinside⟩ := hv
  exact Reads.bind (u := ['#']) (reads_mark .hash _)
    (Reads.bind_pure (reads_run hinside hrest.avoids_commentary _) rfl)

theorem refuses_comment {text : List Char} (h : Avoids (· == '#') text) : Refuses comment text :=
  Refuses.bind (refuses_mark_of_avoids rfl h)

section Statement

variable {b v c follow : List Char} {note : Option String}

/-- What stands behind the body of a statement. -/
def statementTail (body : Option Body) : Rule Statement := do
  skipSpaces
  let note ← optional comment
  skipSpaces
  pure ⟨body, note⟩

theorem reads_statementTail (body : Option Body) (hb : Blanks b)
    (hv : Optionally CommentText v note) (hc : Blanks c)
    (hline : note.isSome = true → AtLineEnd (c ++ follow)) (hfollow : Breaks follow) :
    Reads (statementTail body) (b ++ v ++ c) ⟨body, note⟩ follow := by
  have hspace : Avoids isSpace follow := hfollow.avoids rfl
  cases hv with
  | absent =>
    -- without a comment between them, the first step takes the blanks of both
    have hnote : Reads (optional comment) [] none follow :=
      Refuses.optional (refuses_comment (hfollow.avoids rfl))
    have hread : Reads (statementTail body) ((b ++ c) ++ ([] ++ [])) ⟨body, none⟩ follow :=
      Reads.bind (reads_skipSpaces (hb.append hc) hspace)
        (Reads.bind hnote (Reads.bind_pure (reads_skipSpaces blanks_nil hspace) rfl))
    simpa using hread
  | @present _ text hv =>
    have hhash : Avoids isSpace (v ++ c ++ follow) := by
      obtain ⟨_⟩ := hv
      exact avoids_cons.mpr rfl
    have hnote : Reads (optional comment) v (some text) (c ++ follow) :=
      Reads.optional (reads_comment hv (hline rfl))
    have hread : Reads (statementTail body) (b ++ (v ++ c)) ⟨body, some text⟩ follow :=
      Reads.bind (reads_skipSpaces hb hhash)
        (Reads.bind hnote (Reads.bind_pure (reads_skipSpaces hc hspace) rfl))
    rwa [← List.append_assoc] at hread

theorem stops_tail (hb : Blanks b) (hv : Optionally CommentText v note) (hc : Blanks c)
    (hfollow : Breaks follow) : Stops (b ++ v ++ c ++ follow) := by
  cases hv with
  | absent =>
    refine ⟨b ++ c, follow, by simp, hb.append hc, ?_⟩
    intro d hd
    exact (by decide : breaks ⊆ stops) (hfollow d hd)
  | present hv =>
    obtain ⟨_⟩ := hv
    refine ⟨b, _, by rw [List.append_assoc, List.append_assoc], hb, ?_⟩
    intro d hd
    cases hd
    decide

end Statement

theorem reads_statement {follow u : List Char} {s : Statement} (h : StatementText follow u s)
    (hfollow : Breaks follow) {n : Nat} (hn : ∀ b ∈ s.body, b.depth ≤ n) :
    Reads (statement (bodyWithin (n + 1))) u s follow := by
  obtain @⟨a, u, b, v, c, body, note, ha, hu, hb, hv, hc, hline⟩ := h
  cases hu with
  | @present _ found hu =>
    have hbody : Reads (optional (bodyWithin (n + 1))) u (some found) (b ++ v ++ c ++ follow) :=
      Reads.optional (reads_body hu (hn found rfl) (stops_tail hb hv hc hfollow))
    have htail := reads_statementTail (some found) hb hv hc hline hfollow
    have hspace : Avoids isSpace (u ++ (b ++ v ++ c) ++ follow) := by
      rw [List.append_assoc]
      exact hu.avoids_space _
    have hread : Reads (statement (bodyWithin (n + 1))) (a ++ (u ++ (b ++ v ++ c)))
        ⟨some found, note⟩ follow :=
      Reads.bind (reads_skipSpaces ha hspace) (Reads.bind hbody htail)
    simpa using hread
  | absent =>
    -- the first step takes all blanks up to the comment or the end
    cases hv with
    | absent =>
      have hnone : Reads (optional (bodyWithin (n + 1))) [] none follow :=
        Refuses.optional (refuses_bodyWithin (hfollow.avoids rfl) _)
      have htail : Reads (statementTail none) ([] ++ [] ++ []) ⟨none, none⟩ follow :=
        reads_statementTail none blanks_nil .absent blanks_nil (fun h => by cases h) hfollow
      have hread : Reads (statement (bodyWithin (n + 1))) ((a ++ b ++ c) ++ ([] ++ []))
          ⟨none, none⟩ follow :=
        Reads.bind (reads_skipSpaces ((ha.append hb).append hc) (hfollow.avoids rfl))
          (Reads.bind hnone htail)
      simpa using hread
    | @present _ text hv =>
      have hhash : Avoids isSpace (v ++ c ++ follow) ∧ Avoids isBodyStart (v ++ c ++ follow) := by
        obtain ⟨_⟩ := hv
        exact ⟨avoids_cons.mpr rfl, avoids_cons.mpr rfl⟩
      have hnone : Reads (optional (bodyWithin (n + 1))) [] none (v ++ c ++ follow) :=
        Refuses.optional (refuses_bodyWithin hhash.2 _)
      have htail : Reads (statementTail none) ([] ++ v ++ c) ⟨none, some text⟩ follow :=
        reads_statementTail none blanks_nil (.present hv) hc hline hfollow
      have hread : Reads (statement (bodyWithin (n + 1))) ((a ++ b) ++ ([] ++ (v ++ c)))
          ⟨none, some text⟩ follow :=
        Reads.bind (reads_skipSpaces (ha.append hb) hhash.1) (Reads.bind hnone htail)
      simpa using hread

theorem refuses_separated_nil (body : Rule Body) : Refuses (do separator; statement body) [] :=
  Refuses.bind refuses_separator_nil

theorem StatementText.depth_le_length {follow u : List Char} {s : Statement}
    (h : StatementText follow u s) : ∀ b ∈ s.body, b.depth ≤ u.length := by
  obtain ⟨-, hu, -, -, -, -⟩ := h
  intro b hb
  cases hu with
  | absent => cases hb
  | present hu =>
    cases hb
    have hdepth := hu.depth_le_length
    simp only [List.length_append]
    omega

theorem ProgramText.depth_le_length {u : List Char} {t : List Statement} (h : ProgramText u t) :
    ∀ s ∈ t, ∀ b ∈ s.body, b.depth ≤ u.length := by
  induction h with
  | last hu =>
    intro s hs
    rw [List.mem_singleton.mp hs]
    exact hu.depth_le_length
  | next hu _ _ ih =>
    intro s hs b hb
    simp only [List.length_append]
    rcases List.mem_cons.mp hs with rfl | hs
    · have hdepth := hu.depth_le_length b hb
      omega
    · have hdepth := ih s hs b hb
      omega

/-- The statements of a program are read one by one, each up to the separator behind it. -/
theorem ProgramText.reads {n : Nat} {w : List Char} {t : List Statement} (h : ProgramText w t)
    (hn : ∀ s ∈ t, ∀ b ∈ s.body, b.depth ≤ n) :
    ∃ u v s more, w = u ++ v ∧ t = s :: more ∧
      Reads (statement (bodyWithin (n + 1))) u s v ∧
      Repeats (fun u s rest => Reads (do separator; statement (bodyWithin (n + 1))) u s rest ∧
        u ≠ []) [] v more := by
  induction h with
  | @last u s hu =>
    refine ⟨u, [], s, [], (List.append_nil u).symm, rfl, ?_, .nil⟩
    exact reads_statement hu (fun c hc => by cases hc) (hn s (List.mem_singleton_self s))
  | @next u sep v s rest hu hsep _ ih =>
    obtain ⟨x, y, first, more, rfl, rfl, hfirst, hmore⟩ :=
      ih (fun s hs => hn s (List.mem_cons_of_mem _ hs))
    refine ⟨u, sep ++ (x ++ y), s, first :: more, rfl, rfl, ?_, ?_⟩
    · exact reads_statement hu (hsep.breaks _) (hn s List.mem_cons_self)
    · have hnext : Reads (do separator; statement (bodyWithin (n + 1))) (sep ++ x) first y :=
        Reads.bind (reads_separator hsep _) hfirst
      have hne : sep ++ x ≠ [] := fun hnil => hsep.ne_nil (List.append_eq_nil_iff.mp hnil).1
      rw [← List.append_assoc]
      exact .cons ⟨by rwa [List.append_nil], hne⟩ hmore

theorem reads_programOver {n : Nat} {w : List Char} {t : List Statement} (h : ProgramText w t)
    (hn : ∀ s ∈ t, ∀ b ∈ s.body, b.depth ≤ n) :
    Reads (programOver (bodyWithin (n + 1))) w t [] := by
  obtain ⟨u, v, s, more, rfl, rfl, hfirst, hmore⟩ := h.reads hn
  have hmany := reads_many (refuses_separated_nil _) hmore
  have hread : Reads (statements (bodyWithin (n + 1))) (u ++ v) (s :: more) [] :=
    Reads.orElse_left (Reads.bind (by rwa [List.append_nil]) (Reads.bind_pure hmany rfl))
  have hall : Reads (programOver (bodyWithin (n + 1))) ((u ++ v) ++ []) (s :: more) [] :=
    Reads.bind hread (Reads.bind_pure reads_atEnd rfl)
  rwa [List.append_nil] at hall

theorem program_complete {source : List Char} {t : List Statement} (h : ProgramText source t) :
    program source = .ok t := by
  obtain ⟨last, hlast, -⟩ := reads_programOver h h.depth_le_length (Cursor.start source)
    (List.append_nil source).symm
  exact runOn_eq_ok.mpr ⟨last, hlast⟩

theorem expression_complete {source : List Char} {b : Body} (h : LoneText source b) :
    expression source = .ok b := by
  obtain @⟨x, u, y, _, hx, hu, hy⟩ := h
  have hdepth : b.depth ≤ (x ++ u ++ y).length := by
    have hbody := hu.depth_le_length
    simp only [List.length_append]
    omega
  have hstops : Stops (y ++ []) := ⟨y, [], rfl, hy, fun c hc => by cases hc⟩
  have hread : Reads (expressionOver (bodyWithin ((x ++ u ++ y).length + 1)))
      (x ++ (u ++ (y ++ []))) b [] :=
    Reads.bind (reads_skipSpaces hx (by rw [List.append_assoc]; exact hu.avoids_space _))
      (Reads.bind (reads_body hu hdepth (by simpa using hstops))
        (Reads.bind (reads_skipSpaces hy (avoids_nil _)) (Reads.bind_pure reads_atEnd rfl)))
  obtain ⟨last, hlast, -⟩ := hread (Cursor.start (x ++ u ++ y)) (by simp [Cursor.start])
  exact runOn_eq_ok.mpr ⟨last, hlast⟩

/-! ## Both directions -/

theorem program_eq_ok_iff {source : List Char} {t : List Statement} :
    program source = .ok t ↔ ProgramText source t :=
  ⟨program_sound, program_complete⟩

theorem expression_eq_ok_iff {source : List Char} {b : Body} :
    expression source = .ok b ↔ LoneText source b :=
  ⟨expression_sound, expression_complete⟩

/-- No text has two trees. -/
theorem ProgramText.unique {source : List Char} {t₁ t₂ : List Statement}
    (h₁ : ProgramText source t₁) (h₂ : ProgramText source t₂) : t₁ = t₂ :=
  Except.ok.inj ((program_complete h₁).symm.trans (program_complete h₂))

/-- A body by itself is a program of one statement. -/
theorem BodyText.programText {u : List Char} {b : Body} (hu : BodyText u b) :
    ProgramText u [⟨some b, none⟩] := by
  have hline : (none : Option String).isSome = true → AtLineEnd ([] ++ []) := fun h => by cases h
  refine .last ?_
  simpa using StatementText.mk blanks_nil (.present hu) blanks_nil .absent blanks_nil hline

end CommandShell.Grammar

namespace CommandShell.Reader

open Grammar

theorem match?_eq_ok_iff {α : Type} {r : Reader} {grammar : List Char → Except Refusals α}
    {source : List Char} {a : α} :
    r.match? grammar source = .ok a ↔
      Nesting.firstExcess r.maxNesting source = none ∧ grammar source = .ok a := by
  unfold match?
  cases Nesting.firstExcess r.maxNesting source with
  | some place => simp
  | none => cases grammar source <;> simp [Except.mapError]

theorem programTree_eq_ok_iff {r : Reader} {source : String} {t : List Statement} :
    r.programTree source = .ok t ↔
      Nesting.firstExcess r.maxNesting source.toList = none ∧ ProgramText source.toList t := by
  rw [← program_eq_ok_iff]
  exact match?_eq_ok_iff

theorem expressionTree_eq_ok_iff {r : Reader} {source : String} {b : Body} :
    r.expressionTree source = .ok b ↔
      Nesting.firstExcess r.maxNesting source.toList = none ∧ LoneText source.toList b := by
  rw [← expression_eq_ok_iff]
  exact match?_eq_ok_iff

/-- A text whose nesting is admitted has the trees that the grammar derives for it, and there is at
most one. Every floating-point literal has a value, so that its value is no condition on the
text. -/
theorem programTree_exact (r : Reader) (source : String) :
    (∀ t, r.programTree source = .ok t ↔
      Nesting.firstExcess r.maxNesting source.toList = none ∧ ProgramText source.toList t) ∧
    (∀ t, r.programTree source = .ok t → ∃! t', ProgramText source.toList t') ∧
    (∀ u, FloatText u → ∃ value, Binary64.ofText? (String.ofList u) = some value) := by
  refine ⟨fun t => programTree_eq_ok_iff, ?_, fun u hu => hu.exists_value⟩
  intro t ht
  obtain ⟨-, htree⟩ := programTree_eq_ok_iff.mp ht
  exact ⟨t, htree, fun t' ht' => ht'.unique htree⟩

end CommandShell.Reader
