/-
# CommandShell.Proofs.Grammar.Holes -- programs with one word left open

A hole is a place in a program for a word that stands for a value: a statement of its own, or an
argument of a command, at any depth of substitutions. It is given by the texts on both sides of the
place and by the tree around it. A program whose hole is filled with such a word is a program, with
the word in its tree (`fill`).

Digits that make no 64-bit integer are no word. Where they stand in a hole, no other way of reading
the program takes over: whatever rule comes to them stops before them, the place it stops at starts
a word, and no rule goes on there (`ProgramHole.refused`).
-/
import CommandShell.Proofs.Grammar.Lines
import CommandShell.Proofs.Grammar.Refusals

namespace CommandShell.Grammar

open Rule
open Decimal (isDigit)

/-! ## Holes -/

mutual

/-- A lone expression, or a command with one open word among its words. -/
inductive BodyHole : List Char → List Char → (Expr → Body) → Prop
  | lone {l r : List Char} {K : Expr → Expr} :
      ExprHole l r K → BodyHole l r (fun e => .expr (K e))
  | word {u v b l r w : List Char} {before after : List Argument} {K : Expr → Expr} :
      NameText u → WordsText v before → Blanks b → b ≠ [] → ExprHole l r K →
      WordsText w after →
      BodyHole (u ++ v ++ b ++ l) (r ++ w)
        (fun e => .command (String.ofList u) (before ++ .expr (K e) :: after))

/-- The open word itself, or a substitution that has it inside. -/
inductive ExprHole : List Char → List Char → (Expr → Expr) → Prop
  | here : ExprHole [] [] (fun e => e)
  | inside {a l r b : List Char} {K : Expr → Body} :
      Blanks a → BodyHole l r K → Blanks b →
      ExprHole ('$' :: '(' :: (a ++ l)) (r ++ b ++ [')']) (fun e => .substitution (K e))

end

/-- A statement with an open word, given the text that follows. -/
inductive StatementHole (follow : List Char) : List Char → List Char → (Expr → Statement) → Prop
  | mk {a l r b v c : List Char} {K : Expr → Body} {note : Option String} :
      Blanks a → BodyHole l r K → Blanks b → Optionally CommentText v note → Blanks c →
      (note.isSome = true → AtLineEnd (c ++ follow)) →
      StatementHole follow (a ++ l) (r ++ b ++ v ++ c) (fun e => ⟨some (K e), note⟩)

/-- A program with an open word in one of its statements. -/
inductive ProgramHole : List Char → List Char → (Expr → List Statement) → Prop
  | last {l r : List Char} {K : Expr → Statement} :
      StatementHole [] l r K → ProgramHole l r (fun e => [K e])
  | next {l r sep v : List Char} {K : Expr → Statement} {rest : List Statement} :
      StatementHole (sep ++ v) l r K → SeparatorText sep → ProgramText v rest →
      ProgramHole l (r ++ (sep ++ v)) (fun e => K e :: rest)
  | later {u sep l r : List Char} {s : Statement} {K : Expr → List Statement} :
      StatementText sep u s → SeparatorText sep → ProgramHole l r K →
      ProgramHole (u ++ (sep ++ l)) r (fun e => s :: K e)

/-! ## Filling a hole -/

theorem WordsText.append {u v : List Char} {before after : List Argument}
    (hu : WordsText u before) (hv : WordsText v after) : WordsText (u ++ v) (before ++ after) := by
  induction before generalizing u with
  | nil =>
    cases hu
    exact hv
  | cons a before ih =>
    cases hu with
    | cons hb hne hword hmore =>
      rw [List.append_assoc]
      exact .cons hb hne hword (ih hmore)

/-- A statement before a separator stays one if more follows. -/
theorem StatementText.append_follow {follow u v : List Char} {s : Statement}
    (h : StatementText follow u s) (hne : follow ≠ []) : StatementText (follow ++ v) u s := by
  obtain ⟨ha, hu, hb, hv, hc, hline⟩ := h
  refine .mk ha hu hb hv hc (fun hnote => (hline hnote).append (fun d hd => .inl ?_))
  cases follow with
  | nil => exact absurd rfl hne
  | cons ch more => exact hd

mutual

theorem BodyHole.fill {l r x : List Char} {K : Expr → Body} {e : Expr} (hx : ExprText x e)
    (he : e.startsName = false) : BodyHole l r K → BodyText (l ++ x ++ r) (K e)
  | .lone h => by
      obtain ⟨htext, hstart⟩ := h.fill hx he
      exact .expr htext hstart
  | .word hu hv hb hne h hw => by
      obtain ⟨htext, -⟩ := h.fill hx he
      have hwords := hv.append (WordsText.cons hb hne (.expr htext) hw)
      simpa using BodyText.command hu hwords

theorem ExprHole.fill {l r x : List Char} {K : Expr → Expr} {e : Expr} (hx : ExprText x e)
    (he : e.startsName = false) :
    ExprHole l r K → ExprText (l ++ x ++ r) (K e) ∧ (K e).startsName = false
  | .here => by simpa using ⟨hx, he⟩
  | .inside ha h hb => ⟨by simpa using ExprText.substitution ha (h.fill hx he) hb, rfl⟩

end

section Fill

variable {x l r : List Char} {e : Expr} (hx : ExprText x e) (he : e.startsName = false)

include hx he

theorem StatementHole.fill {follow : List Char} {K : Expr → Statement}
    (h : StatementHole follow l r K) : StatementText follow (l ++ x ++ r) (K e) := by
  obtain ⟨ha, hbody, hb, hv, hc, hline⟩ := h
  have hfilled := StatementText.mk ha (.present (hbody.fill hx he)) hb hv hc hline
  simpa using hfilled

/-- A program whose hole is filled with a word is a program, with the word in its tree. -/
theorem ProgramHole.fill {K : Expr → List Statement} (h : ProgramHole l r K) :
    ProgramText (l ++ x ++ r) (K e) := by
  induction h with
  | last h => exact .last (h.fill hx he)
  | next h hsep hmore => simpa using ProgramText.next (h.fill hx he) hsep hmore
  | @later u sep l r s K hu hsep _ ih =>
    have hstatement : StatementText (sep ++ (l ++ x ++ r)) u s := hu.append_follow hsep.ne_nil
    simpa using ProgramText.next hstatement hsep ih

end Fill

/-! ## The texts of integers -/

/-- The texts of integers of any size, with their values. -/
inductive IntegerText : List Char → Int → Prop
  | mk {s ds : List Char} {negative : Bool} :
      SignText s negative → DigitsText ds →
      IntegerText (s ++ ds) (signed negative (ds.foldl Decimal.putDigit 0))

theorem IntegerText.head {x : List Char} {value : Int} (hx : IntegerText x value) :
    ∃ c more, x = c :: more ∧ (isDigit c || isSign c) = true := by
  obtain ⟨hs, hds⟩ := hx
  exact hs.head_numeral hds

/-- No text of an integer is read as a flag, whatever follows it. -/
theorem IntegerText.refuses_flag {x : List Char} {value : Int} (hx : IntegerText x value)
    (rest : List Char) : Refuses flag (x ++ rest) := by
  obtain ⟨hs, hds⟩ := hx
  exact refuses_flag_of_numeral hs hds rest

/-- One that 64 bits can hold is a word. -/
theorem IntegerText.exprText {x : List Char} {v : Int64} (hx : IntegerText x v.toInt) :
    ExprText x (.integer v) := by
  generalize hvalue : v.toInt = value at hx
  obtain ⟨hs, hds⟩ := hx
  exact .integer hs hds hvalue

/-- The texts of integers that 64 bits cannot hold. -/
inductive OversizedText : List Char → Prop
  | mk {x : List Char} {value : Int} :
      IntegerText x value → int64? value = none → OversizedText x

section Oversized

variable {x rest : List Char} (hx : OversizedText x)

include hx

theorem OversizedText.head : ∃ c more, x = c :: more ∧ (isDigit c || isSign c) = true := by
  obtain ⟨hx, -⟩ := hx
  exact hx.head

theorem OversizedText.refuses_flag : Refuses flag (x ++ rest) := by
  obtain ⟨hx, -⟩ := hx
  exact hx.refuses_flag rest

theorem OversizedText.refuses_number (hrest : Delimited rest) : Refuses number (x ++ rest) := by
  obtain ⟨hx, hnone⟩ := hx
  obtain @⟨s, ds, negative, hs, hds⟩ := hx
  have hfitting : Refuses (fitting negative ds) rest := by
    intro c _
    rw [fitting, Decimal.valueOf_eq_foldl, hnone]
    rfl
  have hinteger : Refuses integer (s ++ (ds ++ rest)) :=
    (reads_sign hs (hds.avoids_sign rest)).refuses_bind
      ((reads_digits hds (hrest.avoids rfl)).refuses_bind hfitting)
  rw [← List.append_assoc] at hinteger
  exact Refuses.orElse (Refuses.map (refuses_float hs hds hrest)) (Refuses.map hinteger)

theorem OversizedText.refuses_expr (hrest : Delimited rest) (inner : Rule Body) :
    Refuses (expr inner) (x ++ rest) := by
  have hnumber := hx.refuses_number hrest
  obtain ⟨c, more, rfl, hc⟩ := hx.head
  obtain ⟨hdollar, hquote, hbare⟩ := avoids_of_numeral hc (more ++ rest)
  exact Refuses.orElse (Refuses.map (refuses_variableName hdollar))
    (Refuses.orElse (Refuses.map (refuses_substitution hdollar inner))
      (Refuses.orElse (Refuses.map (refuses_quoted hquote))
        (Refuses.orElse (Refuses.map (refuses_bare hbare)) hnumber)))

end Oversized

/-! ## Stopping before a word -/

/-- The text starts with a character that a word starts with. -/
def StartsWord (text : List Char) : Prop := ∃ c more, text = c :: more ∧ isBodyStart c = true

/-- Where the rule matches, a word starts behind the blanks that follow. -/
def StopsBeforeWord {α : Type} (p : Rule α) (text : List Char) : Prop :=
  ∀ c, c.rest = text → ∀ a next, (p c).result = some (a, next) →
    StartsWord (next.rest.dropWhile isSpace)

theorem Rule.Refuses.stopsBeforeWord {α : Type} {p : Rule α} {text : List Char}
    (h : Refuses p text) : StopsBeforeWord p text := by
  intro c hc a next hr
  rw [h c hc] at hr
  cases hr

/-- Where the rule takes what comes before the blanks. -/
theorem Rule.Reads.stopsBeforeWord {α : Type} {p : Rule α} {u b text : List Char} {a : α}
    (h : Reads p u a (b ++ text)) (hskip : (b ++ text).dropWhile isSpace = text)
    (htext : StartsWord text) : StopsBeforeWord p (u ++ (b ++ text)) := by
  intro c hc a' next hr
  obtain ⟨last, hlast, hrest⟩ := h c hc
  rw [hr] at hlast
  cases hlast
  rwa [hrest, hskip]

section StartsWord

variable {text : List Char} (h : StartsWord text)

include h

theorem StartsWord.append (rest : List Char) : StartsWord (text ++ rest) := by
  obtain ⟨c, more, rfl, hc⟩ := h
  exact ⟨c, more ++ rest, rfl, hc⟩

/-- No character that starts no word stands first. -/
theorem StartsWord.avoids {t : Char → Bool} (ht : ∀ c, t c = true → isBodyStart c = false) :
    Avoids t text := by
  obtain ⟨c, more, rfl, hc⟩ := h
  apply avoids_cons.mpr
  cases htc : t c with
  | false => rfl
  | true =>
    rw [ht c htc] at hc
    cases hc

theorem StartsWord.avoids_char {d : Char} (hd : isBodyStart d = false) : Avoids (· == d) text :=
  h.avoids (fun c hc => by rw [eq_of_beq hc]; exact hd)

theorem StartsWord.avoids_space : Avoids isSpace text :=
  h.avoids (fun c hc => by rcases isSpace_iff.mp hc with rfl | rfl <;> rfl)

theorem StartsWord.refuses_separator : Refuses separator text := by
  have hreturn : Refuses (mark .carriageReturn) text :=
    refuses_mark_of_avoids rfl (h.avoids_char rfl)
  exact Refuses.orElse
    (hreturn.optional.refuses_bind (refuses_mark_of_avoids rfl (h.avoids_char rfl)))
    (refuses_mark_of_avoids rfl (h.avoids_char rfl))

end StartsWord

/-- A substitution needs its closing parenthesis behind the blanks. -/
theorem refuses_substitution_of_stops {inner : Rule Body} {a text : List Char} (ha : Blanks a)
    (htext : StartsWord text) (hinner : StopsBeforeWord inner text) :
    Refuses (substitution inner) ('$' :: '(' :: (a ++ text)) := by
  intro c hc
  cases hr : (substitution inner c).result with
  | none => rfl
  | some r =>
    obtain ⟨b, next⟩ := r
    obtain ⟨⟨⟩, c₁, hopen, hr⟩ := bind_eq_some.mp hr
    obtain ⟨⟨⟩, c₂, hbefore, hr⟩ := bind_eq_some.mp hr
    obtain ⟨b, c₃, hbody, hr⟩ := bind_eq_some.mp hr
    obtain ⟨⟨⟩, c₄, hafter, hr⟩ := bind_eq_some.mp hr
    obtain ⟨⟨⟩, c₅, hclose, hr⟩ := bind_eq_some.mp hr
    have hc₁ : c₁.rest = a ++ text := by
      have heq := mark_eq_some hopen
      rw [hc] at heq
      exact (List.cons.inj (List.cons.inj heq).2).2.symm
    have hc₂ : c₂.rest = text := by
      cases hbefore
      show c₁.rest.dropWhile isSpace = text
      rw [hc₁, dropWhile_append_of_avoids ha htext.avoids_space]
    have hword : StartsWord c₄.rest := by
      cases hafter
      exact hinner c₂ hc₂ b c₃ hbody
    rw [refuses_mark_of_avoids rfl (hword.avoids_char rfl) c₄ rfl] at hclose
    cases hclose

/-- A statement stops where its body does. -/
theorem statement_stops {body : Rule Body} {a text : List Char} (ha : Blanks a)
    (htext : StartsWord text) (hbody : StopsBeforeWord body text) {c : Cursor}
    (hc : c.rest = a ++ text) :
    ∃ s next, (statement body c).result = some (s, next) ∧ StartsWord next.rest := by
  cases hr : (statement body c).result with
  | none => exact absurd hr (total_statement body c)
  | some r =>
    obtain ⟨s, next⟩ := r
    refine ⟨s, next, rfl, ?_⟩
    obtain ⟨⟨⟩, c₁, hbefore, hr⟩ := bind_eq_some.mp hr
    obtain ⟨o, c₂, hoptional, hr⟩ := bind_eq_some.mp hr
    obtain ⟨⟨⟩, c₃, hbetween, hr⟩ := bind_eq_some.mp hr
    obtain ⟨note, c₄, hnote, hr⟩ := bind_eq_some.mp hr
    obtain ⟨⟨⟩, c₅, hafter, hr⟩ := bind_eq_some.mp hr
    obtain ⟨rfl, rfl⟩ := pure_eq_some.mp hr
    have hc₁ : c₁.rest = text := by
      cases hbefore
      show c.rest.dropWhile isSpace = text
      rw [hc, dropWhile_append_of_avoids ha htext.avoids_space]
    have hword : StartsWord c₃.rest := by
      cases hbetween
      show StartsWord (c₂.rest.dropWhile isSpace)
      rw [result_optional] at hoptional
      rcases hb : (body c₁).result with _ | ⟨b, last⟩
      · rw [hb] at hoptional
        cases hoptional
        rwa [hc₁, dropWhile_eq_of_avoids htext.avoids_space]
      · rw [hb] at hoptional
        cases hoptional
        exact hbody c₁ hc₁ b last hb
    -- neither a comment nor a blank stands there
    have hcomment : (optional comment c₃).result = some (none, c₃) := by
      rw [result_optional, refuses_comment (hword.avoids_char rfl) c₃ rfl]
      rfl
    rw [hcomment] at hnote
    cases hnote
    cases hafter
    show StartsWord (c₃.rest.dropWhile isSpace)
    rwa [dropWhile_eq_of_avoids hword.avoids_space]

/-- No separator stands where a word starts, so no other statement follows. -/
theorem StartsWord.of_repeated {body : Rule Body} {mid last : Cursor} {more : List Statement}
    {refused : Refusals} (hmid : StartsWord mid.rest)
    (hmore : Repeated (do separator; statement body) mid more last refused) :
    StartsWord last.rest := by
  cases hmore with
  | stop _ => exact hmid
  | step hnext _ =>
    rw [Refuses.bind hmid.refuses_separator mid rfl] at hnext
    cases hnext

/-! ## Oversized digits in a hole -/

theorem OversizedText.startsWord {x : List Char} (hx : OversizedText x) : StartsWord x := by
  obtain ⟨c, more, rfl, hc⟩ := hx.head
  refine ⟨c, more, rfl, ?_⟩
  rcases Bool.or_eq_true_iff.mp hc with hc | hc <;> simp [isBodyStart, hc]

section Start

variable {l r x : List Char} (hx : OversizedText x)

include hx

theorem ExprHole.startsWord {K : Expr → Expr} (h : ExprHole l r K) : StartsWord (l ++ x) := by
  cases h with
  | here => exact hx.startsWord
  | inside _ _ _ => exact ⟨'$', _, rfl, rfl⟩

theorem BodyHole.startsWord {K : Expr → Body} (h : BodyHole l r K) : StartsWord (l ++ x) := by
  cases h with
  | lone h => exact h.startsWord hx
  | word hu _ _ _ _ _ =>
    obtain ⟨hfirst, _⟩ := hu
    exact ⟨_, _, rfl, by simp [isBodyStart, isBareStart, hfirst]⟩

theorem ExprHole.refuses_flag {K : Expr → Expr} (h : ExprHole l r K) (rest : List Char) :
    Refuses flag (l ++ x ++ rest) := by
  cases h with
  | here => exact hx.refuses_flag
  | inside _ _ _ => exact Grammar.refuses_flag (avoids_cons.mpr rfl)

theorem ExprHole.avoids_nameStart {K : Expr → Expr} (h : ExprHole l r K) (rest : List Char) :
    Avoids isNameStart (l ++ x ++ rest) := by
  cases h with
  | here =>
    obtain ⟨c, more, rfl, hc⟩ := hx.head
    apply avoids_cons.mpr
    rcases Bool.or_eq_true_iff.mp hc with hc | hc
    · exact isNameStart_of_isDigit hc
    · rcases isSign_iff.mp hc with rfl | rfl <;> rfl
  | inside _ _ _ => exact avoids_cons.mpr rfl

end Start

mutual

/-- A body that comes to the oversized digits stops before them, or before the substitution that has
them inside. -/
theorem BodyHole.stops {l r x : List Char} {K : Expr → Body} (hx : OversizedText x) :
    BodyHole l r K → ∀ {n : Nat}, l.length ≤ n → ∀ {rest : List Char}, Stops rest →
    StopsBeforeWord (bodyWithin (n + 1)) (l ++ x ++ r ++ rest)
  | .lone h, n, hn, rest, hrest => by
      have hname : Avoids isNameStart (l ++ x ++ r ++ rest) := by
        rw [List.append_assoc]
        exact h.avoids_nameStart hx _
      have hrefuses : Refuses (bodyWithin (n + 1)) (l ++ x ++ r ++ rest) :=
        Refuses.orElse (refuses_command hname _) (Refuses.map (h.refuses hx hn hrest.delimited))
      exact hrefuses.stopsBeforeWord
  | @BodyHole.word u v b l r w before after K hu hv hb hne h hw, n, hn, rest, hrest => by
      simp only [List.length_append] at hn
      have hfollow : Delimited (w ++ rest) := hw.delimited hrest.delimited
      have hword : StartsWord (l ++ x ++ r ++ (w ++ rest)) := by
        rw [List.append_assoc]
        exact (h.startsWord hx).append _
      have hblank : Delimited (b ++ (l ++ x ++ r ++ (w ++ rest))) := delimited_of_blanks hb hne _
      have hflag : Refuses flag (l ++ x ++ r ++ (w ++ rest)) := by
        rw [List.append_assoc]
        exact h.refuses_flag hx _
      have hexpr : Refuses (expr (bodyWithin n)) (l ++ x ++ r ++ (w ++ rest)) :=
        h.refuses hx (by omega) hfollow
      have hspaced : Refuses (do spaces; argument (bodyWithin n))
          (b ++ (l ++ x ++ r ++ (w ++ rest))) :=
        (reads_spaces hb hne hword.avoids_space).refuses_bind
          (Refuses.orElse hflag (Refuses.map hexpr))
      -- the words in front are taken, and the blanks before the open word are not
      have hdepth : Argument.depthOf before ≤ n := hv.depth_le_length.trans (by omega)
      have hwords := reads_many hspaced (reads_words hv hdepth hblank)
      have hname := reads_identifier hu ((hv.delimited hblank).avoids rfl)
      have hread : Reads (bodyWithin (n + 1)) (u ++ v) (.command (String.ofList u) before)
          (b ++ (l ++ x ++ r ++ (w ++ rest))) :=
        Reads.orElse_left (Reads.bind hname (Reads.bind_pure hwords rfl))
      simpa using hread.stopsBeforeWord
        (dropWhile_append_of_avoids hb hword.avoids_space) hword

theorem ExprHole.refuses {l r x : List Char} {K : Expr → Expr} (hx : OversizedText x) :
    ExprHole l r K → ∀ {n : Nat}, l.length ≤ n → ∀ {rest : List Char}, Delimited rest →
    Refuses (expr (bodyWithin n)) (l ++ x ++ r ++ rest)
  | .here, n, _, rest, hrest => by
      rw [List.append_nil]
      exact hx.refuses_expr hrest _
  | @ExprHole.inside a l r b K ha h hb, n, hn, rest, _ => by
      simp only [List.length_cons, List.length_append] at hn
      obtain ⟨m, rfl⟩ : ∃ m, n = m + 1 := ⟨n - 1, by omega⟩
      have hstops : Stops (b ++ ')' :: rest) := ⟨b, _, rfl, hb, fun c hc => by cases hc; decide⟩
      have hword : StartsWord (l ++ x ++ r ++ (b ++ ')' :: rest)) := by
        rw [List.append_assoc]
        exact (h.startsWord hx).append _
      have hbody : StopsBeforeWord (bodyWithin (m + 1)) (l ++ x ++ r ++ (b ++ ')' :: rest)) :=
        h.stops hx (by omega) hstops
      -- after a dollar sign and a parenthesis nothing but a substitution could come
      have hrefuses : Refuses (expr (bodyWithin (m + 1)))
          ('$' :: '(' :: (a ++ (l ++ x ++ r ++ (b ++ ')' :: rest)))) :=
        Refuses.orElse (Refuses.map (refuses_variableName_of_paren _))
          (Refuses.orElse (Refuses.map (refuses_substitution_of_stops ha hword hbody))
            (Refuses.orElse (Refuses.map (refuses_quoted (avoids_cons.mpr rfl)))
              (Refuses.orElse (Refuses.map (refuses_bare (avoids_cons.mpr rfl)))
                (refuses_number (avoids_cons.mpr rfl) (avoids_cons.mpr rfl)))))
      simpa using hrefuses

end

/-! ## Programs -/

section Program

variable {l r x : List Char} (hx : OversizedText x) {n : Nat} (hn : l.length ≤ n)

include hx hn

theorem StatementHole.stops {follow : List Char} {K : Expr → Statement}
    (h : StatementHole follow l r K) (hfollow : Breaks follow) {c : Cursor}
    (hc : c.rest = l ++ x ++ r ++ follow) :
    ∃ s next, (statement (bodyWithin (n + 1)) c).result = some (s, next) ∧
      StartsWord next.rest := by
  obtain @⟨a, l, r, b, v, w, K, note, ha, hbody, hb, hv, hw, -⟩ := h
  rw [List.length_append] at hn
  have hstops : Stops (b ++ v ++ w ++ follow) := stops_tail hb hv hw hfollow
  have hword : StartsWord (l ++ x ++ r ++ (b ++ v ++ w ++ follow)) := by
    rw [List.append_assoc]
    exact (hbody.startsWord hx).append _
  exact statement_stops ha hword (hbody.stops hx (by omega) hstops) (by simpa using hc)

/-- The statements of a program end before the oversized digits. -/
theorem ProgramHole.stops {K : Expr → List Statement} (h : ProgramHole l r K) {c : Cursor}
    (hc : c.rest = l ++ x ++ r) :
    ∃ s mid, (statement (bodyWithin (n + 1)) c).result = some (s, mid) ∧
      ∀ more last refused,
        Repeated (do separator; statement (bodyWithin (n + 1))) mid more last refused →
        StartsWord last.rest := by
  induction h generalizing c with
  | last h =>
    obtain ⟨s, mid, hs, hmid⟩ := h.stops hx hn (fun d hd => by cases hd) (by simpa using hc)
    exact ⟨s, mid, hs, fun _ _ _ hmore => hmid.of_repeated hmore⟩
  | next h hsep _ =>
    obtain ⟨s, mid, hs, hmid⟩ := h.stops hx hn (hsep.breaks _) (by simpa using hc)
    exact ⟨s, mid, hs, fun _ _ _ hmore => hmid.of_repeated hmore⟩
  | @later u sep l r s K hu hsep _ ih =>
    simp only [List.length_append] at hn
    have hdepth : ∀ b ∈ s.body, b.depth ≤ n :=
      fun b hb => (hu.depth_le_length b hb).trans (by omega)
    have hstatement : StatementText (sep ++ (l ++ x ++ r)) u s := hu.append_follow hsep.ne_nil
    obtain ⟨mid, hmid, hrest⟩ := reads_statement hstatement (hsep.breaks _) hdepth c
      (by simpa using hc)
    refine ⟨s, mid, hmid, fun more last refused hmore => ?_⟩
    obtain ⟨next, hnext, hline⟩ := reads_separator hsep _ mid hrest
    obtain ⟨s', stop, hs', hstop⟩ := ih (by omega) hline
    -- the statements that follow are those of the program behind the separator
    have hspaced : ((do separator; statement (bodyWithin (n + 1))) mid).result = some (s', stop) :=
      bind_eq_some.mpr ⟨(), next, hnext, hs'⟩
    cases hmore with
    | stop hnone =>
      rw [hspaced] at hnone
      cases hnone
    | step hfound hmore =>
      rw [hspaced] at hfound
      cases hfound
      exact hstop _ _ _ hmore

end Program

/-- A program whose hole is filled with digits that make no integer is refused. -/
theorem ProgramHole.refused {l r x : List Char} {K : Expr → List Statement}
    (h : ProgramHole l r K) (hx : OversizedText x) :
    ∃ refused, program (l ++ x ++ r) = .error refused := by
  cases hp : program (l ++ x ++ r) with
  | error refused => exact ⟨refused, rfl⟩
  | ok t =>
    obtain ⟨last, hlast⟩ := runOn_eq_ok.mp hp
    obtain ⟨found, stop, hfound, hend⟩ := bind_eq_some.mp hlast
    obtain ⟨⟨⟩, final, hend, -⟩ := bind_eq_some.mp hend
    obtain ⟨s, mid, more, hs, hmore, -⟩ := statements_eq_some hfound
    have hn : l.length ≤ (l ++ x ++ r).length := by
      simp only [List.length_append]
      omega
    obtain ⟨s', mid', hs', hstop⟩ := h.stops hx hn (c := Cursor.start (l ++ x ++ r)) rfl
    rw [hs] at hs'
    cases hs'
    -- the statements stop before a word, where the text does not end
    obtain ⟨ch, t, hrest, -⟩ :=
      hstop _ _ _ (repeated_statements (orderly_bodyWithin _) hmore)
    rw [(atEnd_eq_some hend).1] at hrest
    cases hrest

end CommandShell.Grammar
