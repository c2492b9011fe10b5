/-
# CommandShell.Proofs.Grammar.BodyEnds -- what was tried at the end of a body

A body that matched is one of three kinds at its end. A command before a blank has tried one more
word behind its blanks. A body that ends in a number has tried one more digit. Every other body has
tried nothing from its end on, and a command all of whose words are flags with two dashes has been
refused nothing at all.
-/
import CommandShell.Proofs.Grammar.Lookahead

namespace CommandShell.Grammar

open Rule

/-- Whether a body is a command. -/
def Body.isCommand : Body → Bool
  | .command _ _ => true
  | .expr _ => false

/-- Whether the last word of a body is a number. -/
def Body.endsInNumber : Body → Bool
  | .command _ words => words.getLast?.any Argument.isNumber
  | .expr e => e.isNumber

/-- Whether a body is a command that has no words but flags with two dashes. -/
def Body.hasOnlyLongFlags : Body → Bool
  | .command _ words => words.all Argument.isLong
  | .expr _ => false

theorem skipWhile_of_avoids {c : Cursor} {t : Char → Bool} (h : Avoids t c.rest) :
    c.skipWhile t = c := by
  have htake : ([] ++ c.rest).takeWhile t = [] := takeWhile_append_of_avoids (by simp) h
  rw [List.nil_append] at htake
  rw [Cursor.skipWhile, htake, dropWhile_eq_of_avoids h]
  rfl

theorem offset_lt_skipWhile {c : Cursor} {t : Char → Bool} (h : ¬ Avoids t c.rest) :
    c.offset < (c.skipWhile t).offset := by
  obtain ⟨ch, more, hrest, hch⟩ := exists_cons_of_not_avoids h
  show c.offset < c.offset + (c.rest.takeWhile t).length
  rw [hrest, List.takeWhile_cons, if_pos hch, List.length_cons]
  omega

theorem delimited_of_not_avoids {rest : List Char} (h : ¬ Avoids isSpace rest) :
    Delimited rest := by
  obtain ⟨ch, more, rfl, hch⟩ := exists_cons_of_not_avoids h
  rintro d ⟨⟩
  exact mem_delimiters_of_isSpace hch

/-- Behind the blanks no word starts. -/
theorem Stops.avoids_bodyStart {c : Cursor} (h : Stops c.rest) :
    Avoids isBodyStart (c.skipWhile isSpace).rest := by
  obtain ⟨b, t, hrest, hb, ht⟩ := h
  show Avoids isBodyStart (c.rest.dropWhile isSpace)
  rw [hrest, dropWhile_append_of_avoids hb (avoids_of_mem ht rfl)]
  exact avoids_of_mem ht rfl

section Inner

variable {inner : Rule Body} {c last : Cursor} {words : List Argument} {refused : Refusals}

/-! ## The words of a command -/

/-- The last try fails at the blanks, or behind them. -/
theorem spaced_of_blank (inner : Rule Body) (h : ¬ Avoids isSpace c.rest) :
    ((do spaces; argument inner) c).result = (argument inner (c.skipWhile isSpace)).result ∧
      ((do spaces; argument inner) c).refusals =
        (argument inner (c.skipWhile isSpace)).refusals := by
  have hne : c.rest.takeWhile isSpace ≠ [] := by
    obtain ⟨ch, more, hrest, hch⟩ := exists_cons_of_not_avoids h
    rw [hrest, List.takeWhile_cons, if_pos hch]
    exact List.cons_ne_nil _ _
  have hspaces : (spaces c).result = some ((), c.skipWhile isSpace) := by
    rw [result_spaces, if_neg hne]
  refine ⟨by rw [result_bind, hspaces]; rfl, ?_⟩
  rw [refusals_bind_of_some hspaces]
  exact Refusals.none_merge _

theorem spaced_of_no_blank (h : Avoids isSpace c.rest) :
    ((do spaces; argument inner) c).refusals = .none :=
  refusals_bind_of_none (refuses_spaces h c rfl)

theorem not_avoids_of_spaced {a : Argument}
    (h : ((do spaces; argument inner) c).result = some (a, last)) : ¬ Avoids isSpace c.rest := by
  intro havoids
  rw [Refuses.bind (refuses_spaces havoids) c rfl] at h
  cases h

theorem advances_spaced (horderly : Orderly inner) : Advances (do spaces; argument inner) :=
  Advances.bind advances_spaces (fun _ => orderly_argument horderly)

/-- Words start with a blank, so a delimiter stands wherever they can start. -/
theorem delimited_of_words (h : Repeated (do spaces; argument inner) c words last refused)
    (hlast : Delimited last.rest) : Delimited c.rest := by
  cases h with
  | stop _ => exact hlast
  | step hword _ => exact delimited_of_not_avoids (not_avoids_of_spaced hword)

/-- A word before a delimiter was refused nothing beyond its end. -/
theorem offset_spaced_le (hinner : StopsLooking inner) (horderly : Orderly inner) {a : Argument}
    (h : ((do spaces; argument inner) c).result = some (a, last)) (hlast : Delimited last.rest) :
    ((do spaces; argument inner) c).refusals.offset ≤ last.offset := by
  have hlt := offset_spaced_lt hinner horderly h (fun _ => hlast)
  have hone := Bool.toNat_le a.isNumber
  omega

/-- Words before something that no word starts with were refused nothing beyond the blanks. -/
theorem words_stop (hinner : StopsLooking inner) (horderly : Orderly inner)
    (h : Repeated (do spaces; argument inner) c words last refused) (hlast : Stops last.rest) :
    refused.offset ≤ (last.skipWhile isSpace).offset := by
  induction h with
  | @stop c hnone =>
    by_cases hblank : Avoids isSpace c.rest
    · rw [spaced_of_no_blank hblank]
      exact Nat.zero_le _
    · rw [(spaced_of_blank inner hblank).2]
      exact offset_argument_le hlast.avoids_bodyStart inner
  | @step c mid last a words refused hword hmore ih =>
    have hle := offset_spaced_le hinner horderly hword (delimited_of_words hmore hlast.delimited)
    have hforward := hmore.forward (orderly_spaced horderly)
    have hskip := offset_le_skipWhile isSpace last
    rw [Refusals.offset_merge]
    exact Nat.max_le.mpr ⟨hle.trans (hforward.trans hskip), ih hlast⟩

/-- Without a blank behind them, words were refused nothing from their end on, unless the last one
is a number. -/
theorem words_lt (hinner : StopsLooking inner) (horderly : Orderly inner)
    (h : Repeated (do spaces; argument inner) c words last refused)
    (hblank : Avoids isSpace last.rest) (hnumber : words.getLast?.any Argument.isNumber = false)
    (hpos : 0 < c.offset) : refused.offset < last.offset := by
  induction h with
  | @stop c hnone =>
    rw [spaced_of_no_blank hblank]
    exact hpos
  | @step c mid last a words refused hword hmore ih =>
    have hlt := (advances_spaced horderly).lt hword
    rw [Refusals.offset_merge]
    cases hmore with
    | stop hnone =>
      -- this is the last word
      have hlast := offset_spaced_lt hinner horderly hword (fun h => by
        rw [List.getLast?_singleton, Option.any_some, h] at hnumber
        cases hnumber)
      rw [List.getLast?_singleton, Option.any_some] at hnumber
      rw [hnumber] at hlast
      exact Nat.max_lt.mpr ⟨hlast, ih hblank rfl (by omega)⟩
    | @step _ next _ a' words' refused' hword' hmore' =>
      have hle := offset_spaced_le hinner horderly hword
        (delimited_of_not_avoids (not_avoids_of_spaced hword'))
      have hlt' := (advances_spaced horderly).lt hword'
      have hforward := hmore'.forward (orderly_spaced horderly)
      rw [List.getLast?_cons_cons] at hnumber
      exact Nat.max_lt.mpr ⟨hle.trans_lt (hlt'.trans_le hforward), ih hblank hnumber (by omega)⟩

/-- Behind a last word that is a number one more digit was tried. -/
theorem words_reach_number (horderly : Orderly inner)
    (h : Repeated (do spaces; argument inner) c words last refused)
    (hnumber : words.getLast?.any Argument.isNumber = true) : refused.Reaches last.offset := by
  have hspaced := orderly_spaced horderly
  induction h with
  | stop _ => cases hnumber
  | @step c mid last a words refused hword hmore ih =>
    cases hmore with
    | stop hnone =>
      rw [List.getLast?_singleton, Option.any_some] at hnumber
      exact .merge_left (reaches_spaced horderly hword hnumber) (hspaced.named _)
    | step hword' hmore' =>
      rw [List.getLast?_cons_cons] at hnumber
      exact .merge_right (hspaced.named c) (ih hnumber)

/-- Behind blanks one more word was tried. -/
theorem words_reach_blank (horderly : Orderly inner)
    (h : Repeated (do spaces; argument inner) c words last refused)
    (hblank : ¬ Avoids isSpace last.rest) :
    refused.Reaches (last.skipWhile isSpace).offset := by
  induction h with
  | @stop c hnone =>
    obtain ⟨hresult, hrefused⟩ := spaced_of_blank inner hblank
    rw [hrefused]
    exact explains_argument horderly _ (hresult.symm.trans hnone)
  | step _ _ ih => exact .merge_right ((orderly_spaced horderly).named _) (ih hblank)

theorem words_unreported_iff (horderly : Orderly inner)
    (h : Repeated (do spaces; argument inner) c words last refused) :
    refused.expected = [] ↔ words.all Argument.isLong = true ∧ Avoids isSpace last.rest := by
  have hspaced := orderly_spaced horderly
  induction h with
  | @stop c hnone =>
    by_cases hblank : Avoids isSpace c.rest
    · rw [spaced_of_no_blank hblank]
      exact iff_of_true rfl ⟨rfl, hblank⟩
    · have hreaches := words_reach_blank horderly (.stop hnone) hblank
      exact iff_of_false hreaches.expected (fun h => hblank h.2)
  | @step c mid last a words refused hword hmore ih =>
    rw [Refusals.expected_merge_eq_nil_iff (hspaced.named c) (hmore.named hspaced),
      spaced_unreported_iff horderly hword, List.all_cons, Bool.and_eq_true, and_assoc]
    exact and_congr_right (fun _ => ih)

/-- Something was refused behind the words and their blanks exactly if there is a blank, or the last
word is a number. -/
theorem words_reach_iff (hinner : StopsLooking inner) (horderly : Orderly inner)
    (h : Repeated (do spaces; argument inner) c words last refused) (hpos : 0 < c.offset) :
    (last.skipWhile isSpace).offset ≤ refused.offset ↔
      ¬ Avoids isSpace last.rest ∨
      words.getLast?.any Argument.isNumber = true ∧ Avoids isSpace last.rest := by
  by_cases hblank : Avoids isSpace last.rest
  · rw [skipWhile_of_avoids hblank]
    cases hnumber : words.getLast?.any Argument.isNumber with
    | true => exact iff_of_true (words_reach_number horderly h hnumber).offset (.inr ⟨rfl, hblank⟩)
    | false =>
      have hlt := words_lt hinner horderly h hblank hnumber hpos
      refine iff_of_false (Nat.not_le.mpr hlt) ?_
      rintro (hspace | ⟨hlast, -⟩)
      · exact hspace hblank
      · exact Bool.false_ne_true hlast
  · exact iff_of_true (words_reach_blank horderly h hblank).offset (.inl hblank)

/-- Something was refused behind a lone expression and its blanks exactly if it is a number without
a blank behind it. -/
theorem expr_reach_iff (hinner : StopsLooking inner) (horderly : Orderly inner) {e : Expr}
    (h : (expr inner c).result = some (e, last)) :
    (last.skipWhile isSpace).offset ≤ (expr inner c).refusals.offset ↔
      e.isNumber = true ∧ Avoids isSpace last.rest := by
  have hskip := offset_le_skipWhile isSpace last
  cases hnumber : e.isNumber with
  | false =>
    have hlt := offset_expr_lt hinner horderly h (fun hlast => by
      rw [hnumber] at hlast
      cases hlast)
    rw [hnumber] at hlt
    exact iff_of_false (Nat.not_le.mpr (hlt.trans_le hskip)) (fun h => Bool.false_ne_true h.1)
  | true =>
    by_cases hblank : Avoids isSpace last.rest
    · rw [skipWhile_of_avoids hblank]
      exact iff_of_true (reaches_expr horderly h hnumber).offset ⟨rfl, hblank⟩
    · have hlt := offset_expr_lt hinner horderly h (fun _ => delimited_of_not_avoids hblank)
      have hbeyond := offset_lt_skipWhile hblank
      rw [hnumber, Bool.toNat_true] at hlt
      exact iff_of_false (Nat.not_le.mpr ((Nat.le_of_lt_succ hlt).trans_lt hbeyond))
        (fun h => hblank h.2)

/-! ## Bodies -/

/-- How a body came to be read: as a command, or else as an expression behind which no name was
found. -/
inductive BodyAt (inner : Rule Body) (c next : Cursor) (refused : Refusals) : Body → Prop
  | command {name : String} {mid : Cursor} {words : List Argument} : c.offset < mid.offset →
      Repeated (do spaces; argument inner) mid words next refused →
      BodyAt inner c next refused (.command name words)
  | expr {e : Expr} : (Grammar.expr inner c).result = some (e, next) →
      refused = Refusals.merge ⟨c.offset, [.identifier]⟩ (Grammar.expr inner c).refusals →
      BodyAt inner c next refused (.expr e)

theorem body_eq_some (horderly : Orderly inner) {b : Body} {next : Cursor}
    (h : (bodyOver inner c).result = some (b, next)) :
    BodyAt inner c next (bodyOver inner c).refusals b := by
  rw [bodyOver, result_orElse, Option.or_eq_some_iff] at h
  rcases h with h | ⟨hnone, h⟩
  · rw [bodyOver, refusals_orElse_of_some h]
    obtain ⟨name, mid, hname, h⟩ := bind_eq_some.mp h
    obtain ⟨words, last, hwords, h⟩ := bind_eq_some.mp h
    obtain ⟨rfl, rfl⟩ := pure_eq_some.mp h
    have hrepeated :=
      repeated_of_many (orderly_spaced horderly) (advances_spaced horderly) hwords
    rw [command, refusals_bind_of_some hname, refusals_bind_of_some hwords,
      (terminal_identifier.advances hname).2.2, Refusals.none_merge]
    rw [← Refusals.merge_none (many _ mid).refusals] at hrepeated
    exact .command (terminal_identifier.takes.lt hname) hrepeated
  · obtain ⟨e, he, rfl⟩ := map_eq_some.mp h
    have hname : (identifier c).result = none :=
      bind_eq_none (fun _ => Total.bind (total_many _) (fun _ => total_pure _)) hnone
    refine .expr he ?_
    rw [bodyOver, refusals_orElse_of_none hnone, refusals_map, command,
      refusals_bind_of_none hname, terminal_identifier.refusals_of_none hname]

theorem stopsLooking_bodyOver (hinner : StopsLooking inner) (horderly : Orderly inner) :
    StopsLooking (bodyOver inner) := by
  intro c b next h hstops
  cases body_eq_some horderly h with
  | command _ hwords => exact words_stop hinner horderly hwords hstops
  | @expr e he hrefused =>
    have hlt := (advances_expr horderly).lt he
    have hexpr := offset_expr_lt hinner horderly he (fun _ => hstops.delimited)
    have hone := Bool.toNat_le e.isNumber
    have hskip := offset_le_skipWhile isSpace next
    rw [hrefused, Refusals.offset_merge]
    exact Nat.max_le.mpr ⟨hlt.le.trans hskip, by omega⟩

end Inner

theorem stopsLooking_bodyWithin (n : Nat) : StopsLooking (bodyWithin n) := by
  induction n with
  | zero =>
    intro c b next h
    cases h
  | succ n ih => exact stopsLooking_bodyOver ih (orderly_bodyWithin n)

section Within

variable {n : Nat} {c next : Cursor} {b : Body}

/-- A body was refused nothing at all exactly if it is a command that has no words but flags with
two dashes, and no blank behind it. -/
theorem body_unreported_iff (h : (bodyWithin n c).result = some (b, next)) :
    (bodyWithin n c).refusals.expected = [] ↔
      b.hasOnlyLongFlags = true ∧ Avoids isSpace next.rest := by
  cases n with
  | zero => cases h
  | succ n =>
    have horderly := orderly_bodyWithin n
    show (bodyOver (bodyWithin n) c).refusals.expected = [] ↔ _
    cases body_eq_some horderly h with
    | command _ hwords => exact words_unreported_iff horderly hwords
    | expr _ hrefused =>
      have hreaches := (Refusals.reaches_singleton c.offset .identifier).merge_left
        ((orderly_expr horderly).named c)
      rw [← hrefused] at hreaches
      exact iff_of_false hreaches.expected (fun h => Bool.false_ne_true h.1)

/-- Something was refused behind a body and its blanks exactly if the body is a command before a
blank, or ends in a number without a blank behind it. -/
theorem body_reaches_iff (h : (bodyWithin n c).result = some (b, next)) :
    (next.skipWhile isSpace).offset ≤ (bodyWithin n c).refusals.offset ↔
      b.isCommand = true ∧ ¬ Avoids isSpace next.rest ∨
      b.endsInNumber = true ∧ Avoids isSpace next.rest := by
  cases n with
  | zero => cases h
  | succ n =>
    have horderly := orderly_bodyWithin n
    have hlooking := stopsLooking_bodyWithin n
    show _ ≤ (bodyOver (bodyWithin n) c).refusals.offset ↔ _
    cases body_eq_some horderly h with
    | command hpos hwords =>
      have hreach := words_reach_iff hlooking horderly hwords (Nat.zero_lt_of_lt hpos)
      simpa only [Body.isCommand, Body.endsInNumber, true_and] using hreach
    | @expr e he hrefused =>
      -- the name that was not found lies before the expression
      have hlt := (advances_expr horderly).lt he
      have hskip := offset_le_skipWhile isSpace next
      have hreach := expr_reach_iff hlooking horderly he
      have hmax : ∀ k, (next.skipWhile isSpace).offset ≤ max c.offset k ↔
          (next.skipWhile isSpace).offset ≤ k := by omega
      rw [hrefused, Refusals.offset_merge, hmax]
      simpa only [Body.isCommand, Body.endsInNumber, Bool.false_eq_true, false_and, false_or]
        using hreach

end Within

end CommandShell.Grammar
