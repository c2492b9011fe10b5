/-
# CommandShell.Proofs.Grammar.Lookahead -- how far a match has looked ahead

A rule that matches has been refused terminals on its way. Here it is said how far ahead of its
match they can lie. Most words end in a character behind which nothing more was tried, so all that
they were refused lies before their end (`Looks 0`). Behind a number one more digit was tried, and
before a delimiter nothing further (`Looks 1`). A command that ends before a blank has tried one
more word behind the blanks; without a blank it has tried nothing behind its last word.

From this and from the other direction, `Ends` and `Explains`, follows what a body that matched says
about the place behind it.
-/
import CommandShell.Proofs.Grammar.Refusals

namespace CommandShell.Grammar

open Rule
open Decimal (isDigit)

namespace Rule

variable {α β : Type} {p q : Rule α} {f : α → Rule β} {c : Cursor} {k : Nat}

/-! ## Refusals up to an offset -/

theorem map_eq_some {g : α → β} {b : β} {next : Cursor} :
    ((g <$> p) c).result = some (b, next) ↔ ∃ a, (p c).result = some (a, next) ∧ g a = b := by
  rw [result_map, Option.map_eq_some_iff]
  constructor
  · rintro ⟨⟨a, last⟩, h, heq⟩
    cases heq
    exact ⟨a, h, rfl⟩
  · rintro ⟨a, h, rfl⟩
    exact ⟨(a, next), h, rfl⟩

theorem Terminal.offset_le {e : Expected} (h : Terminal p e) (c : Cursor) :
    (p c).refusals.offset ≤ c.offset := by
  rcases hr : (p c).result with _ | ⟨a, next⟩
  · rw [h.refusals_of_none hr]
  · rw [(h.advances hr).2.2]
    exact Nat.zero_le _

theorem offset_bind_le (hp : (p c).refusals.offset ≤ k)
    (hf : ∀ a next, (p c).result = some (a, next) → (f a next).refusals.offset ≤ k) :
    ((p >>= f) c).refusals.offset ≤ k := by
  rcases hr : (p c).result with _ | ⟨a, next⟩
  · rwa [refusals_bind_of_none hr]
  · rw [refusals_bind_of_some hr, Refusals.offset_merge]
    exact Nat.max_le.mpr ⟨hp, hf a next hr⟩

theorem offset_orElse_le (hp : (p c).refusals.offset ≤ k) (hq : (q c).refusals.offset ≤ k) :
    (orElse p q c).refusals.offset ≤ k := by
  rcases hr : (p c).result with _ | r
  · rw [refusals_orElse_of_none hr, Refusals.offset_merge]
    exact Nat.max_le.mpr ⟨hp, hq⟩
  · rwa [refusals_orElse_of_some hr]

theorem offset_orElse_lt (hr : (p c).result = none) (hp : (p c).refusals.offset < k)
    (hq : (q c).refusals.offset < k) : (orElse p q c).refusals.offset < k := by
  rw [refusals_orElse_of_none hr, Refusals.offset_merge]
  exact Nat.max_lt.mpr ⟨hp, hq⟩

/-- A rule that starts with a mark is refused where it starts if the mark does not match. -/
theorem offset_mark_bind_le {m : Mark} {f : Unit → Rule β} (h : (mark m c).result = none) :
    ((mark m >>= f) c).refusals.offset ≤ c.offset := by
  rw [refusals_bind_of_none h]
  exact (terminal_mark m).offset_le c

theorem offset_of_mark {m : Mark} {next : Cursor} (h : (mark m c).result = some ((), next)) :
    next.offset = c.offset + m.chars.length := by
  unfold mark at h
  split at h
  · cases h
    rfl
  · cases h

/-- A character that the rule refuses to start with does not stand first where it matches. -/
theorem avoids_of_some {d : Char} {r : α × Cursor} (h : (p c).result = some r)
    (hrefuses : ∀ more, Refuses p (d :: more)) : Avoids (· == d) c.rest := by
  intro ch hch
  cases hd : ch == d with
  | false => exact hd
  | true =>
    obtain ⟨more, hrest⟩ := List.head?_eq_some_iff.mp hch
    rw [eq_of_beq hd] at hrest
    rw [hrefuses more c hrest] at h
    cases h

theorem exists_cons_of_not_avoids {t : Char → Bool} {text : List Char} (h : ¬ Avoids t text) :
    ∃ ch more, text = ch :: more ∧ t ch = true := by
  simp only [Avoids, not_forall, Bool.not_eq_false] at h
  obtain ⟨ch, hch, ht⟩ := h
  obtain ⟨more, htext⟩ := List.head?_eq_some_iff.mp hch
  exact ⟨ch, more, htext, ht⟩

/-! ## Looking ahead -/

/-- No condition on what follows. -/
def Anything (_ : List Char) : Prop := True

/-- Where the rule matches and a text of the given kind follows, nothing was refused from the given
number of characters on behind the match. -/
def Looks (n : Nat) (F : List Char → Prop) (p : Rule α) : Prop :=
  ∀ c a next, (p c).result = some (a, next) → F next.rest →
    (p c).refusals.offset < next.offset + n

section Looks

variable {n : Nat} {F : List Char → Prop}

theorem Looks.lt (hp : Looks n F p) {a : α} {next : Cursor} (h : (p c).result = some (a, next))
    (hF : F next.rest) : (p c).refusals.offset < next.offset + n :=
  hp c a next h hF

theorem Terminal.looks {e : Expected} (h : Terminal p e) : Looks n F p := by
  intro c a next hr _
  obtain ⟨hlt, -, hnone⟩ := h.advances hr
  rw [hnone]
  exact (Nat.zero_le _).trans_lt (hlt.trans_le (Nat.le_add_right _ n))

theorem looks_run (t : Char → Bool) (e : Expected) : Looks 1 F (run t e) := by
  intro c a next h _
  cases h
  exact Nat.lt_succ_self _

theorem Looks.bind (hp : Looks n Anything p) (hf : ∀ a, Looks n F (f a))
    (horderly : ∀ a, Orderly (f a)) : Looks n F (p >>= f) := by
  intro c b next h hF
  obtain ⟨a, mid, ha, hb⟩ := bind_eq_some.mp h
  rw [refusals_bind_of_some ha, Refusals.offset_merge]
  have hle := ((horderly a).forward hb).1
  have hlt := hp.lt ha trivial
  exact Nat.max_lt.mpr ⟨by omega, (hf a).lt hb hF⟩

/-- What is taken afterwards makes good for one character. -/
theorem Looks.bind_advances (hp : Looks (n + 1) Anything p) (hf : ∀ a, Looks n F (f a))
    (hadvances : ∀ a, Advances (f a)) : Looks n F (p >>= f) := by
  intro c b next h hF
  obtain ⟨a, mid, ha, hb⟩ := bind_eq_some.mp h
  rw [refusals_bind_of_some ha, Refusals.offset_merge]
  have hlt := (hadvances a).lt hb
  have hlt' := hp.lt ha trivial
  exact Nat.max_lt.mpr ⟨by omega, (hf a).lt hb hF⟩

theorem Looks.bind_pure (hp : Looks n F p) (g : α → β) :
    Looks n F (p >>= fun a => pure (g a)) := by
  intro c b next h hF
  obtain ⟨a, mid, ha, hb⟩ := bind_eq_some.mp h
  cases hb
  rw [refusals_bind_of_some ha]
  exact (congrArg Refusals.offset (Refusals.merge_none _)).trans_lt (hp.lt ha hF)

theorem Looks.optional (hp : Looks n F p)
    (hfails : ∀ c, (p c).result = none → F c.rest → (p c).refusals.offset < c.offset + n) :
    Looks n F (optional p) := by
  intro c o next h hF
  rw [result_optional] at h
  rw [refusals_optional]
  rcases hr : (p c).result with _ | ⟨a, last⟩
  · rw [hr] at h
    cases h
    exact hfails _ hr hF
  · rw [hr] at h
    cases h
    exact hp.lt hr hF

theorem Looks.orElse (hp : Looks n F p) (hq : Looks n F q)
    (hfails : ∀ c a next, (p c).result = none → (q c).result = some (a, next) → F next.rest →
      (p c).refusals.offset < next.offset + n) : Looks n F (orElse p q) := by
  intro c a next h hF
  rw [result_orElse, Option.or_eq_some_iff] at h
  rcases h with h | ⟨hnone, h⟩
  · rw [refusals_orElse_of_some h]
    exact hp.lt h hF
  · exact offset_orElse_lt hnone (hfails c a next hnone h hF) (hq.lt h hF)

/-- Of two rules that start with marks, the longer mark is tried first. If the second rule takes
nothing that starts with it, the first one is refused where it starts. -/
theorem looks_orElse_mark {long : Mark} {f : Unit → Rule α}
    (hp : Looks n F (mark long >>= f)) (hq : Looks n F q) (hadvances : Advances q)
    (hclash : ∀ more, Refuses q (long.chars ++ more)) :
    Looks n F (orElse (mark long >>= f) q) := by
  refine hp.orElse hq (fun c a next _ h _ => ?_)
  have hnone : (mark long c).result = none := by
    rcases hr : (mark long c).result with _ | ⟨⟨⟩, mid⟩
    · rfl
    · rw [hclash mid.rest c (mark_eq_some hr)] at h
      cases h
  have hle : ((mark long >>= f) c).refusals.offset ≤ c.offset := offset_mark_bind_le hnone
  have hlt := hadvances.lt h
  omega

end Looks

end Rule

/-! ## Words -/

section Words

variable {F : List Char → Prop}

theorem terminal_identifier : Terminal identifier .identifier := terminal_word _ _ _

theorem looks_identifier {n : Nat} : Looks n F identifier := terminal_identifier.looks

theorem looks_quoted : Looks 0 F quoted :=
  (terminal_mark .quote).looks.bind
    (fun _ => (looks_run _ _).bind_advances (fun _ => (terminal_mark .quote).looks.bind_pure _)
      (fun _ => Advances.bind (terminal_mark .quote).takes (fun _ => orderly_pure _)))
    (fun _ => (orderly_run _ _).bind (fun _ => (orderly_mark .quote).bind
      (fun _ => orderly_pure _)))

theorem advances_marked {m : Mark} {β : Type} {f : Unit → Rule β} (hf : Orderly (f ())) :
    Advances (mark m >>= f) :=
  Advances.bind (terminal_mark m).takes (fun _ => hf)

theorem looks_variableName : Looks 0 F variableName := by
  refine looks_orElse_mark ?_ ?_ ?_ ?_
  · exact (terminal_mark _).looks.bind (fun _ => looks_identifier.bind
      (fun _ => (terminal_mark _).looks.bind_pure _) (fun _ => (orderly_mark _).bind
        (fun _ => orderly_pure _))) (fun _ => orderly_identifier.bind (fun _ =>
          (orderly_mark _).bind (fun _ => orderly_pure _)))
  · exact (terminal_mark _).looks.bind (fun _ => looks_identifier) (fun _ => orderly_identifier)
  · exact advances_marked orderly_identifier
  · intro more
    exact (reads_mark .dollar ('\x7b' :: more)).refuses_bind
      (refuses_identifier (avoids_cons.mpr rfl))

theorem looks_flag : Looks 0 F flag := by
  have hname : ∀ long, Orderly (do
      let name ← identifier
      pure (Argument.flag name long)) := fun _ => orderly_identifier.bind (fun _ => orderly_pure _)
  refine looks_orElse_mark ?_ ?_ ?_ ?_
  · exact (terminal_mark _).looks.bind (fun _ => looks_identifier.bind_pure _) (fun _ => hname true)
  · exact (terminal_mark _).looks.bind (fun _ => looks_identifier.bind_pure _)
      (fun _ => hname false)
  · exact advances_marked (hname false)
  · intro more
    exact (reads_mark .dash ('-' :: more)).refuses_bind
      (Refuses.bind (refuses_identifier (avoids_cons.mpr rfl)))

/-! ## Numbers -/

theorem looks_sign : Looks 1 F sign := by
  have hsign := terminal_oneOf isSign .sign
  refine (hsign.looks.optional (fun c hnone _ => ?_)).bind_pure _
  exact Nat.lt_succ_of_le (hsign.offset_le c)

theorem looks_digits : Looks 1 F digits :=
  (terminal_oneOf _ _).looks.bind (fun _ => (looks_run _ _).bind_pure _)
    (fun _ => (orderly_run _ _).bind (fun _ => orderly_pure _))

theorem looks_power : Looks 1 F power :=
  (terminal_oneOf _ _).looks.bind
    (fun _ => looks_sign.bind (fun _ => looks_digits.bind_pure _)
      (fun _ => orderly_digits.bind (fun _ => orderly_pure _)))
    (fun _ => orderly_sign.bind (fun _ => orderly_digits.bind (fun _ => orderly_pure _)))

theorem looks_optional_power : Looks 1 Delimited (optional power) := by
  refine looks_power.optional (fun c _ hrest => ?_)
  have hmark := terminal_oneOf isPowerMark .powerMark
  have hnone : (oneOf isPowerMark .powerMark c).result = none :=
    refuses_oneOf (hrest.avoids rfl) _ c rfl
  rw [power, refusals_bind_of_none hnone]
  exact Nat.lt_succ_of_le (hmark.offset_le c)

theorem looks_float : Looks 1 Delimited float := by
  refine looks_sign.bind (fun _ => looks_digits.bind (fun _ => (terminal_mark _).looks.bind
    (fun _ => looks_digits.bind (fun _ => looks_optional_power.bind_pure _) ?_) ?_) ?_) ?_
  · exact fun _ => orderly_power.optional.bind (fun _ => orderly_pure _)
  · exact fun _ => orderly_digits.bind (fun _ => orderly_power.optional.bind
      (fun _ => orderly_pure _))
  · exact fun _ => (orderly_mark _).bind (fun _ => orderly_digits.bind (fun _ =>
      orderly_power.optional.bind (fun _ => orderly_pure _)))
  · exact fun _ => orderly_digits.bind (fun _ => (orderly_mark _).bind (fun _ =>
      orderly_digits.bind (fun _ => orderly_power.optional.bind (fun _ => orderly_pure _))))

theorem looks_fitting (negative : Bool) (ds : List Char) : Looks 1 F (fitting negative ds) := by
  intro c value next h _
  unfold fitting at h ⊢
  cases hfits : int64? (signed negative (Decimal.valueOf ds)) with
  | some found => exact Nat.succ_pos _
  | none =>
    rw [hfits] at h
    cases h

theorem looks_integer : Looks 1 F integer :=
  looks_sign.bind (fun negative => looks_digits.bind (looks_fitting negative)
    (orderly_fitting negative)) (fun negative => orderly_digits.bind (orderly_fitting negative))

/-- A run of digits before a delimiter is tried as a fraction up to its end. -/
theorem offset_float_lt {c next : Cursor} {value : Int64}
    (h : (integer c).result = some (value, next)) (hnext : Delimited next.rest) :
    (float c).refusals.offset < next.offset + 1 := by
  obtain ⟨negative, c₁, hs, h⟩ := bind_eq_some.mp h
  obtain ⟨ds, c₂, hds, h⟩ := bind_eq_some.mp h
  obtain rfl := fitting_eq_some h
  have hpoint : (mark .point next).result = none :=
    refuses_mark_of_avoids rfl (hnext.avoids rfl) next rfl
  have hsign : (sign c).refusals.offset < c₁.offset + 1 := looks_sign.lt (F := Anything) hs trivial
  have hdigits : (digits c₁).refusals.offset < next.offset + 1 :=
    looks_digits.lt (F := Anything) hds trivial
  have hle := (orderly_digits.forward hds).1
  rw [float, refusals_bind_of_some hs, refusals_bind_of_some hds, Refusals.offset_merge,
    Refusals.offset_merge]
  have hmark : ((mark .point >>= fun _ => digits >>= fun fraction => optional power >>= fun e =>
      pure (Decimal.ofParts negative ds fraction (e.getD 0)).toBinary64) next).refusals.offset ≤
        next.offset := offset_mark_bind_le hpoint
  exact Nat.max_lt.mpr ⟨by omega, Nat.max_lt.mpr ⟨hdigits, Nat.lt_succ_of_le hmark⟩⟩

theorem looks_number : Looks 1 Delimited number := by
  refine Looks.orElse (looks_float.bind_pure _) (looks_integer.bind_pure _) ?_
  intro c e next _ h hnext
  obtain ⟨value, hvalue, rfl⟩ := map_eq_some.mp h
  rw [refusals_map]
  exact offset_float_lt hvalue hnext

end Words

/-! ## Alternatives that fail where they start -/

section Start

variable {c : Cursor}

theorem offset_variableName_le (h : Avoids (· == '$') c.rest) :
    (variableName c).refusals.offset ≤ c.offset :=
  offset_orElse_le (offset_mark_bind_le (refuses_mark_of_avoids rfl h c rfl))
    (offset_mark_bind_le (refuses_mark_of_avoids rfl h c rfl))

theorem offset_substitution_le (h : Avoids (· == '$') c.rest) (inner : Rule Body) :
    (substitution inner c).refusals.offset ≤ c.offset :=
  offset_mark_bind_le (refuses_mark_of_avoids rfl h c rfl)

theorem offset_quoted_le (h : Avoids (· == '"') c.rest) :
    (quoted c).refusals.offset ≤ c.offset :=
  offset_mark_bind_le (refuses_mark_of_avoids rfl h c rfl)

theorem offset_bare_le (c : Cursor) : (bare c).refusals.offset ≤ c.offset :=
  (terminal_word _ _ _).offset_le c

theorem offset_flag_le (h : Avoids (· == '-') c.rest) : (flag c).refusals.offset ≤ c.offset :=
  offset_orElse_le (offset_mark_bind_le (refuses_mark_of_avoids rfl h c rfl))
    (offset_mark_bind_le (refuses_mark_of_avoids rfl h c rfl))

/-- Neither a sign nor a digit. -/
theorem offset_numeral_le {α : Type} {f : Bool → List Char → Rule α}
    (hdigit : Avoids isDigit c.rest) (hsign : Avoids isSign c.rest) :
    ((do let negative ← sign
         let ds ← digits
         f negative ds) c).refusals.offset ≤ c.offset := by
  have hnone : (oneOf isSign .sign c).result = none := refuses_oneOf hsign _ c rfl
  have hresult : (sign c).result = some (false, c) := by
    rw [sign, result_bind, result_optional, hnone]
    rfl
  have hdigits : (oneOf isDigit .digit c).result = none := refuses_oneOf hdigit _ c rfl
  have hfails : (digits c).result = none := refuses_run1 hdigit _ c rfl
  have hs : (sign c).refusals.offset < c.offset + 1 :=
    looks_sign.lt (F := Anything) hresult trivial
  rw [refusals_bind_of_some hresult, refusals_bind_of_none hfails, digits, run1,
    refusals_bind_of_none hdigits, Refusals.offset_merge]
  exact Nat.max_le.mpr ⟨Nat.le_of_lt_succ hs, (terminal_oneOf _ _).offset_le c⟩

theorem offset_number_le (hdigit : Avoids isDigit c.rest) (hsign : Avoids isSign c.rest) :
    (number c).refusals.offset ≤ c.offset := by
  refine offset_orElse_le ?_ ?_
  · rw [refusals_map]
    exact offset_numeral_le hdigit hsign
  · rw [refusals_map]
    exact offset_numeral_le hdigit hsign

/-- What starts no word is refused at once. -/
theorem offset_argument_le (h : Avoids isBodyStart c.rest) (inner : Rule Body) :
    (argument inner c).refusals.offset ≤ c.offset := by
  have hdash : Avoids (· == '-') c.rest :=
    h.mono (fun c hc => by simp [isBodyStart, isSign, eq_of_beq hc])
  have hdollar : Avoids (· == '$') c.rest := h.mono (fun c hc => by simp [isBodyStart, hc])
  have hquote : Avoids (· == '"') c.rest := h.mono (fun c hc => by simp [isBodyStart, hc])
  have hdigit : Avoids isDigit c.rest := h.mono (fun c hc => by simp [isBodyStart, hc])
  have hsign : Avoids isSign c.rest := h.mono (fun c hc => by simp [isBodyStart, hc])
  refine offset_orElse_le (offset_flag_le hdash) ?_
  rw [refusals_map]
  refine offset_orElse_le ?_ (offset_orElse_le ?_ (offset_orElse_le ?_ (offset_orElse_le ?_
    (offset_number_le hdigit hsign))))
  · rw [refusals_map]
    exact offset_variableName_le hdollar
  · rw [refusals_map]
    exact offset_substitution_le hdollar inner
  · rw [refusals_map]
    exact offset_quoted_le hquote
  · rw [refusals_map]
    exact offset_bare_le c

end Start

/-! ## Expressions -/

/-- Whether an expression is a number. -/
def Expr.isNumber : Expr → Bool
  | .integer _ | .float _ => true
  | _ => false

theorem isNumber_of_number {c next : Cursor} {e : Expr}
    (h : (number c).result = some (e, next)) : e.isNumber = true := by
  rw [number, result_orElse, Option.or_eq_some_iff] at h
  rcases h with h | ⟨-, h⟩
  · obtain ⟨value, -, rfl⟩ := map_eq_some.mp h
    rfl
  · obtain ⟨value, -, rfl⟩ := map_eq_some.mp h
    rfl

/-- The words that stand for values without a dollar sign. -/
theorem offset_plain_lt {c next : Cursor} {e : Expr}
    (h : (orElse (Expr.quoted <$> quoted) (orElse (Expr.bare <$> bare) number) c).result =
      some (e, next)) (hlt : c.offset < next.offset)
    (hnext : e.isNumber = true → Delimited next.rest) :
    (orElse (Expr.quoted <$> quoted) (orElse (Expr.bare <$> bare) number) c).refusals.offset <
      next.offset + e.isNumber.toNat := by
  rw [result_orElse, Option.or_eq_some_iff] at h
  rcases h with h | ⟨hquoted, h⟩
  · obtain ⟨raw, hraw, rfl⟩ := map_eq_some.mp h
    rw [refusals_orElse_of_some h, refusals_map]
    exact looks_quoted.lt (F := Anything) hraw trivial
  · have hquote : Avoids (· == '"') c.rest := avoids_of_some h (fun more =>
      Refuses.orElse (Refuses.map (refuses_bare (avoids_cons.mpr rfl)))
        (refuses_number (avoids_cons.mpr rfl) (avoids_cons.mpr rfl)))
    have hbefore := offset_quoted_le hquote
    refine offset_orElse_lt hquoted (by rw [refusals_map]; omega) ?_
    rw [result_orElse, Option.or_eq_some_iff] at h
    rcases h with h | ⟨hbare, h⟩
    · obtain ⟨raw, hraw, rfl⟩ := map_eq_some.mp h
      rw [refusals_orElse_of_some h, refusals_map]
      exact (offset_bare_le c).trans_lt hlt
    · have hnumber := isNumber_of_number h
      have hword := offset_bare_le c
      have hlast := looks_number.lt h (hnext hnumber)
      rw [hnumber]
      exact offset_orElse_lt hbare (by rw [refusals_map]; omega) hlast

/-- A variable is tried up to the character that makes a substitution of it. -/
theorem offset_variableName_paren {c : Cursor} {more : List Char}
    (h : c.rest = '$' :: '(' :: more) : (variableName c).refusals.offset ≤ c.offset + 1 := by
  have hbrace : (mark .openVariable c).result = none := by
    refine refuses_mark (fun hprefix => ?_) c h
    obtain ⟨t, ht⟩ := hprefix
    exact absurd (List.cons.inj (List.cons.inj ht).2).1 (by decide)
  refine offset_orElse_le ((offset_mark_bind_le hbrace).trans (Nat.le_succ _)) ?_
  refine offset_bind_le (((terminal_mark _).offset_le c).trans (Nat.le_succ _)) ?_
  intro _ next hdollar
  have hname := (terminal_word isNameStart isNameRest .identifier).offset_le next
  rw [offset_of_mark hdollar] at hname
  exact hname

/-- A body before something that no word starts with has been refused nothing beyond the blanks
behind it. -/
def StopsLooking (body : Rule Body) : Prop := ∀ c b next, (body c).result = some (b, next) →
  Stops next.rest → (body c).refusals.offset ≤ (next.skipWhile isSpace).offset

section Inner

variable {inner : Rule Body} {c next : Cursor}

theorem looks_substitution {F : List Char → Prop} (hinner : StopsLooking inner) :
    Looks 0 F (substitution inner) := by
  intro c body next h _
  obtain ⟨⟨⟩, c₁, hopen, h⟩ := bind_eq_some.mp h
  obtain ⟨⟨⟩, c₂, hbefore, h⟩ := bind_eq_some.mp h
  obtain ⟨b, c₃, hbody, h⟩ := bind_eq_some.mp h
  obtain ⟨⟨⟩, c₄, hafter, h⟩ := bind_eq_some.mp h
  obtain ⟨⟨⟩, c₅, hclose, h⟩ := bind_eq_some.mp h
  obtain ⟨rfl, rfl⟩ := pure_eq_some.mp h
  have hparen : (c₃.skipWhile isSpace).rest = ')' :: c₅.rest := by
    cases hafter
    exact mark_eq_some hclose
  have hoffset : c₅.offset = (c₃.skipWhile isSpace).offset + 1 := by
    cases hafter
    exact offset_of_mark hclose
  have hstops : Stops c₃.rest := by
    refine ⟨c₃.rest.takeWhile isSpace, ')' :: c₅.rest, ?_, fun d => List.mem_takeWhile_imp, ?_⟩
    · rw [← hparen]
      exact List.takeWhile_append_dropWhile.symm
    · rintro d ⟨⟩
      decide
  have hinside := hinner c₂ b c₃ hbody hstops
  rw [substitution, refusals_bind_of_some hopen, refusals_bind_of_some hbefore,
    refusals_bind_of_some hbody, refusals_bind_of_some hafter, refusals_bind_of_some hclose,
    ((terminal_mark _).advances hopen).2.2, ((terminal_mark _).advances hclose).2.2]
  show ((Refusals.none.merge (Refusals.none.merge ((inner c₂).refusals.merge
    (Refusals.none.merge (Refusals.none.merge Refusals.none)))))).offset < _
  simp only [Refusals.none_merge, Refusals.merge_none]
  omega

theorem advances_number : Advances number := by
  have hdigits : Advances digits := Advances.bind (terminal_oneOf _ _).takes (fun _ =>
    (orderly_run _ _).bind (fun _ => orderly_pure _))
  refine Advances.orElse (Advances.map ?_ _) (Advances.map ?_ _)
  · exact orderly_sign.bind_advances (fun _ => Advances.bind hdigits (fun _ =>
      (orderly_mark _).bind (fun _ => orderly_digits.bind (fun _ =>
        orderly_power.optional.bind (fun _ => orderly_pure _)))))
  · exact orderly_sign.bind_advances (fun _ => Advances.bind hdigits (orderly_fitting _))

theorem advances_expr (hinner : Orderly inner) : Advances (expr inner) := by
  have hname : Advances variableName :=
    Advances.orElse (advances_marked (orderly_identifier.bind (fun _ =>
      (orderly_mark _).bind (fun _ => orderly_pure _)))) (advances_marked orderly_identifier)
  have hsubstitution : Advances (substitution inner) :=
    advances_marked (orderly_skipSpaces.bind (fun _ => hinner.bind (fun _ =>
      orderly_skipSpaces.bind (fun _ => (orderly_mark _).bind (fun _ => orderly_pure _)))))
  have hquoted : Advances quoted := advances_marked ((orderly_run _ _).bind (fun _ =>
    (orderly_mark _).bind (fun _ => orderly_pure _)))
  have hbare : Advances bare := (terminal_word _ _ _).takes
  exact Advances.orElse (Advances.map hname _) (Advances.orElse (Advances.map hsubstitution _)
    (Advances.orElse (Advances.map hquoted _) (Advances.orElse (Advances.map hbare _)
      advances_number)))

/-- A variable is tried no further than a substitution reaches. -/
theorem offset_variableName_lt_of_substitution (horderly : Orderly inner) {b : Body}
    (h : (substitution inner c).result = some (b, next)) :
    (variableName c).refusals.offset < next.offset := by
  obtain ⟨⟨⟩, c₁, hopen, h⟩ := bind_eq_some.mp h
  have hrest : Orderly (do
      skipSpaces
      let b ← inner
      skipSpaces
      mark .closeSubstitution
      return b) :=
    orderly_skipSpaces.bind (fun _ => horderly.bind (fun _ => orderly_skipSpaces.bind (fun _ =>
      (orderly_mark _).bind (fun _ => orderly_pure _))))
  have hbefore := offset_variableName_paren (mark_eq_some hopen)
  have hbehind := (hrest.forward h).1
  have hmark := offset_of_mark hopen
  simp only [Mark.chars, List.length_cons, List.length_nil] at hmark
  omega

theorem offset_expr_lt (hinner : StopsLooking inner) (horderly : Orderly inner) {e : Expr}
    (h : (expr inner c).result = some (e, next)) (hnext : e.isNumber = true → Delimited next.rest) :
    (expr inner c).refusals.offset < next.offset + e.isNumber.toNat := by
  have hlt := (advances_expr horderly).lt h
  rw [expr, result_orElse, Option.or_eq_some_iff] at h
  rcases h with h | ⟨hvariable, h⟩
  · obtain ⟨name, hname, rfl⟩ := map_eq_some.mp h
    rw [expr, refusals_orElse_of_some h, refusals_map]
    exact looks_variableName.lt (F := Anything) hname trivial
  rw [result_orElse, Option.or_eq_some_iff] at h
  rcases h with h | ⟨hsubstitution, h⟩
  · obtain ⟨b, hb, rfl⟩ := map_eq_some.mp h
    refine offset_orElse_lt hvariable ?_ ?_
    · rw [refusals_map]
      exact offset_variableName_lt_of_substitution horderly hb
    · rw [refusals_orElse_of_some h, refusals_map]
      exact (looks_substitution hinner).lt (F := Anything) hb trivial
  · -- what neither is a variable nor a substitution does not start with a dollar sign
    have hdollar : Avoids (· == '$') c.rest := avoids_of_some h (fun more =>
      Refuses.orElse (Refuses.map (refuses_quoted (avoids_cons.mpr rfl)))
        (Refuses.orElse (Refuses.map (refuses_bare (avoids_cons.mpr rfl)))
          (refuses_number (avoids_cons.mpr rfl) (avoids_cons.mpr rfl))))
    have hvar := offset_variableName_le hdollar
    have hsub := offset_substitution_le hdollar inner
    exact offset_orElse_lt hvariable (by rw [refusals_map]; omega)
      (offset_orElse_lt hsubstitution (by rw [refusals_map]; omega)
        (offset_plain_lt h hlt hnext))

/-- Behind a number that is read as an expression one more digit was tried. -/
theorem reaches_expr (horderly : Orderly inner) {e : Expr}
    (h : (expr inner c).result = some (e, next)) (hnumber : e.isNumber = true) :
    (expr inner c).refusals.Reaches next.offset := by
  rw [expr, result_orElse, Option.or_eq_some_iff] at h
  rcases h with h | ⟨hvariable, h⟩
  · obtain ⟨name, -, rfl⟩ := map_eq_some.mp h
    cases hnumber
  rw [result_orElse, Option.or_eq_some_iff] at h
  rcases h with h | ⟨hsubstitution, h⟩
  · obtain ⟨b, -, rfl⟩ := map_eq_some.mp h
    cases hnumber
  rw [result_orElse, Option.or_eq_some_iff] at h
  rcases h with h | ⟨hquoted, h⟩
  · obtain ⟨raw, -, rfl⟩ := map_eq_some.mp h
    cases hnumber
  rw [result_orElse, Option.or_eq_some_iff] at h
  rcases h with h | ⟨hbare, h⟩
  · obtain ⟨raw, -, rfl⟩ := map_eq_some.mp h
    cases hnumber
  rw [expr, refusals_orElse_of_none hvariable, refusals_orElse_of_none hsubstitution,
    refusals_orElse_of_none hquoted, refusals_orElse_of_none hbare]
  exact .merge_right ((orderly_variableName.map _).named c)
    (.merge_right (((orderly_substitution horderly).map _).named c)
      (.merge_right ((orderly_quoted.map _).named c)
        (.merge_right ((orderly_bare.map _).named c) (ends_number.reaches h))))

/-! ## Words of a command -/

/-- A dash that starts an expression starts a number. -/
theorem number_of_dash {e : Expr} {more : List Char} (hc : c.rest = '-' :: more)
    (h : (expr inner c).result = some (e, next)) : (number c).result = some (e, next) := by
  have hdollar : Avoids (· == '$') ('-' :: more) := avoids_cons.mpr rfl
  have hquote : Avoids (· == '"') ('-' :: more) := avoids_cons.mpr rfl
  have hbare : Avoids isBareStart ('-' :: more) := avoids_cons.mpr rfl
  rw [expr, result_orElse, Refuses.map (refuses_variableName hdollar) c hc, result_orElse,
    Refuses.map (refuses_substitution hdollar inner) c hc, result_orElse,
    Refuses.map (refuses_quoted hquote) c hc, result_orElse,
    Refuses.map (refuses_bare hbare) c hc] at h
  exact h

theorem refuses_number_dashes (more : List Char) : Refuses number ('-' :: '-' :: more) := by
  have hsign : Reads sign ['-'] true ('-' :: more) :=
    Reads.bind_pure (Reads.optional (reads_oneOf rfl _ _)) rfl
  have hdigits : Refuses digits ('-' :: more) := refuses_run1 (avoids_cons.mpr rfl) _
  exact Refuses.orElse (Refuses.map (hsign.refuses_bind (Refuses.bind hdigits)))
    (Refuses.map (hsign.refuses_bind (Refuses.bind hdigits)))

/-- A flag is tried for one character beyond the dash of a number. -/
theorem offset_flag_lt (horderly : Orderly inner) {e : Expr}
    (h : (expr inner c).result = some (e, next)) :
    (flag c).refusals.offset < next.offset + e.isNumber.toNat := by
  have hlt := (advances_expr horderly).lt h
  by_cases hdash : Avoids (· == '-') c.rest
  · have hle := offset_flag_le hdash
    omega
  · obtain ⟨d, more, hc, hd⟩ := exists_cons_of_not_avoids hdash
    rw [eq_of_beq hd] at hc
    have hnumber := number_of_dash hc h
    have hlong : (mark .doubleDash c).result = none := by
      rcases hr : (mark .doubleDash c).result with _ | ⟨⟨⟩, mid⟩
      · rfl
      · rw [refuses_number_dashes mid.rest c (mark_eq_some hr)] at hnumber
        cases hnumber
    have hle : (flag c).refusals.offset ≤ c.offset + 1 := by
      refine offset_orElse_le ((offset_mark_bind_le hlong).trans (Nat.le_succ _)) ?_
      refine offset_bind_le (((terminal_mark _).offset_le c).trans (Nat.le_succ _)) ?_
      intro _ mid hmark
      refine offset_bind_le ?_ (fun _ _ _ => Nat.zero_le _)
      rw [show c.offset + 1 = mid.offset from (offset_of_mark hmark).symm]
      exact (terminal_word _ _ _).offset_le mid
    rw [isNumber_of_number hnumber, Bool.toNat_true]
    omega

/-- Whether a word of a command is a number. -/
def Argument.isNumber : Argument → Bool
  | .flag _ _ => false
  | .expr e => e.isNumber

/-- Whether a word of a command is a flag with two dashes. -/
def Argument.isLong : Argument → Bool
  | .flag _ long => long
  | .expr _ => false

theorem orderly_markedName (m : Mark) (g : String → Argument) :
    Orderly (mark m >>= fun _ => identifier >>= fun name => pure (g name)) :=
  (orderly_mark m).bind (fun _ => orderly_identifier.bind (fun _ => orderly_pure _))

theorem explains_markedName (m : Mark) (g : String → Argument) :
    Explains (mark m >>= fun _ => identifier >>= fun name => pure (g name)) :=
  Explains.bind (terminal_mark m).explains (orderly_mark m) (fun _ =>
    Explains.bind terminal_identifier.explains orderly_identifier
      (fun _ => (total_pure _).explains))

theorem explains_flag : Explains flag :=
  Explains.orElse (orderly_markedName _ _) (explains_markedName _ _)

/-- A flag with one dash was tried with two dashes before; a flag with two dashes was refused
nothing. -/
theorem flag_eq_some {a : Argument} (h : (flag c).result = some (a, next)) :
    a.isNumber = false ∧ ((flag c).refusals.expected = [] ↔ a.isLong = true) := by
  rw [flag, result_orElse, Option.or_eq_some_iff] at h
  rcases h with h | ⟨hnone, h⟩
  · rw [flag, refusals_orElse_of_some h]
    obtain ⟨⟨⟩, mid, hmark, h⟩ := bind_eq_some.mp h
    obtain ⟨name, last, hname, h⟩ := bind_eq_some.mp h
    cases h
    rw [refusals_bind_of_some hmark, ((terminal_mark _).advances hmark).2.2,
      refusals_bind_of_some hname, (terminal_identifier.advances hname).2.2]
    exact ⟨rfl, iff_of_true rfl rfl⟩
  · have hreaches : (flag c).refusals.Reaches c.offset := by
      rw [flag, refusals_orElse_of_none hnone]
      exact .merge_left (explains_markedName _ _ c hnone) ((orderly_markedName _ _).named c)
    obtain ⟨⟨⟩, mid, -, h⟩ := bind_eq_some.mp h
    obtain ⟨name, last, -, h⟩ := bind_eq_some.mp h
    cases h
    exact ⟨rfl, iff_of_false hreaches.expected Bool.false_ne_true⟩

/-- How a word behind blanks came to be read: as a flag, or else as an expression. -/
inductive SpacedWordAt (inner : Rule Body) (c next : Cursor) (refused : Refusals) : Argument → Prop
  | flag {a : Argument} {mid : Cursor} : c.offset < mid.offset →
      (flag mid).result = some (a, next) → refused = (flag mid).refusals →
      SpacedWordAt inner c next refused a
  | expr {e : Expr} {mid : Cursor} : c.offset < mid.offset → (Grammar.flag mid).result = none →
      (Grammar.expr inner mid).result = some (e, next) →
      refused = (Grammar.flag mid).refusals.merge (Grammar.expr inner mid).refusals →
      SpacedWordAt inner c next refused (.expr e)

theorem spaced_eq_some {a : Argument}
    (h : ((do spaces; argument inner) c).result = some (a, next)) :
    SpacedWordAt inner c next ((do spaces; argument inner) c).refusals a := by
  obtain ⟨⟨⟩, mid, hspaces, h⟩ := bind_eq_some.mp h
  have hlt := advances_spaces.lt hspaces
  have hrefused : ((do spaces; argument inner) c).refusals = (argument inner mid).refusals := by
    rw [refusals_bind_of_some hspaces]
    exact Refusals.none_merge _
  rw [argument, result_orElse, Option.or_eq_some_iff] at h
  rcases h with h | ⟨hnone, h⟩
  · exact .flag hlt h (by rw [hrefused, argument, refusals_orElse_of_some h])
  · obtain ⟨e, he, rfl⟩ := map_eq_some.mp h
    exact .expr hlt hnone he (by
      rw [hrefused, argument, refusals_orElse_of_none hnone, refusals_map])

theorem offset_spaced_lt (hinner : StopsLooking inner) (horderly : Orderly inner) {a : Argument}
    (h : ((do spaces; argument inner) c).result = some (a, next))
    (hnext : a.isNumber = true → Delimited next.rest) :
    ((do spaces; argument inner) c).refusals.offset < next.offset + a.isNumber.toNat := by
  cases spaced_eq_some h with
  | flag _ hflag hrefused =>
    rw [hrefused]
    exact (looks_flag.lt (F := Anything) hflag trivial).trans_le (Nat.le_add_right _ _)
  | expr _ _ he hrefused =>
    rw [hrefused, Refusals.offset_merge]
    exact Nat.max_lt.mpr ⟨offset_flag_lt horderly he, offset_expr_lt hinner horderly he hnext⟩

theorem reaches_spaced (horderly : Orderly inner) {a : Argument}
    (h : ((do spaces; argument inner) c).result = some (a, next)) (hnumber : a.isNumber = true) :
    ((do spaces; argument inner) c).refusals.Reaches next.offset := by
  cases spaced_eq_some h with
  | flag _ hflag _ =>
    rw [(flag_eq_some hflag).1] at hnumber
    cases hnumber
  | expr _ _ he hrefused =>
    rw [hrefused]
    exact .merge_right (orderly_flag.named _) (reaches_expr horderly he hnumber)

/-- A word was refused nothing only if it is a flag with two dashes. -/
theorem spaced_unreported_iff (horderly : Orderly inner) {a : Argument}
    (h : ((do spaces; argument inner) c).result = some (a, next)) :
    ((do spaces; argument inner) c).refusals.expected = [] ↔ a.isLong = true := by
  cases spaced_eq_some h with
  | flag _ hflag hrefused =>
    rw [hrefused]
    exact (flag_eq_some hflag).2
  | expr _ hnone _ hrefused =>
    rw [hrefused, Refusals.expected_merge_eq_nil_iff (orderly_flag.named _)
      ((orderly_expr horderly).named _)]
    exact iff_of_false (fun hnil => (explains_flag _ hnone).expected hnil.1) Bool.false_ne_true

end Inner

end CommandShell.Grammar
