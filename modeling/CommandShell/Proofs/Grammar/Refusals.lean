/-
# CommandShell.Proofs.Grammar.Refusals -- where rules get stuck

A rule also says where it got stuck: the furthest offset at which a terminal was refused, and which
terminals were. This module has the bookkeeping of it, combinator by combinator. Refusals lie within
the text and name something (`Orderly`). A rule that fails has refused something where it started or
behind that (`Explains`), and a rule that ends in a run of characters has refused one more of them
where it ends (`Ends`). A repetition stops where its rule fails, so what that refuses is refused by
the repetition (`Repeated`).
-/
import CommandShell.Proofs.Grammar.Completeness

namespace CommandShell.Grammar

/-! ## Refusals -/

namespace Refusals

variable {a b : Refusals} {k : Nat}

/-- Something is named, unless nothing was refused at all. -/
def Named (r : Refusals) : Prop := r.expected = [] → r.offset = 0

/-- Something was refused at the given offset or behind it. -/
structure Reaches (r : Refusals) (k : Nat) : Prop where
  offset : k ≤ r.offset
  expected : r.expected ≠ []

theorem named_none : none.Named := fun _ => rfl

theorem Reaches.named (h : a.Reaches k) : a.Named := fun hnil => absurd hnil h.expected

theorem Reaches.mono {j : Nat} (h : a.Reaches k) (hjk : j ≤ k) : a.Reaches j :=
  ⟨hjk.trans h.offset, h.expected⟩

theorem reaches_singleton (k : Nat) (e : Expected) : Reaches ⟨k, [e]⟩ k :=
  ⟨Nat.le_refl k, List.cons_ne_nil e []⟩

theorem Named.expected_ne_nil (h : a.Named) (hpos : 0 < a.offset) : a.expected ≠ [] := by
  intro hnil
  have hzero := h hnil
  omega

theorem Reaches.merge_left (h : a.Reaches k) (hb : b.Named) : (a.merge b).Reaches k := by
  have hoffset := h.offset
  unfold merge
  split
  · next hlt => exact ⟨by omega, hb.expected_ne_nil (by omega)⟩
  · split
    · exact h
    · exact ⟨hoffset, List.append_ne_nil_of_left_ne_nil h.expected _⟩

theorem Reaches.merge_right (ha : a.Named) (h : b.Reaches k) : (a.merge b).Reaches k := by
  have hoffset := h.offset
  unfold merge
  split
  · exact h
  · split
    · next hlt => exact ⟨by omega, ha.expected_ne_nil (by omega)⟩
    · next hlt hgt => exact ⟨by simp only; omega, List.append_ne_nil_of_right_ne_nil _ h.expected⟩

theorem Named.merge (ha : a.Named) (hb : b.Named) : (a.merge b).Named := by
  by_cases hnil : b.expected = []
  · intro _
    rw [offset_merge, hb hnil]
    by_cases hleft : a.expected = []
    · rw [ha hleft]
      rfl
    · exact absurd ‹_› (Reaches.merge_left ⟨Nat.le_refl _, hleft⟩ hb).expected
  · exact (Reaches.merge_right ha ⟨Nat.le_refl _, hnil⟩).named

theorem expected_merge_eq_nil_iff (ha : a.Named) (hb : b.Named) :
    (a.merge b).expected = [] ↔ a.expected = [] ∧ b.expected = [] := by
  constructor
  · intro h
    by_contra hsome
    rcases not_and_or.mp hsome with hsome | hsome
    · exact (Reaches.merge_left ⟨Nat.le_refl _, hsome⟩ hb).expected h
    · exact (Reaches.merge_right ha ⟨Nat.le_refl _, hsome⟩).expected h
  · rintro ⟨ha', hb'⟩
    simp [merge, ha ha', hb hb', ha', hb']

end Refusals

/-! ## The refusals of the combinators -/

/-- The offset of the end of the text. -/
def Cursor.finish (c : Cursor) : Nat := c.offset + c.rest.length

namespace Rule

variable {α β : Type} {p q : Rule α} {f : α → Rule β} {c : Cursor}

theorem refusals_bind_of_none (h : (p c).result = none) :
    ((p >>= f) c).refusals = (p c).refusals := by
  show (Rule.bind p f c).refusals = _
  unfold Rule.bind
  rcases hp : p c with ⟨_ | ⟨a, next⟩, refused⟩
  · rfl
  · rw [hp] at h
    cases h

theorem refusals_bind_of_some {a : α} {next : Cursor} (h : (p c).result = some (a, next)) :
    ((p >>= f) c).refusals = (p c).refusals.merge (f a next).refusals := by
  show (Rule.bind p f c).refusals = _
  unfold Rule.bind
  rcases hp : p c with ⟨_ | ⟨a, next⟩, refused⟩
  · rw [hp] at h
    cases h
  · rw [hp] at h
    cases h
    rfl

theorem refusals_map (g : α → β) : ((g <$> p) c).refusals = (p c).refusals := by
  show ((p >>= fun a => pure (g a)) c).refusals = _
  rcases hp : (p c).result with _ | ⟨a, next⟩
  · exact refusals_bind_of_none hp
  · rw [refusals_bind_of_some hp]
    exact Refusals.merge_none _

theorem refusals_orElse_of_some {r : α × Cursor} (h : (p c).result = some r) :
    (orElse p q c).refusals = (p c).refusals := by
  unfold orElse
  rcases hp : p c with ⟨_ | r, refused⟩
  · rw [hp] at h
    cases h
  · rfl

theorem refusals_orElse_of_none (h : (p c).result = none) :
    (orElse p q c).refusals = (p c).refusals.merge (q c).refusals := by
  unfold orElse
  rcases hp : p c with ⟨_ | r, refused⟩
  · rfl
  · rw [hp] at h
    cases h

theorem refusals_optional : (optional p c).refusals = (p c).refusals := by
  unfold optional
  rcases hp : p c with ⟨_ | ⟨a, next⟩, refused⟩ <;> rfl

theorem refusals_manyAlong_of_none (bound : List Char) (h : (p c).result = none) :
    (manyAlong p bound c).refusals = (p c).refusals := by
  unfold manyAlong
  rcases hp : p c with ⟨_ | ⟨a, next⟩, refused⟩
  · rfl
  · rw [hp] at h
    cases h

theorem refusals_manyAlong_nil : (manyAlong p [] c).refusals = (p c).refusals := by
  unfold manyAlong
  rcases hp : p c with ⟨_ | ⟨a, next⟩, refused⟩ <;> rfl

theorem refusals_manyAlong_of_some (b : Char) (bound : List Char) {a : α} {next : Cursor}
    (h : (p c).result = some (a, next)) :
    (manyAlong p (b :: bound) c).refusals =
      (p c).refusals.merge (manyAlong p bound next).refusals := by
  rw [manyAlong]
  rcases hp : p c with ⟨_ | ⟨a, next⟩, refused⟩
  · rw [hp] at h
    cases h
  · rw [hp] at h
    cases h
    rfl

/-! ## Refusals within the text -/

/-- A rule that reads forward in its text, names what it refuses, and refuses it inside the text. -/
structure Orderly (p : Rule α) : Prop where
  forward {c next : Cursor} {a : α} : (p c).result = some (a, next) →
    c.offset ≤ next.offset ∧ next.finish = c.finish
  named (c : Cursor) : (p c).refusals.Named
  inside (c : Cursor) : (p c).refusals.offset ≤ c.finish

theorem orderly_pure (a : α) : Orderly (pure a) where
  forward h := by
    cases h
    exact ⟨Nat.le_refl _, rfl⟩
  named _ := Refusals.named_none
  inside _ := Nat.zero_le _

theorem orderly_refuse (e : Expected) : Orderly (refuse e : Rule α) where
  forward h := by cases h
  named c := (Refusals.reaches_singleton c.offset e).named
  inside c := Nat.le_add_right c.offset _

theorem Orderly.bind (hp : Orderly p) (hf : ∀ a, Orderly (f a)) : Orderly (p >>= f) where
  forward h := by
    obtain ⟨a, next, ha, hb⟩ := bind_eq_some.mp h
    obtain ⟨hle, hfinish⟩ := hp.forward ha
    obtain ⟨hle', hfinish'⟩ := (hf a).forward hb
    exact ⟨hle.trans hle', hfinish'.trans hfinish⟩
  named c := by
    rcases hr : (p c).result with _ | ⟨a, next⟩
    · rw [refusals_bind_of_none hr]
      exact hp.named c
    · rw [refusals_bind_of_some hr]
      exact (hp.named c).merge ((hf a).named next)
  inside c := by
    rcases hr : (p c).result with _ | ⟨a, next⟩
    · rw [refusals_bind_of_none hr]
      exact hp.inside c
    · rw [refusals_bind_of_some hr, Refusals.offset_merge, Nat.max_le]
      exact ⟨hp.inside c, (hp.forward hr).2 ▸ (hf a).inside next⟩

theorem Orderly.map (hp : Orderly p) (g : α → β) : Orderly (g <$> p) :=
  hp.bind (fun a => orderly_pure (g a))

theorem Orderly.orElse (hp : Orderly p) (hq : Orderly q) : Orderly (orElse p q) where
  forward h := by
    rw [result_orElse, Option.or_eq_some_iff] at h
    rcases h with h | ⟨-, h⟩
    · exact hp.forward h
    · exact hq.forward h
  named c := by
    rcases hr : (p c).result with _ | r
    · rw [refusals_orElse_of_none hr]
      exact (hp.named c).merge (hq.named c)
    · rw [refusals_orElse_of_some hr]
      exact hp.named c
  inside c := by
    rcases hr : (p c).result with _ | r
    · rw [refusals_orElse_of_none hr, Refusals.offset_merge, Nat.max_le]
      exact ⟨hp.inside c, hq.inside c⟩
    · rw [refusals_orElse_of_some hr]
      exact hp.inside c

theorem Orderly.optional (hp : Orderly p) : Orderly (optional p) where
  forward {c next o} h := by
    rw [result_optional] at h
    rcases hr : (p c).result with _ | ⟨a, last⟩
    · rw [hr] at h
      cases h
      exact ⟨Nat.le_refl _, rfl⟩
    · rw [hr] at h
      cases h
      exact hp.forward hr
  named c := by
    rw [refusals_optional]
    exact hp.named c
  inside c := by
    rw [refusals_optional]
    exact hp.inside c

theorem Orderly.manyAlong (hp : Orderly p) (bound : List Char) : Orderly (manyAlong p bound) := by
  induction bound with
  | nil =>
    refine ⟨fun {c next as} h => ?_, fun c => ?_, fun c => ?_⟩
    · rw [manyAlong_nil] at h
      rcases hr : (p c).result with _ | ⟨a, last⟩
      · rw [hr] at h
        cases h
        exact ⟨Nat.le_refl _, rfl⟩
      · rw [hr] at h
        cases h
        exact hp.forward hr
    · rw [refusals_manyAlong_nil]
      exact hp.named c
    · rw [refusals_manyAlong_nil]
      exact hp.inside c
  | cons b bound ih =>
    refine ⟨fun {c next as} h => ?_, fun c => ?_, fun c => ?_⟩
    · rw [manyAlong_cons] at h
      rcases hr : (p c).result with _ | ⟨a, mid⟩
      · rw [hr] at h
        cases h
        exact ⟨Nat.le_refl _, rfl⟩
      · rw [hr] at h
        obtain ⟨⟨more, last⟩, hmore, heq⟩ := Option.map_eq_some_iff.mp h
        cases heq
        obtain ⟨hle, hfinish⟩ := hp.forward hr
        obtain ⟨hle', hfinish'⟩ := ih.forward hmore
        exact ⟨hle.trans hle', hfinish'.trans hfinish⟩
    · rcases hr : (p c).result with _ | ⟨a, mid⟩
      · rw [refusals_manyAlong_of_none _ hr]
        exact hp.named c
      · rw [refusals_manyAlong_of_some _ _ hr]
        exact (hp.named c).merge (ih.named mid)
    · rcases hr : (p c).result with _ | ⟨a, mid⟩
      · rw [refusals_manyAlong_of_none _ hr]
        exact hp.inside c
      · rw [refusals_manyAlong_of_some _ _ hr, Refusals.offset_merge, Nat.max_le]
        exact ⟨hp.inside c, (hp.forward hr).2 ▸ ih.inside mid⟩

theorem Orderly.many (hp : Orderly p) : Orderly (many p) where
  forward {c _ _} h := (hp.manyAlong c.rest).forward h
  named c := (hp.manyAlong c.rest).named c
  inside c := (hp.manyAlong c.rest).inside c

theorem Orderly.separated {separator : Rule Unit} (hp : Orderly p) (hs : Orderly separator) :
    Orderly (separated p separator) :=
  (hp.bind (fun _ => (hs.bind (fun _ => hp)).many.bind (fun _ => orderly_pure _))).orElse
    (orderly_pure [])

theorem finish_skipWhile (t : Char → Bool) (c : Cursor) : (c.skipWhile t).finish = c.finish := by
  have hlength := congrArg List.length (List.takeWhile_append_dropWhile (p := t) (l := c.rest))
  rw [List.length_append] at hlength
  show c.offset + (c.rest.takeWhile t).length + (c.rest.dropWhile t).length = c.offset + _
  omega

theorem offset_le_skipWhile (t : Char → Bool) (c : Cursor) :
    c.offset ≤ (c.skipWhile t).offset :=
  Nat.le_add_right _ _

/-- A rule that takes at least one character without refusing anything, or is refused where it
starts. -/
def Terminal (p : Rule α) (e : Expected) : Prop := ∀ c,
  (∃ a next, p c = ⟨some (a, next), .none⟩ ∧ c.offset < next.offset ∧ next.finish = c.finish) ∨
    p c = refuse e c

theorem terminal_mark (m : Mark) : Terminal (mark m) (.mark m) := by
  intro c
  by_cases h : m.chars.isPrefixOf c.rest = true
  · have hlength := (List.isPrefixOf_iff_prefix.mp h).length_le
    have hpos : 0 < m.chars.length := by cases m <;> exact Nat.zero_lt_succ _
    refine .inl ⟨(), _, if_pos h, Nat.lt_add_of_pos_right hpos, ?_⟩
    simp only [Cursor.finish, List.length_drop]
    omega
  · exact .inr (if_neg h)

theorem terminal_oneOf (t : Char → Bool) (e : Expected) : Terminal (oneOf t e) e := by
  rintro ⟨k, _ | ⟨ch, rest⟩⟩
  · exact .inr rfl
  · by_cases h : t ch = true
    · refine .inl ⟨ch, ⟨k + 1, rest⟩, if_pos h, Nat.lt_succ_self k, ?_⟩
      simp only [Cursor.finish, List.length_cons]
      omega
    · exact .inr (if_neg h)

theorem terminal_word (first more : Char → Bool) (e : Expected) :
    Terminal (word first more e) e := by
  rintro ⟨k, _ | ⟨ch, rest⟩⟩
  · exact .inr rfl
  · by_cases h : first ch = true
    · have hoffset := offset_le_skipWhile more ⟨k + 1, rest⟩
      refine .inl ⟨_, _, if_pos h, Nat.lt_of_succ_le hoffset, (finish_skipWhile more _).trans ?_⟩
      simp only [Cursor.finish, List.length_cons]
      omega
    · exact .inr (if_neg h)

section Terminal

variable {e : Expected} (h : Terminal p e)

include h

theorem Terminal.advances {next : Cursor} {a : α} (hr : (p c).result = some (a, next)) :
    c.offset < next.offset ∧ next.finish = c.finish ∧ (p c).refusals = .none := by
  rcases h c with ⟨b, last, hp, hlt, hfinish⟩ | hp
  · rw [hp] at hr ⊢
    cases hr
    exact ⟨hlt, hfinish, rfl⟩
  · rw [hp] at hr
    cases hr

theorem Terminal.refusals_of_none (hr : (p c).result = none) :
    (p c).refusals = ⟨c.offset, [e]⟩ := by
  rcases h c with ⟨b, last, hp, -⟩ | hp
  · rw [hp] at hr
    cases hr
  · rw [hp]
    rfl

theorem Terminal.orderly : Orderly p where
  forward hr := ⟨(h.advances hr).1.le, (h.advances hr).2.1⟩
  named c := by
    rcases hr : (p c).result with _ | ⟨a, next⟩
    · rw [h.refusals_of_none hr]
      exact (Refusals.reaches_singleton _ e).named
    · rw [(h.advances hr).2.2]
      exact Refusals.named_none
  inside c := by
    rcases hr : (p c).result with _ | ⟨a, next⟩
    · rw [h.refusals_of_none hr]
      exact Nat.le_add_right c.offset _
    · rw [(h.advances hr).2.2]
      exact Nat.zero_le _

end Terminal

theorem orderly_mark (m : Mark) : Orderly (mark m) := (terminal_mark m).orderly

theorem orderly_oneOf (t : Char → Bool) (e : Expected) : Orderly (oneOf t e) :=
  (terminal_oneOf t e).orderly

theorem orderly_word (first more : Char → Bool) (e : Expected) : Orderly (word first more e) :=
  (terminal_word first more e).orderly

theorem orderly_run (t : Char → Bool) (e : Expected) : Orderly (run t e) where
  forward h := by
    cases h
    exact ⟨offset_le_skipWhile t _, finish_skipWhile t _⟩
  named c := (Refusals.reaches_singleton _ e).named
  inside c := by
    show (c.skipWhile t).offset ≤ c.finish
    rw [← finish_skipWhile t c]
    exact Nat.le_add_right _ _

theorem orderly_run1 (t : Char → Bool) (e : Expected) : Orderly (run1 t e) :=
  (orderly_oneOf t e).bind (fun _ => (orderly_run t e).bind (fun _ => orderly_pure _))

theorem orderly_skipSpaces : Orderly skipSpaces where
  forward h := by
    cases h
    exact ⟨offset_le_skipWhile isSpace _, finish_skipWhile isSpace _⟩
  named _ := Refusals.named_none
  inside _ := Nat.zero_le _

theorem orderly_spaces : Orderly spaces where
  forward {c next a} h := by
    rw [result_spaces] at h
    split at h
    · cases h
    · cases h
      exact ⟨offset_le_skipWhile isSpace c, finish_skipWhile isSpace c⟩
  named _ := Refusals.named_none
  inside _ := Nat.zero_le _

/-! ## Taking something -/

/-- The rule takes at least one character where it matches. -/
def Advances (p : Rule α) : Prop :=
  ∀ c a next, (p c).result = some (a, next) → c.offset < next.offset

theorem Advances.lt (hp : Advances p) {a : α} {next : Cursor}
    (h : (p c).result = some (a, next)) : c.offset < next.offset :=
  hp c a next h

theorem Terminal.takes {e : Expected} (h : Terminal p e) : Advances p :=
  fun _ _ _ hr => (h.advances hr).1

theorem Advances.bind (hp : Advances p) (hf : ∀ a, Orderly (f a)) : Advances (p >>= f) := by
  intro c b next h
  obtain ⟨a, mid, ha, hb⟩ := bind_eq_some.mp h
  exact (hp.lt ha).trans_le ((hf a).forward hb).1

theorem Advances.map (hp : Advances p) (g : α → β) : Advances (g <$> p) :=
  hp.bind (fun a => orderly_pure (g a))

theorem Orderly.bind_advances (hp : Orderly p) (hf : ∀ a, Advances (f a)) :
    Advances (p >>= f) := by
  intro c b next h
  obtain ⟨a, mid, ha, hb⟩ := bind_eq_some.mp h
  exact (hp.forward ha).1.trans_lt ((hf a).lt hb)

theorem Advances.orElse (hp : Advances p) (hq : Advances q) : Advances (orElse p q) := by
  intro c a next h
  rw [result_orElse, Option.or_eq_some_iff] at h
  rcases h with h | ⟨-, h⟩
  · exact hp.lt h
  · exact hq.lt h

theorem advances_spaces : Advances spaces := by
  intro c a next h
  rw [result_spaces] at h
  split at h
  · cases h
  · next hne =>
    cases h
    exact Nat.lt_add_of_pos_right (List.length_pos_iff.mpr hne)

/-- Matches in a row, up to where the rule does not match. The refusals are those of the matches and
of the last try. -/
inductive Repeated (p : Rule α) : Cursor → List α → Cursor → Refusals → Prop
  | stop {c : Cursor} : (p c).result = none → Repeated p c [] c (p c).refusals
  | step {c mid last : Cursor} {a : α} {as : List α} {refused : Refusals} :
      (p c).result = some (a, mid) → Repeated p mid as last refused →
      Repeated p c (a :: as) last ((p c).refusals.merge refused)

/-- A repetition takes matches from left to right, up to where its rule does not match. -/
theorem repeated_of_many (hp : Orderly p) (hadvances : Advances p) {c last : Cursor} {as : List α}
    (h : (many p c).result = some (as, last)) : Repeated p c as last (many p c).refusals := by
  -- induction on the bound, which is at least as long as the text that is left
  suffices hbound : ∀ (bound : List Char) (c : Cursor) (as : List α),
      c.rest.length ≤ bound.length → (manyAlong p bound c).result = some (as, last) →
      Repeated p c as last (manyAlong p bound c).refusals from hbound c.rest c as (Nat.le_refl _) h
  intro bound
  induction bound with
  | nil =>
    intro c as hlen h
    rw [manyAlong_nil] at h
    rw [refusals_manyAlong_nil]
    rcases hr : (p c).result with _ | ⟨a, next⟩
    · rw [hr] at h
      cases h
      exact .stop hr
    · have hlt := hadvances.lt hr
      have hfinish := (hp.forward hr).2
      simp only [Cursor.finish, List.length_nil] at hfinish hlen
      omega
  | cons b bound ih =>
    intro c as hlen h
    rw [manyAlong_cons] at h
    rcases hr : (p c).result with _ | ⟨a, mid⟩
    · rw [hr] at h
      cases h
      rw [refusals_manyAlong_of_none _ hr]
      exact .stop hr
    · rw [hr] at h
      obtain ⟨⟨more, last⟩, hmore, heq⟩ := Option.map_eq_some_iff.mp h
      cases heq
      have hlt := hadvances.lt hr
      have hfinish := (hp.forward hr).2
      simp only [Cursor.finish, List.length_cons] at hfinish hlen
      rw [refusals_manyAlong_of_some _ _ hr]
      exact .step hr (ih mid more (by omega) hmore)

theorem Repeated.forward (hp : Orderly p) {c last : Cursor} {as : List α} {refused : Refusals}
    (h : Repeated p c as last refused) : c.offset ≤ last.offset := by
  induction h with
  | stop _ => exact Nat.le_refl _
  | step ha _ ih => exact (hp.forward ha).1.trans ih

theorem Repeated.named (hp : Orderly p) {c last : Cursor} {as : List α} {refused : Refusals}
    (h : Repeated p c as last refused) : refused.Named := by
  induction h with
  | stop _ => exact hp.named _
  | step _ _ ih => exact (hp.named _).merge ih

/-! ## Failing -/

/-- Where the rule fails, something was refused, at its start or behind it. -/
def Explains (p : Rule α) : Prop := ∀ c, (p c).result = none → (p c).refusals.Reaches c.offset

theorem Terminal.explains {e : Expected} (h : Terminal p e) : Explains p := by
  intro c hr
  rw [h.refusals_of_none hr]
  exact Refusals.reaches_singleton _ e

theorem explains_refuse (e : Expected) : Explains (refuse e : Rule α) :=
  fun c _ => Refusals.reaches_singleton c.offset e

theorem Total.explains (h : Total p) : Explains p := fun c hr => absurd hr (h c)

theorem Explains.bind (hexplains : Explains p) (hp : Orderly p) (hf : ∀ a, Explains (f a)) :
    Explains (p >>= f) := by
  intro c h
  rcases hr : (p c).result with _ | ⟨a, next⟩
  · rw [refusals_bind_of_none hr]
    exact hexplains c hr
  · rw [result_bind, hr] at h
    rw [refusals_bind_of_some hr]
    exact .merge_right (hp.named c) ((hf a next h).mono (hp.forward hr).1)

theorem Explains.map (h : Explains p) (g : α → β) : Explains (g <$> p) := by
  intro c hr
  rw [result_map, Option.map_eq_none_iff] at hr
  rw [refusals_map]
  exact h c hr

/-- The last alternative is enough. -/
theorem Explains.orElse (hp : Orderly p) (hq : Explains q) : Explains (orElse p q) := by
  intro c h
  rw [result_orElse, Option.or_eq_none_iff] at h
  rw [refusals_orElse_of_none h.1]
  exact .merge_right (hp.named c) (hq c h.2)

/-- What the rule of a repetition refuses at the end, the repetition does. -/
theorem Repeated.reaches (h : Explains p) (hp : Orderly p) {c last : Cursor} {as : List α}
    {refused : Refusals} (hr : Repeated p c as last refused) : refused.Reaches last.offset := by
  induction hr with
  | stop hnone => exact h _ hnone
  | step _ _ ih => exact .merge_right (hp.named _) ih

/-! ## Refusing at the end -/

/-- Where the rule matches, something was refused at the end of what it takes or behind that. -/
def Ends (p : Rule α) : Prop :=
  ∀ c a next, (p c).result = some (a, next) → (p c).refusals.Reaches next.offset

theorem Ends.reaches (hp : Ends p) {next : Cursor} {a : α} (h : (p c).result = some (a, next)) :
    (p c).refusals.Reaches next.offset :=
  hp c a next h

theorem ends_run (t : Char → Bool) (e : Expected) : Ends (run t e) := by
  intro c a next h
  cases h
  exact Refusals.reaches_singleton _ e

theorem Ends.bind_right (hf : ∀ a, Ends (f a)) (hp : Orderly p) : Ends (p >>= f) := by
  intro c b next h
  obtain ⟨a, mid, ha, hb⟩ := bind_eq_some.mp h
  rw [refusals_bind_of_some ha]
  exact .merge_right (hp.named c) ((hf a).reaches hb)

/-- A last step that takes nothing. -/
theorem Ends.bind_left (hp : Ends p) (hf : ∀ a, Orderly (f a))
    (hkeep : ∀ {a b c next}, (f a c).result = some (b, next) → next = c) : Ends (p >>= f) := by
  intro c b next h
  obtain ⟨a, mid, ha, hb⟩ := bind_eq_some.mp h
  rw [refusals_bind_of_some ha, hkeep hb]
  exact .merge_left (hp.reaches ha) ((hf a).named mid)

theorem Ends.bind_pure (hp : Ends p) (g : α → β) : Ends (p >>= fun a => pure (g a)) := by
  refine hp.bind_left (fun a => orderly_pure (g a)) (fun h => ?_)
  cases h
  rfl

theorem Ends.optional (hp : Ends p) (hexplains : Explains p) : Ends (optional p) := by
  intro c o next h
  rw [result_optional] at h
  rw [refusals_optional]
  rcases hr : (p c).result with _ | ⟨a, last⟩
  · rw [hr] at h
    cases h
    exact hexplains _ hr
  · rw [hr] at h
    cases h
    exact hp.reaches hr

theorem Ends.orElse (hp : Ends p) (hq : Ends q) (horderly : Orderly p) : Ends (orElse p q) := by
  intro c a next h
  rw [result_orElse, Option.or_eq_some_iff] at h
  rcases h with h | ⟨hnone, h⟩
  · rw [refusals_orElse_of_some h]
    exact hp.reaches h
  · rw [refusals_orElse_of_none hnone]
    exact .merge_right (horderly.named c) (hq.reaches h)

end Rule

/-! ## The rules of the language -/

section Language

open Rule
open Decimal (isDigit)

theorem orderly_identifier : Orderly identifier := orderly_word _ _ _

theorem orderly_bare : Orderly bare := orderly_word _ _ _

theorem orderly_quoted : Orderly quoted :=
  (orderly_mark .quote).bind (fun _ => (orderly_run _ _).bind (fun _ =>
    (orderly_mark .quote).bind (fun _ => orderly_pure _)))

theorem orderly_variableName : Orderly variableName :=
  ((orderly_mark .openVariable).bind (fun _ => orderly_identifier.bind (fun _ =>
    (orderly_mark .closeVariable).bind (fun _ => orderly_pure _)))).orElse
    ((orderly_mark .dollar).bind (fun _ => orderly_identifier))

theorem orderly_sign : Orderly sign :=
  (orderly_oneOf isSign .sign).optional.bind (fun _ => orderly_pure _)

theorem orderly_digits : Orderly digits := orderly_run1 _ _

theorem orderly_power : Orderly power :=
  (orderly_oneOf _ _).bind (fun _ => orderly_sign.bind (fun _ =>
    orderly_digits.bind (fun _ => orderly_pure _)))

theorem orderly_float : Orderly float :=
  orderly_sign.bind (fun _ => orderly_digits.bind (fun _ => (orderly_mark .point).bind (fun _ =>
    orderly_digits.bind (fun _ => orderly_power.optional.bind (fun _ => orderly_pure _)))))

/-- What is left of an integer behind its digits: it fits, or is refused. -/
def fitting (negative : Bool) (ds : List Char) : Rule Int64 :=
  match int64? (signed negative (Decimal.valueOf ds)) with
  | some value => pure value
  | none => refuse .integer

theorem orderly_fitting (negative : Bool) (ds : List Char) : Orderly (fitting negative ds) := by
  unfold fitting
  split
  · exact orderly_pure _
  · exact orderly_refuse _

theorem orderly_integer : Orderly integer :=
  orderly_sign.bind (fun _ => orderly_digits.bind (fun _ => orderly_fitting _ _))

theorem orderly_number : Orderly number := (orderly_float.map _).orElse (orderly_integer.map _)

theorem explains_fitting (negative : Bool) (ds : List Char) : Explains (fitting negative ds) := by
  unfold fitting
  split
  · exact (total_pure _).explains
  · exact explains_refuse _

theorem total_sign : Total sign := Total.bind (total_optional _) (fun _ => total_pure _)

theorem total_run (p : Char → Bool) (e : Expected) : Total (run p e) :=
  fun _ => Option.some_ne_none _

theorem explains_digits : Explains digits :=
  (terminal_oneOf isDigit .digit).explains.bind (orderly_oneOf _ _) (fun _ =>
    (Total.bind (total_run _ _) (fun _ => total_pure _)).explains)

theorem explains_power : Explains power :=
  (terminal_oneOf _ _).explains.bind (orderly_oneOf _ _) (fun _ =>
    total_sign.explains.bind orderly_sign (fun _ => explains_digits.bind orderly_digits
      (fun _ => (total_pure _).explains)))

theorem explains_number : Explains number :=
  Explains.orElse (orderly_float.map _)
    ((total_sign.explains.bind orderly_sign (fun _ => explains_digits.bind orderly_digits
      (fun _ => explains_fitting _ _))).map _)

theorem fitting_eq_some {negative : Bool} {ds : List Char} {value : Int64} {c next : Cursor}
    (h : (fitting negative ds c).result = some (value, next)) : next = c := by
  unfold fitting at h
  cases hfits : int64? (signed negative (Decimal.valueOf ds)) with
  | some found =>
    rw [hfits] at h
    cases h
    rfl
  | none =>
    rw [hfits] at h
    cases h

theorem ends_digits : Ends digits :=
  Ends.bind_right (fun _ => (ends_run _ _).bind_pure _) (orderly_oneOf _ _)

theorem ends_power : Ends power :=
  Ends.bind_right (fun _ => Ends.bind_right (fun _ => ends_digits.bind_pure _) orderly_sign)
    (orderly_oneOf _ _)

theorem ends_float : Ends float :=
  Ends.bind_right (fun _ => Ends.bind_right (fun _ => Ends.bind_right (fun _ =>
    Ends.bind_right (fun _ => (ends_power.optional explains_power).bind_pure _) orderly_digits)
      (orderly_mark _)) orderly_digits) orderly_sign

theorem ends_integer : Ends integer :=
  Ends.bind_right (fun _ => ends_digits.bind_left (orderly_fitting _) fitting_eq_some) orderly_sign

/-- Behind a number one more digit was tried. -/
theorem ends_number : Ends number :=
  Ends.orElse (ends_float.bind_pure _) (ends_integer.bind_pure _) (orderly_float.map _)

theorem orderly_flag : Orderly flag :=
  ((orderly_mark .doubleDash).bind (fun _ => orderly_identifier.bind (fun _ =>
    orderly_pure _))).orElse
    ((orderly_mark .dash).bind (fun _ => orderly_identifier.bind (fun _ => orderly_pure _)))

section Inner

variable {inner : Rule Body}

theorem orderly_substitution (hinner : Orderly inner) : Orderly (substitution inner) :=
  (orderly_mark .openSubstitution).bind (fun _ => orderly_skipSpaces.bind (fun _ =>
    hinner.bind (fun _ => orderly_skipSpaces.bind (fun _ =>
      (orderly_mark .closeSubstitution).bind (fun _ => orderly_pure _)))))

theorem orderly_expr (hinner : Orderly inner) : Orderly (expr inner) :=
  (orderly_variableName.map _).orElse (((orderly_substitution hinner).map _).orElse
    ((orderly_quoted.map _).orElse ((orderly_bare.map _).orElse orderly_number)))

theorem orderly_argument (hinner : Orderly inner) : Orderly (argument inner) :=
  orderly_flag.orElse ((orderly_expr hinner).map _)

theorem orderly_spaced (hinner : Orderly inner) : Orderly (do spaces; argument inner) :=
  orderly_spaces.bind (fun _ => orderly_argument hinner)

theorem orderly_command (hinner : Orderly inner) : Orderly (command inner) :=
  orderly_identifier.bind (fun _ => (orderly_spaced hinner).many.bind (fun _ => orderly_pure _))

theorem orderly_bodyOver (hinner : Orderly inner) : Orderly (bodyOver inner) :=
  (orderly_command hinner).orElse ((orderly_expr hinner).map _)

theorem explains_expr (hinner : Orderly inner) : Explains (expr inner) :=
  .orElse (orderly_variableName.map _) (.orElse ((orderly_substitution hinner).map _)
    (.orElse (orderly_quoted.map _) (.orElse (orderly_bare.map _) explains_number)))

theorem explains_argument (hinner : Orderly inner) : Explains (argument inner) :=
  .orElse orderly_flag ((explains_expr hinner).map _)

theorem explains_bodyOver (hinner : Orderly inner) : Explains (bodyOver inner) :=
  .orElse (orderly_command hinner) ((explains_expr hinner).map _)

end Inner

theorem orderly_bodyWithin (n : Nat) : Orderly (bodyWithin n) := by
  induction n with
  | zero =>
    exact ⟨fun h => (by cases h), fun _ => Refusals.named_none, fun _ => Nat.zero_le _⟩
  | succ n ih => exact orderly_bodyOver ih

/-! ## Statements -/

section Statements

variable {body : Rule Body}

theorem orderly_comment : Orderly comment :=
  (orderly_mark .hash).bind (fun _ => (orderly_run _ _).bind (fun _ => orderly_pure _))

theorem orderly_statement (hbody : Orderly body) : Orderly (statement body) :=
  orderly_skipSpaces.bind (fun _ => hbody.optional.bind (fun _ => orderly_skipSpaces.bind (fun _ =>
    orderly_comment.optional.bind (fun _ => orderly_skipSpaces.bind (fun _ => orderly_pure _)))))

theorem orderly_separator : Orderly separator :=
  ((orderly_mark .carriageReturn).optional.bind (fun _ => orderly_mark .lineFeed)).orElse
    (orderly_mark .semicolon)

theorem explains_separator : Explains separator :=
  Explains.orElse ((orderly_mark .carriageReturn).optional.bind (fun _ => orderly_mark .lineFeed))
    (terminal_mark .semicolon).explains

theorem advances_separator : Advances separator :=
  Advances.orElse
    ((orderly_mark .carriageReturn).optional.bind_advances (fun _ => (terminal_mark _).takes))
    (terminal_mark .semicolon).takes

theorem orderly_statements (hbody : Orderly body) : Orderly (statements body) :=
  (orderly_statement hbody).separated orderly_separator

theorem total_statements (body : Rule Body) : Total (statements body) := by
  intro c h
  rw [statements, separated, result_orElse, Option.or_eq_none_iff] at h
  cases h.2

theorem orderly_separated_statement (hbody : Orderly body) :
    Orderly (do separator; statement body) :=
  orderly_separator.bind (fun _ => orderly_statement hbody)

/-- The statements behind the first one are read up to where no separator stands. -/
theorem repeated_statements (hbody : Orderly body) {mid last : Cursor} {more : List Statement}
    (h : (many (do separator; statement body) mid).result = some (more, last)) :
    Repeated (do separator; statement body) mid more last
      (many (do separator; statement body) mid).refusals :=
  repeated_of_many (orderly_separated_statement hbody)
    (advances_separator.bind (fun _ => orderly_statement hbody)) h

/-- Where a list of statements ends, a separator was refused. -/
theorem statements_reaches (hbody : Orderly body) {c last : Cursor} {found : List Statement}
    (h : (statements body c).result = some (found, last)) :
    (statements body c).refusals.Reaches last.offset := by
  have hstatement := orderly_statement hbody
  obtain ⟨first, mid, more, hfirst, hmore, rfl⟩ := statements_eq_some h
  have hall : ((do
      let first ← statement body
      let more ← many (do separator; statement body)
      pure (first :: more) : Rule (List Statement)) c).result = some (first :: more, last) :=
    bind_eq_some.mpr ⟨first, mid, hfirst, bind_eq_some.mpr ⟨more, last, hmore, rfl⟩⟩
  rw [statements, separated, refusals_orElse_of_some hall, refusals_bind_of_some hfirst,
    refusals_bind_of_some hmore]
  have hexplains : Explains (do separator; statement body) :=
    explains_separator.bind orderly_separator (fun _ => (total_statement body).explains)
  refine .merge_right (hstatement.named c) (.merge_left ?_ Refusals.named_none)
  exact (repeated_statements hbody hmore).reaches hexplains (orderly_separated_statement hbody)

end Statements

end Language

end CommandShell.Grammar
