/-
# CommandShell.Proofs.Grammar.Matching -- what rules take, whatever they refuse

A rule answers with a result and with its refusals. Here only the result counts, and of the cursor
only what is left to read. `Sound p D` says that whatever `p` takes is described by `D`; `Reads`
and `Refuses` say what `p` does on a given text. Each combinator and each terminal has its lemmas
for all three, so that the rules of the language are never unfolded below the combinators they are
written with.

`Sound` and `Reads` also speak of the text that follows: taking as much as one can is a statement
about what comes next.
-/
import CommandShell.Proofs.Grammar.Derivation
import Mathlib.Data.List.TakeWhile

namespace CommandShell.Grammar

/-! ## Three views of a rule -/

/-- No character of the class stands first. -/
def Avoids (p : Char → Bool) (text : List Char) : Prop := ∀ c ∈ text.head?, p c = false

theorem avoids_nil (p : Char → Bool) : Avoids p [] := by
  intro c hc
  simp at hc

theorem avoids_cons {p : Char → Bool} {c : Char} {text : List Char} :
    Avoids p (c :: text) ↔ p c = false := by
  simp [Avoids]

theorem ne_of_class {p : Char → Bool} {c d : Char} (hc : p c = true) (hd : p d = false) :
    c ≠ d := by
  rintro rfl
  rw [hc] at hd
  cases hd

/-- A text whose first character is of a class starts with no character outside of it. -/
theorem avoids_of_class {p : Char → Bool} {c d : Char} (hc : p c = true) (hd : p d = false)
    (text : List Char) : Avoids (· == d) (c :: text) :=
  avoids_cons.mpr (beq_eq_false_iff_ne.mpr (ne_of_class hc hd))

theorem Avoids.mono {p q : Char → Bool} {text : List Char} (h : Avoids q text)
    (hpq : ∀ c, p c = true → q c = true) : Avoids p text := by
  intro c hc
  have hq := h c hc
  cases hp : p c with
  | false => rfl
  | true => rw [hpq c hp] at hq; exact hq

/-- A class avoids a text whose first character is one of some that it does not hold. -/
theorem avoids_of_mem {p : Char → Bool} {firsts text : List Char}
    (h : ∀ c ∈ text.head?, c ∈ firsts) (hp : firsts.any p = false) : Avoids p text :=
  fun c hc => Bool.eq_false_iff.mpr (List.any_eq_false.mp hp c (h c hc))

theorem avoids_dropWhile (p : Char → Bool) (text : List Char) : Avoids p (text.dropWhile p) := by
  intro c hc
  have h := List.head?_dropWhile_not p text
  rw [Option.mem_def.mp hc] at h
  simpa using h

theorem dropWhile_eq_of_avoids {p : Char → Bool} {text : List Char} (h : Avoids p text) :
    text.dropWhile p = text := by
  cases text with
  | nil => rfl
  | cons c more => rw [List.dropWhile_cons, avoids_cons.mp h]; rfl

theorem takeWhile_append_of_avoids {p : Char → Bool} {u rest : List Char}
    (hu : ∀ c ∈ u, p c = true) (hrest : Avoids p rest) : (u ++ rest).takeWhile p = u := by
  rw [List.takeWhile_append_of_pos hu]
  cases rest with
  | nil => simp
  | cons c more => simp [avoids_cons.mp hrest]

theorem dropWhile_append_of_avoids {p : Char → Bool} {u rest : List Char}
    (hu : ∀ c ∈ u, p c = true) (hrest : Avoids p rest) : (u ++ rest).dropWhile p = rest := by
  rw [List.dropWhile_append_of_pos hu, dropWhile_eq_of_avoids hrest]

namespace Rule

variable {α β : Type}

/-- Whatever the rule takes, and what follows, is as described. -/
def Sound (p : Rule α) (D : List Char → α → List Char → Prop) : Prop :=
  ∀ c a next, (p c).result = some (a, next) → ∃ u, c.rest = u ++ next.rest ∧ D u a next.rest

theorem Sound.taken {p : Rule α} {D : List Char → α → List Char → Prop} (hp : Sound p D)
    {c next : Cursor} {a : α} (h : (p c).result = some (a, next)) :
    ∃ u, c.rest = u ++ next.rest ∧ D u a next.rest :=
  hp c a next h

/-- Before the given text, the rule takes exactly the given one. -/
def Reads (p : Rule α) (u : List Char) (a : α) (rest : List Char) : Prop :=
  ∀ c : Cursor, c.rest = u ++ rest → ∃ next, (p c).result = some (a, next) ∧ next.rest = rest

/-- The rule does not match the text. -/
def Refuses (p : Rule α) (text : List Char) : Prop :=
  ∀ c : Cursor, c.rest = text → (p c).result = none

/-! ## Results of the combinators -/

theorem result_pure (a : α) (c : Cursor) : ((pure a : Rule α) c).result = some (a, c) := rfl

theorem result_bind (p : Rule α) (f : α → Rule β) (c : Cursor) :
    ((p >>= f) c).result = (p c).result.bind (fun r => (f r.1 r.2).result) := by
  show (Rule.bind p f c).result = _
  unfold Rule.bind
  rcases hp : p c with ⟨_ | ⟨a, next⟩, refused⟩ <;> rfl

theorem result_map (f : α → β) (p : Rule α) (c : Cursor) :
    ((f <$> p) c).result = (p c).result.map (fun r => (f r.1, r.2)) := by
  show ((p >>= fun a => pure (f a)) c).result = _
  rw [result_bind]
  cases (p c).result <;> rfl

theorem result_orElse (p q : Rule α) (c : Cursor) :
    (orElse p q c).result = (p c).result.or (q c).result := by
  unfold orElse
  rcases hp : p c with ⟨_ | r, refused⟩ <;> rfl

theorem result_optional (p : Rule α) (c : Cursor) :
    (optional p c).result =
      some ((p c).result.elim (none, c) (fun r => (some r.1, r.2))) := by
  unfold optional
  rcases hp : p c with ⟨_ | ⟨a, next⟩, refused⟩ <;> rfl

theorem bind_eq_some {p : Rule α} {f : α → Rule β} {c last : Cursor} {b : β} :
    ((p >>= f) c).result = some (b, last) ↔
      ∃ a next, (p c).result = some (a, next) ∧ (f a next).result = some (b, last) := by
  rw [result_bind, Option.bind_eq_some_iff]
  constructor
  · rintro ⟨⟨a, next⟩, hp, hf⟩
    exact ⟨a, next, hp, hf⟩
  · rintro ⟨a, next, hp, hf⟩
    exact ⟨(a, next), hp, hf⟩

theorem pure_eq_some {a b : α} {c last : Cursor} :
    ((pure a : Rule α) c).result = some (b, last) ↔ a = b ∧ c = last := by
  rw [result_pure, Option.some.injEq, Prod.mk.injEq]

/-! ## Soundness -/

theorem Sound.mono {p : Rule α} {D E : List Char → α → List Char → Prop} (hp : Sound p D)
    (h : ∀ u a rest, D u a rest → E u a rest) : Sound p E := by
  intro c a next hr
  obtain ⟨u, hc, hu⟩ := hp.taken hr
  exact ⟨u, hc, h u a next.rest hu⟩

theorem Sound.orElse {p q : Rule α} {D : List Char → α → List Char → Prop} (hp : Sound p D)
    (hq : Sound q D) : Sound (orElse p q) D := by
  intro c a next hr
  rw [result_orElse, Option.or_eq_some_iff] at hr
  rcases hr with hr | ⟨-, hr⟩
  · exact hp.taken hr
  · exact hq.taken hr

theorem Sound.map {p : Rule α} {D : List Char → β → List Char → Prop} {f : α → β}
    (hp : Sound p (fun u a rest => D u (f a) rest)) : Sound (f <$> p) D := by
  intro c b next hr
  rw [result_map, Option.map_eq_some_iff] at hr
  obtain ⟨⟨a, last⟩, hr, heq⟩ := hr
  cases heq
  exact hp.taken hr

theorem Sound.optional {p : Rule α} {D : List Char → α → List Char → Prop} (hp : Sound p D) :
    Sound (optional p) (fun u o rest => Optionally (fun u a => D u a rest) u o) := by
  intro c o next hr
  rw [result_optional] at hr
  rcases hpc : (p c).result with _ | ⟨a, last⟩
  · rw [hpc] at hr
    cases hr
    exact ⟨[], rfl, .absent⟩
  · rw [hpc] at hr
    cases hr
    obtain ⟨u, hc, hu⟩ := hp.taken hpc
    exact ⟨u, hc, .present hu⟩

/-! ## Repetition -/

/-- Texts one behind the other, each described together with all that follows it. -/
inductive Repeats (D : List Char → α → List Char → Prop) (rest : List Char) :
    List Char → List α → Prop
  | nil : Repeats D rest [] []
  | cons {u v : List Char} {a : α} {as : List α} :
      D u a (v ++ rest) → Repeats D rest v as → Repeats D rest (u ++ v) (a :: as)

theorem manyAlong_nil (p : Rule α) (c : Cursor) :
    (manyAlong p [] c).result =
      some ((p c).result.elim ([], c) (fun r => ([r.1], r.2))) := by
  unfold manyAlong
  rcases hp : p c with ⟨_ | ⟨a, next⟩, refused⟩ <;> rfl

theorem manyAlong_cons (p : Rule α) (b : Char) (bound : List Char) (c : Cursor) :
    (manyAlong p (b :: bound) c).result =
      (p c).result.elim (some ([], c))
        (fun r => (manyAlong p bound r.2).result.map (fun s => (r.1 :: s.1, s.2))) := by
  rw [manyAlong]
  rcases hp : p c with ⟨_ | ⟨a, next⟩, refused⟩ <;> rfl

theorem Sound.manyAlong {p : Rule α} {D : List Char → α → List Char → Prop} (hp : Sound p D)
    (bound : List Char) : Sound (manyAlong p bound) (fun u as rest => Repeats D rest u as) := by
  -- induction on the bound; each step takes one match off the front
  induction bound with
  | nil =>
    intro c as next hr
    rw [manyAlong_nil] at hr
    rcases hpc : (p c).result with _ | ⟨a, last⟩
    · rw [hpc] at hr
      cases hr
      exact ⟨[], rfl, .nil⟩
    · rw [hpc] at hr
      cases hr
      obtain ⟨u, hc, hu⟩ := hp.taken hpc
      refine ⟨u, hc, ?_⟩
      have hone := Repeats.cons (D := D) (v := []) hu .nil
      rwa [List.append_nil] at hone
  | cons b bound ih =>
    intro c as next hr
    rw [manyAlong_cons] at hr
    rcases hpc : (p c).result with _ | ⟨a, mid⟩
    · rw [hpc] at hr
      cases hr
      exact ⟨[], rfl, .nil⟩
    · rw [hpc] at hr
      obtain ⟨⟨more, last⟩, hmore, heq⟩ := Option.map_eq_some_iff.mp hr
      cases heq
      obtain ⟨u, hc, hu⟩ := hp.taken hpc
      obtain ⟨v, hmid, hv⟩ := ih.taken hmore
      refine ⟨u ++ v, ?_, .cons ?_ hv⟩
      · rw [hc, hmid, List.append_assoc]
      · rwa [← hmid]

theorem Sound.many {p : Rule α} {D : List Char → α → List Char → Prop} (hp : Sound p D) :
    Sound (many p) (fun u as rest => Repeats D rest u as) :=
  fun c _ _ hr => (hp.manyAlong c.rest).taken hr

/-! ## Rules that always match -/

/-- The rule matches every text. -/
def Total (p : Rule α) : Prop := ∀ c, (p c).result ≠ none

theorem total_pure (a : α) : Total (pure a) :=
  fun _ => Option.some_ne_none _

theorem bind_eq_none {p : Rule α} {f : α → Rule β} (hf : ∀ a, Total (f a)) {c : Cursor}
    (h : ((p >>= f) c).result = none) : (p c).result = none := by
  rw [result_bind] at h
  rcases hp : (p c).result with _ | ⟨a, next⟩
  · rfl
  · rw [hp] at h
    exact absurd h (hf a next)

theorem Total.bind {p : Rule α} {f : α → Rule β} (hp : Total p) (hf : ∀ a, Total (f a)) :
    Total (p >>= f) :=
  fun c h => hp c (bind_eq_none hf h)

theorem total_optional (p : Rule α) : Total (optional p) := by
  intro c
  rw [result_optional]
  exact Option.some_ne_none _

theorem total_manyAlong (p : Rule α) (bound : List Char) : Total (manyAlong p bound) := by
  induction bound with
  | nil =>
    intro c
    rw [manyAlong_nil]
    exact Option.some_ne_none _
  | cons b bound ih =>
    intro c
    rw [manyAlong_cons]
    rcases (p c).result with _ | ⟨a, next⟩
    · exact Option.some_ne_none _
    · intro hnone
      exact ih next (Option.map_eq_none_iff.mp hnone)

theorem total_many (p : Rule α) : Total (many p) :=
  fun c => total_manyAlong p c.rest c

/-! ## Reading -/

theorem reads_pure (a : α) (rest : List Char) : Reads (pure a) [] a rest := by
  intro c hc
  exact ⟨c, rfl, hc⟩

theorem Reads.bind {p : Rule α} {f : α → Rule β} {u v rest : List Char} {a : α} {b : β}
    (hp : Reads p u a (v ++ rest)) (hf : Reads (f a) v b rest) :
    Reads (p >>= f) (u ++ v) b rest := by
  intro c hc
  rw [List.append_assoc] at hc
  obtain ⟨mid, hmid, hrest⟩ := hp c hc
  obtain ⟨last, hlast, hend⟩ := hf mid hrest
  exact ⟨last, bind_eq_some.mpr ⟨a, mid, hmid, hlast⟩, hend⟩

/-- A last step that takes nothing. -/
theorem Reads.bind_pure {p : Rule α} {f : α → Rule β} {u rest : List Char} {a : α} {b : β}
    (hp : Reads p u a rest) (hf : f a = pure b) : Reads (p >>= f) u b rest := by
  have h := Reads.bind (f := f) (v := []) hp (by rw [hf]; exact reads_pure b rest)
  rwa [List.append_nil] at h

theorem Reads.map {p : Rule α} {f : α → β} {u rest : List Char} {a : α}
    (hp : Reads p u a rest) : Reads (f <$> p) u (f a) rest :=
  Reads.bind_pure hp rfl

theorem Reads.orElse_left {p q : Rule α} {u rest : List Char} {a : α} (hp : Reads p u a rest) :
    Reads (orElse p q) u a rest := by
  intro c hc
  obtain ⟨next, hr, hrest⟩ := hp c hc
  exact ⟨next, by rw [result_orElse, hr]; rfl, hrest⟩

theorem Reads.orElse_right {p q : Rule α} {u rest : List Char} {a : α}
    (hp : Refuses p (u ++ rest)) (hq : Reads q u a rest) : Reads (orElse p q) u a rest := by
  intro c hc
  obtain ⟨next, hr, hrest⟩ := hq c hc
  exact ⟨next, by rw [result_orElse, hp c hc, hr]; rfl, hrest⟩

theorem Reads.optional {p : Rule α} {u rest : List Char} {a : α} (hp : Reads p u a rest) :
    Reads (optional p) u (some a) rest := by
  intro c hc
  obtain ⟨next, hr, hrest⟩ := hp c hc
  exact ⟨next, by rw [result_optional, hr]; rfl, hrest⟩

theorem Refuses.optional {p : Rule α} {rest : List Char} (hp : Refuses p rest) :
    Reads (optional p) [] none rest := by
  intro c hc
  exact ⟨c, by rw [result_optional, hp c hc]; rfl, hc⟩

theorem Refuses.bind {p : Rule α} {f : α → Rule β} {text : List Char} (hp : Refuses p text) :
    Refuses (p >>= f) text := by
  intro c hc
  rw [result_bind, hp c hc]
  rfl

/-- The first step matches and the second does not. -/
theorem Reads.refuses_bind {p : Rule α} {f : α → Rule β} {u rest : List Char} {a : α}
    (hp : Reads p u a rest) (hf : Refuses (f a) rest) : Refuses (p >>= f) (u ++ rest) := by
  intro c hc
  obtain ⟨next, hr, hrest⟩ := hp c hc
  rw [result_bind, hr]
  exact hf next hrest

theorem Refuses.map {p : Rule α} {f : α → β} {text : List Char} (hp : Refuses p text) :
    Refuses (f <$> p) text :=
  Refuses.bind hp

theorem Refuses.orElse {p q : Rule α} {text : List Char} (hp : Refuses p text)
    (hq : Refuses q text) : Refuses (orElse p q) text := by
  intro c hc
  rw [result_orElse, hp c hc, hq c hc]
  rfl

/-- A repetition takes its matches one by one and stops where the rule does not match. Each match
takes at least one character, so a bound as long as the text is enough. -/
theorem reads_manyAlong {p : Rule α} {rest : List Char} (hstop : Refuses p rest) :
    ∀ {u : List Char} {as : List α} (bound : List Char),
      Repeats (fun u a rest => Reads p u a rest ∧ u ≠ []) rest u as →
      u.length ≤ bound.length → Reads (manyAlong p bound) u as rest := by
  intro u as bound h
  induction h generalizing bound with
  | nil =>
    intro _ c hc
    have hr := hstop c hc
    refine ⟨c, ?_, hc⟩
    cases bound with
    | nil => rw [manyAlong_nil, hr]; rfl
    | cons b bound => rw [manyAlong_cons, hr]; rfl
  | @cons u v a as hu _ ih =>
    intro hlen c hc
    obtain ⟨hread, hne⟩ := hu
    have hpos : 0 < u.length := List.length_pos_iff.mpr hne
    rw [List.length_append] at hlen
    cases bound with
    | nil => simp only [List.length_nil] at hlen; omega
    | cons b bound =>
      rw [List.append_assoc] at hc
      obtain ⟨mid, hmid, hrest⟩ := hread c hc
      rw [List.length_cons] at hlen
      obtain ⟨last, hlast, hend⟩ := ih bound (by omega) mid hrest
      refine ⟨last, ?_, hend⟩
      rw [manyAlong_cons, hmid]
      simp [hlast]

theorem reads_many {p : Rule α} {u rest : List Char} {as : List α} (hstop : Refuses p rest)
    (h : Repeats (fun u a rest => Reads p u a rest ∧ u ≠ []) rest u as) :
    Reads (many p) u as rest := by
  intro c hc
  refine reads_manyAlong hstop c.rest h ?_ c hc
  rw [hc, List.length_append]
  omega

/-! ## Terminals -/

theorem mark_eq_some {m : Mark} {c next : Cursor} (h : (mark m c).result = some ((), next)) :
    c.rest = m.chars ++ next.rest := by
  unfold mark at h
  split at h
  · next hpre =>
    obtain ⟨t, ht⟩ := List.isPrefixOf_iff_prefix.mp hpre
    cases h
    show c.rest = m.chars ++ c.rest.drop m.chars.length
    rw [← ht, List.drop_left]
  · cases h

theorem sound_mark (m : Mark) : Sound (mark m) (fun u _ _ => u = m.chars) := by
  intro c a next h
  exact ⟨m.chars, mark_eq_some h, rfl⟩

theorem reads_mark (m : Mark) (rest : List Char) : Reads (mark m) m.chars () rest := by
  intro c hc
  refine ⟨⟨c.offset + m.chars.length, c.rest.drop m.chars.length⟩, ?_, ?_⟩
  · unfold mark
    rw [if_pos (by rw [hc]; exact List.isPrefixOf_iff_prefix.mpr ⟨rest, rfl⟩)]
  · show c.rest.drop m.chars.length = rest
    rw [hc, List.drop_left]

theorem refuses_mark {m : Mark} {text : List Char} (h : ¬ m.chars <+: text) :
    Refuses (mark m) text := by
  intro c hc
  unfold mark
  rw [if_neg (by rw [hc]; exact fun hpre => h (List.isPrefixOf_iff_prefix.mp hpre))]
  rfl

/-- A mark does not match where its first character does not stand. -/
theorem refuses_mark_of_avoids {m : Mark} {ch : Char} {more text : List Char}
    (hm : m.chars = ch :: more) (h : Avoids (· == ch) text) : Refuses (mark m) text := by
  apply refuses_mark
  rintro ⟨t, ht⟩
  have hhead : (ch == ch) = false := h ch (by rw [← ht, hm]; rfl)
  rw [beq_self_eq_true] at hhead
  cases hhead

theorem sound_oneOf (p : Char → Bool) (e : Expected) :
    Sound (oneOf p e) (fun u a _ => u = [a] ∧ p a = true) := by
  intro c a next h
  obtain ⟨k, text⟩ := c
  cases text with
  | nil => cases h
  | cons ch rest =>
    simp only [oneOf] at h
    split at h
    · next hp => cases h; exact ⟨[a], rfl, rfl, hp⟩
    · cases h

theorem reads_oneOf {p : Char → Bool} {ch : Char} (h : p ch = true) (e : Expected)
    (rest : List Char) : Reads (oneOf p e) [ch] ch rest := by
  intro c hc
  obtain ⟨k, text⟩ := c
  cases hc
  exact ⟨⟨k + 1, rest⟩, by simp [oneOf, h], rfl⟩

theorem refuses_oneOf {p : Char → Bool} {text : List Char} (h : Avoids p text) (e : Expected) :
    Refuses (oneOf p e) text := by
  intro c hc
  obtain ⟨k, rest⟩ := c
  cases hc
  cases rest with
  | nil => rfl
  | cons ch more => simp [oneOf, avoids_cons.mp h, refuse]

theorem sound_run (p : Char → Bool) (e : Expected) :
    Sound (run p e) (fun u a rest => a = u ∧ (∀ c ∈ u, p c = true) ∧ Avoids p rest) := by
  intro c a next h
  cases h
  refine ⟨c.rest.takeWhile p, ?_, rfl, ?_, avoids_dropWhile p c.rest⟩
  · exact List.takeWhile_append_dropWhile.symm
  · intro d hd
    exact List.mem_takeWhile_imp hd

theorem reads_run {p : Char → Bool} {u rest : List Char} (hu : ∀ c ∈ u, p c = true)
    (hrest : Avoids p rest) (e : Expected) : Reads (run p e) u u rest := by
  intro c hc
  refine ⟨c.skipWhile p, ?_, ?_⟩
  · unfold run
    rw [hc, takeWhile_append_of_avoids hu hrest]
  · show c.rest.dropWhile p = rest
    rw [hc, dropWhile_append_of_avoids hu hrest]

theorem sound_run1 (p : Char → Bool) (e : Expected) :
    Sound (run1 p e) (fun u a rest => a = u ∧ Run p p u ∧ Avoids p rest) := by
  intro c a next h
  obtain ⟨ch, mid, hch, h⟩ := bind_eq_some.mp h
  obtain ⟨more, last, hmore, h⟩ := bind_eq_some.mp h
  obtain ⟨rfl, rfl⟩ := pure_eq_some.mp h
  obtain ⟨u, hc, rfl, hp⟩ := (sound_oneOf p e).taken hch
  obtain ⟨v, hmid, rfl, hv, hav⟩ := (sound_run p e).taken hmore
  exact ⟨ch :: more, by rw [hc, hmid]; rfl, rfl, .mk hp hv, hav⟩

theorem reads_run1 {p : Char → Bool} {u rest : List Char} (hu : Run p p u)
    (hrest : Avoids p rest) (e : Expected) : Reads (run1 p e) u u rest := by
  obtain ⟨hc, hmore⟩ := hu
  exact Reads.bind (reads_oneOf hc e _) (Reads.bind_pure (reads_run hmore hrest e) rfl)

theorem refuses_run1 {p : Char → Bool} {text : List Char} (h : Avoids p text) (e : Expected) :
    Refuses (run1 p e) text :=
  Refuses.bind (refuses_oneOf h e)

theorem sound_word (first more : Char → Bool) (e : Expected) :
    Sound (word first more e)
      (fun u a rest => a = String.ofList u ∧ Run first more u ∧ Avoids more rest) := by
  intro c a next h
  obtain ⟨k, text⟩ := c
  cases text with
  | nil => cases h
  | cons ch rest =>
    simp only [word] at h
    split at h
    · next hfirst =>
      cases h
      refine ⟨ch :: rest.takeWhile more, ?_, rfl, .mk hfirst ?_, avoids_dropWhile more rest⟩
      · show ch :: rest = ch :: (rest.takeWhile more ++ rest.dropWhile more)
        rw [List.takeWhile_append_dropWhile]
      · intro d hd
        exact List.mem_takeWhile_imp hd
    · cases h

theorem reads_word {first more : Char → Bool} {u rest : List Char} (hu : Run first more u)
    (hrest : Avoids more rest) (e : Expected) :
    Reads (word first more e) u (String.ofList u) rest := by
  obtain @⟨ch, u, hfirst, hmore⟩ := hu
  intro c hc
  obtain ⟨k, text⟩ := c
  cases hc
  refine ⟨Cursor.skipWhile more ⟨k + 1, u ++ rest⟩, ?_, ?_⟩
  · show (if first ch = true then _ else _ : Attempt String).result = _
    rw [if_pos hfirst]
    show some (String.ofList (ch :: (u ++ rest).takeWhile more), _) = _
    rw [takeWhile_append_of_avoids hmore hrest]
    rfl
  · exact dropWhile_append_of_avoids hmore hrest

theorem refuses_word {first : Char → Bool} {text : List Char} (h : Avoids first text)
    (more : Char → Bool) (e : Expected) : Refuses (word first more e) text := by
  intro c hc
  obtain ⟨k, rest⟩ := c
  cases hc
  cases rest with
  | nil => rfl
  | cons ch rest => simp [word, avoids_cons.mp h, refuse]

theorem avoids_of_word_eq_none {first more : Char → Bool} {e : Expected} {c : Cursor}
    (h : (word first more e c).result = none) : Avoids first c.rest := by
  obtain ⟨k, text⟩ := c
  cases text with
  | nil => exact avoids_nil _
  | cons ch rest =>
    apply avoids_cons.mpr
    cases hch : first ch with
    | false => rfl
    | true => simp [word, hch] at h

theorem total_skipSpaces : Total skipSpaces :=
  fun _ => Option.some_ne_none _

theorem sound_skipSpaces :
    Sound skipSpaces (fun u _ rest => Blanks u ∧ Avoids isSpace rest) := by
  intro c a next h
  cases h
  refine ⟨c.rest.takeWhile isSpace, ?_, ?_, avoids_dropWhile isSpace c.rest⟩
  · exact List.takeWhile_append_dropWhile.symm
  · intro d hd
    exact List.mem_takeWhile_imp hd

theorem reads_skipSpaces {u rest : List Char} (hu : Blanks u) (hrest : Avoids isSpace rest) :
    Reads skipSpaces u () rest := by
  intro c hc
  refine ⟨c.skipWhile isSpace, rfl, ?_⟩
  show c.rest.dropWhile isSpace = rest
  rw [hc, dropWhile_append_of_avoids hu hrest]

theorem result_spaces (c : Cursor) :
    (spaces c).result =
      if c.rest.takeWhile isSpace = [] then none else some ((), c.skipWhile isSpace) := by
  have hiff : (c.skipWhile isSpace).offset = c.offset ↔ c.rest.takeWhile isSpace = [] := by
    rw [← List.length_eq_zero_iff]
    show c.offset + (c.rest.takeWhile isSpace).length = c.offset ↔ _
    omega
  show (if (c.skipWhile isSpace).offset = c.offset then none else _) = _
  simp only [hiff]

theorem sound_spaces : Sound spaces (fun u _ _ => Blanks u ∧ u ≠ []) := by
  intro c a next h
  rw [result_spaces] at h
  by_cases hnil : c.rest.takeWhile isSpace = []
  · rw [if_pos hnil] at h
    cases h
  · rw [if_neg hnil] at h
    cases h
    refine ⟨c.rest.takeWhile isSpace, List.takeWhile_append_dropWhile.symm, ?_, hnil⟩
    intro d hd
    exact List.mem_takeWhile_imp hd

theorem reads_spaces {u rest : List Char} (hu : Blanks u) (hne : u ≠ [])
    (hrest : Avoids isSpace rest) : Reads spaces u () rest := by
  intro c hc
  refine ⟨c.skipWhile isSpace, ?_, ?_⟩
  · rw [result_spaces, hc, takeWhile_append_of_avoids hu hrest, if_neg hne]
  · show c.rest.dropWhile isSpace = rest
    rw [hc, dropWhile_append_of_avoids hu hrest]

theorem refuses_spaces {text : List Char} (h : Avoids isSpace text) : Refuses spaces text := by
  intro c hc
  have htake : ([] ++ text).takeWhile isSpace = [] := takeWhile_append_of_avoids (by simp) h
  rw [result_spaces, hc]
  exact if_pos htake

theorem atEnd_eq_some {c next : Cursor} (h : (atEnd c).result = some ((), next)) :
    c.rest = [] ∧ next = c := by
  unfold atEnd at h
  split at h
  · next hnil =>
    cases h
    exact ⟨List.isEmpty_iff.mp hnil, rfl⟩
  · cases h

theorem reads_atEnd : Reads atEnd [] () [] := by
  intro c hc
  exact ⟨c, by simp [atEnd, hc], hc⟩

end Rule

end CommandShell.Grammar
