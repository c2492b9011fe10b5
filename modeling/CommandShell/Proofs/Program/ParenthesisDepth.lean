/-
# CommandShell.Proofs.Program.ParenthesisDepth -- how deeply the cutting of strings recurs

A string is cut by rules of which one refers to itself: the rule for balanced text, once for every
parenthesis that is open. The rule starts anew at every `$(` of a string, where the scan of the
whole text for nesting has come with some depth of its own. From there on the scan counts what the
rule counts, and starts at least as high; so in a text that the scan admits, the rule never recurs
more deeply than the limit.

That a rule recurs to a certain depth only is said by another rule that stands in for the calls
below (`balancedOver`): whatever that rule takes or reports, nothing comes of it.
-/
import CommandShell.Proofs.Program.NestingScope
import CommandShell.Proofs.Program.PieceRules

namespace CommandShell

open Grammar Grammar.Nesting Grammar.Rule

/-! ## Rules that agree -/

namespace Grammar.Rule

variable {α β : Type} {S T : List Char → Prop}

/-- Two rules that do the same on the given texts, in what they take and in what they report. -/
def AgreeOn (S : List Char → Prop) (p q : Rule α) : Prop := ∀ c : Cursor, S c.rest → p c = q c

/-- A rule that leads from the one kind of text to the other. -/
def Leads (S : List Char → Prop) (p : Rule α) (T : List Char → Prop) : Prop :=
  ∀ c a next, S c.rest → (p c).result = some (a, next) → T next.rest

theorem AgreeOn.refl (S : List Char → Prop) (p : Rule α) : AgreeOn S p p := fun _ _ => rfl

theorem AgreeOn.bind {p q : Rule α} {f g : α → Rule β} (h : AgreeOn S p q) (hleads : Leads S q T)
    (hfg : ∀ a, AgreeOn T (f a) (g a)) : AgreeOn S (p >>= f) (q >>= g) := by
  intro c hc
  show Rule.bind p f c = Rule.bind q g c
  unfold Rule.bind
  rw [h c hc]
  rcases hq : q c with ⟨_ | ⟨a, next⟩, refused⟩
  · rfl
  · have hnext : f a next = g a next := hfg a next (hleads c a next hc (by rw [hq]))
    simp only [hnext]

/-- Rules that agree, in front of a rule that goes on. -/
theorem AgreeOn.before {p q : Rule α} (h : AgreeOn S p q) (f : α → Rule β) :
    AgreeOn S (p >>= f) (q >>= f) :=
  h.bind (T := fun _ => True) (fun _ _ _ _ _ => trivial) fun a => .refl _ (f a)

theorem AgreeOn.orElse {p p' q q' : Rule α} (hp : AgreeOn S p p') (hq : AgreeOn S q q') :
    AgreeOn S (orElse p q) (orElse p' q') := by
  intro c hc
  unfold Rule.orElse
  rw [hp c hc, hq c hc]

theorem AgreeOn.manyAlong {p q : Rule α} (h : AgreeOn S p q) (hleads : Leads S q S)
    (bound : List Char) : AgreeOn S (manyAlong p bound) (manyAlong q bound) := by
  induction bound with
  | nil =>
    intro c hc
    unfold Rule.manyAlong
    rw [h c hc]
  | cons b bound ih =>
    intro c hc
    unfold Rule.manyAlong
    rw [h c hc]
    rcases hq : q c with ⟨_ | ⟨a, next⟩, refused⟩
    · rfl
    · have hnext := ih next (hleads c a next hc (by rw [hq]))
      simp only [hnext]

theorem AgreeOn.many {p q : Rule α} (h : AgreeOn S p q) (hleads : Leads S q S) :
    AgreeOn S (many p) (many q) :=
  fun c hc => h.manyAlong hleads c.rest c hc

theorem AgreeOn.never {p q : Rule α} (h : AgreeOn S p q) : AgreeOn S (never p) (never q) := by
  intro c hc
  unfold Rule.never
  rw [h c hc]

theorem AgreeOn.taken {p q : Rule α} (h : AgreeOn S p q) : AgreeOn S (taken p) (taken q) := by
  intro c hc
  unfold Rule.taken
  rw [h c hc]

/-- A rule that leaves an end of the text. -/
def Forward (p : Rule α) : Prop := Sound p (fun _ _ _ => True)

theorem Sound.forward {p : Rule α} {D : List Char → α → List Char → Prop} (h : Sound p D) :
    Forward p :=
  h.mono fun _ _ _ _ => trivial

theorem Forward.bind {p : Rule α} {f : α → Rule β} (hp : Forward p) (hf : ∀ a, Forward (f a)) :
    Forward (p >>= f) := by
  intro c b last h
  obtain ⟨a, next, hnext, hlast⟩ := bind_eq_some.mp h
  obtain ⟨u, hu, -⟩ := hp.taken hnext
  obtain ⟨v, hv, -⟩ := (hf a).taken hlast
  exact ⟨u ++ v, by rw [hu, hv, List.append_assoc], trivial⟩

theorem forward_pure (a : α) : Forward (pure a) :=
  fun c _ _ h => ⟨[], by rw [(pure_eq_some.mp h).2]; rfl, trivial⟩

theorem forward_never (p : Rule α) : Forward (never p) := by
  intro c a next h
  simp only [never] at h
  split at h
  · cases h
    exact ⟨[], rfl, trivial⟩
  · cases h

theorem forward_taken {p : Rule α} (hp : Forward p) : Forward (taken p) := by
  intro c a next h
  obtain ⟨r, hr, heq⟩ := Option.map_eq_some_iff.mp h
  cases heq
  exact hp.taken hr

end Grammar.Rule

namespace Piece

/-! ## Parentheses that are open -/

theorem level_append (u v : List Char) : level (u ++ v) = level u + level v := by
  unfold level
  rw [List.count_append, List.count_append]
  omega

/-- How many parentheses are open behind `$(` and the given text. -/
def openBehind (v : List Char) : Int := 1 + level v

/-- Behind `$(`, no more parentheses than the given number are open at once, up to the one that
closes the first or to the end of the text. -/
def NestsWithin (n : Nat) (text : List Char) : Prop :=
  ∀ v, v <+: text → (∀ q, q <+: v → q ≠ v → 0 < openBehind q) → openBehind v ≤ n

/-- Text in which every parenthesis has its other one. -/
structure Balanced (u : List Char) : Prop where
  closed : level u = 0
  /-- None is closed before it is opened. -/
  nonneg : ∀ q, q <+: u → 0 ≤ level q

theorem balanced_nil : Balanced [] where
  closed := rfl
  nonneg q hq := by
    rw [List.prefix_nil.mp hq]
    exact Int.le_refl 0

/-- A beginning of two texts is one of the first, or goes on into the second. -/
theorem prefix_append_cases {u v q : List Char} (h : q <+: u ++ v) :
    q <+: u ∨ ∃ t, t <+: v ∧ q = u ++ t := by
  rcases List.prefix_or_prefix_of_prefix h (List.prefix_append u v) with hq | ⟨t, rfl⟩
  · exact .inl hq
  · exact .inr ⟨t, (List.prefix_append_right_inj u).mp h, rfl⟩

theorem Balanced.append {u v : List Char} (hu : Balanced u) (hv : Balanced v) :
    Balanced (u ++ v) where
  closed := by rw [level_append, hu.closed, hv.closed, Int.add_zero]
  nonneg q hq := by
    rcases prefix_append_cases hq with hq | ⟨t, ht, rfl⟩
    · exact hu.nonneg q hq
    · rw [level_append, hu.closed, Int.zero_add]
      exact hv.nonneg t ht

theorem balanced_other {c : Char} (hc : isOther c = true) : Balanced [c] := by
  have hparens : c ≠ '(' ∧ c ≠ ')' := by simpa [isOther] using hc
  have hlevel : level [c] = 0 := by simp [level, hparens]
  refine ⟨hlevel, fun q hq => ?_⟩
  rcases List.prefix_concat_iff.mp (show q <+: [] ++ [c] from hq) with rfl | hq
  · exact Int.le_of_eq hlevel.symm
  · exact balanced_nil.nonneg q hq

theorem balanced_enclosed {u : List Char} (hu : Balanced u) : Balanced ('(' :: (u ++ [')'])) := by
  have hopen (t : List Char) : level ('(' :: t) = 1 + level t := level_cons '(' t
  have hclose : level [')'] = -1 := rfl
  constructor
  · rw [hopen, level_append, hu.closed, hclose]
    rfl
  · intro q hq
    rcases List.prefix_cons_iff.mp hq with rfl | ⟨t, rfl, ht⟩
    · exact Int.le_refl 0
    · rw [hopen]
      rcases List.prefix_concat_iff.mp ht with rfl | ht
      · rw [level_append, hu.closed, hclose]
        decide
      · have hnonneg := hu.nonneg t ht
        omega

/-- Balanced text in front changes nothing. -/
theorem NestsWithin.behind {n : Nat} {u v : List Char} (hu : Balanced u)
    (h : NestsWithin n (u ++ v)) : NestsWithin n v := by
  intro w hw hopen
  have hsame (t : List Char) : openBehind (u ++ t) = openBehind t := by
    rw [openBehind, openBehind, level_append, hu.closed, Int.zero_add]
  rw [← hsame]
  refine h (u ++ w) ((List.prefix_append_right_inj u).mpr hw) fun q hq hne => ?_
  rcases prefix_append_cases hq with hq | ⟨t, ht, rfl⟩
  · have hnonneg := hu.nonneg q hq
    rw [openBehind]
    omega
  · rw [hsame]
    exact hopen t ht (fun heq => hne (by rw [heq]))

/-- Inside of a pair there is one level less. -/
theorem NestsWithin.inside {n : Nat} {v : List Char} (h : NestsWithin (n + 1) ('(' :: v)) :
    NestsWithin n v := by
  intro w hw hopen
  have hdeeper (t : List Char) : openBehind ('(' :: t) = openBehind t + 1 := by
    rw [openBehind, openBehind, level_cons, weight_open]
    omega
  have hall := h ('(' :: w) (List.cons_prefix_cons.mpr ⟨rfl, hw⟩) fun q hq hne => ?_
  · rw [hdeeper] at hall
    omega
  · rcases List.prefix_cons_iff.mp hq with rfl | ⟨t, rfl, ht⟩
    · exact Int.zero_lt_one
    · have hpos := hopen t ht (fun heq => hne (by rw [heq]))
      rw [hdeeper]
      omega

theorem not_nestsWithin_zero (text : List Char) : ¬ NestsWithin 0 text := by
  intro h
  have hone := h [] List.nil_prefix (fun q hq hne => absurd (List.prefix_nil.mp hq) hne)
  exact absurd hone (by decide)

/-! ## What the scan bounds -/

/-- Where the scan stands at least as high as the count, it stays so until the count comes to
zero: what it does not count outside of a substitution does not matter there. -/
theorem level_le_depth {g : Gauge} {z : Int} {v : List Char} (hz : z ≤ g.depth)
    (hopen : ∀ q, q <+: v → q ≠ v → 0 < z + level q) : z + level v ≤ (g.after v).depth := by
  induction v generalizing g z with
  | nil =>
    show z + 0 ≤ g.depth
    omega
  | cons c v ih =>
    have hpos : 0 < z + 0 := hopen [] List.nil_prefix (List.cons_ne_nil c v).symm
    have hstep : z + weight c ≤ (g.step c).depth := by
      have hinside : 0 < g.depth := by omega
      unfold weight Gauge.step
      split
      · -- above zero the scan counts a plain parenthesis too
        simp [hinside]
        omega
      · split
        · simp only
          omega
        · simpa using hz
    have hrest := ih hstep fun q hq hne => by
      have hbehind := hopen (c :: q) (List.cons_prefix_cons.mpr ⟨rfl, hq⟩)
        (fun heq => hne (List.cons.inj heq).2)
      rwa [level_cons, ← Int.add_assoc] at hbehind
    rw [level_cons, ← Int.add_assoc]
    exact hrest

/-- Behind every `$(` of an admitted text, parentheses nest within the limit. -/
theorem nestsWithin_of_admitted {limit : Nat} {source front behind back : List Char}
    (hadmitted : firstExcess limit source = none)
    (hsource : source = front ++ '$' :: '(' :: behind ++ back) : NestsWithin limit behind := by
  rintro v ⟨w, rfl⟩ hopen
  have hstart : (1 : Int) ≤ (Gauge.start.after (front ++ ['$', '('])).depth := by
    rw [Gauge.after_append]
    show (1 : Int) ≤ (((Gauge.start.after front).step '$').step '(').depth
    rw [show ((Gauge.start.after front).step '$').step '(' = _ from Gauge.step_open]
    simp only
    omega
  have hdepth := level_le_depth hstart hopen
  have hsplit : source = (front ++ ['$', '('] ++ v) ++ (w ++ back) := by
    rw [hsource]
    simp
  have hpeak : (Gauge.start.after (front ++ ['$', '('] ++ v)).depth ≤ limit :=
    calc (Gauge.start.after (front ++ ['$', '('] ++ v)).depth
        ≤ Gauge.start.peak (front ++ ['$', '('] ++ v) := Gauge.after_depth_le_peak _ _
      _ ≤ Gauge.start.peak source := by rw [hsplit]; exact Gauge.peak_le_peak_append _ _ _
      _ ≤ limit := (firstExcess_eq_none_iff _ _).mp hadmitted
  rw [Gauge.after_append] at hpeak
  rw [openBehind]
  omega

/-! ## How deeply the rule for balanced text calls itself -/

/-- Balanced text by recursion to the given depth, with another rule in place of the calls below.
What that rule takes or reports is part of the attempt wherever it is tried. -/
def balancedOver (deeper : Rule Unit) : Nat → Rule Unit
  | 0 => deeper
  | n + 1 => balanced (balancedOver deeper n)

-- of two levels, one is not enough: the call below reports where it was made
example : (enclosing (balancedOver (refuse .identifier) 1) ⟨1, "((b".toList⟩).refusals =
    ⟨3, [.identifier]⟩ := rfl

/-! ### What the rule takes is balanced -/

theorem sound_such (p : Char → Bool) : Sound (such p) (fun u _ _ => ∃ c, u = [c] ∧ p c = true) := by
  rintro ⟨k, text⟩ a next h
  cases text with
  | nil => cases h
  | cons c rest =>
    simp only [such] at h
    split at h
    · next hc =>
      cases h
      exact ⟨[c], rfl, c, rfl, hc⟩
    · cases h

theorem sound_one (d : Char) : Sound (one d) (fun u _ _ => u = [d]) := by
  refine (sound_such _).mono ?_
  rintro u - - ⟨c, rfl, hc⟩
  rw [beq_iff_eq.mp hc]

theorem balanced_of_repeats {rest v : List Char} {as : List Unit}
    (h : Repeats (fun u _ _ => Balanced u) rest v as) : Balanced v := by
  induction h with
  | nil => exact balanced_nil
  | cons hu _ ih => exact hu.append ih

theorem sound_enclosing {p : Rule Unit} (hp : Sound p (fun u _ _ => Balanced u)) :
    Sound (enclosing p) (fun u _ _ => Balanced u) := by
  intro c a last h
  obtain ⟨_, next, hopen, h⟩ := bind_eq_some.mp h
  obtain ⟨as, next', hmany, hclose⟩ := bind_eq_some.mp h
  obtain ⟨_, hc, rfl⟩ := (sound_one '(').taken hopen
  obtain ⟨v, hv, hrepeats⟩ := hp.many.taken hmany
  obtain ⟨_, hlast, rfl⟩ := (sound_one ')').taken hclose
  refine ⟨'(' :: (v ++ [')']), ?_, balanced_enclosed (balanced_of_repeats hrepeats)⟩
  rw [hc, hv, hlast]
  simp

theorem sound_balancedWithin (n : Nat) :
    Sound (balancedWithin n) (fun u _ _ => Balanced u) := by
  induction n with
  | zero =>
    intro c a next h
    cases h
  | succ n ih =>
    refine (sound_enclosing ih).orElse ((sound_such isOther).mono ?_)
    rintro u - - ⟨c, rfl, hc⟩
    exact balanced_other hc

/-! ### What stands in for the calls below does not matter -/

theorem nestsWithin_leads (n m : Nat) :
    Leads (NestsWithin n) (balancedWithin m) (NestsWithin n) := by
  intro c a next hc h
  obtain ⟨u, hu, hbalanced⟩ := (sound_balancedWithin m).taken h
  rw [hu] at hc
  exact hc.behind hbalanced

/-- Behind an opening parenthesis, the recursion has one level less. -/
theorem agreeOn_enclosing {S : List Char → Prop} {n m : Nat} {p : Rule Unit}
    (hinside : ∀ text, S ('(' :: text) → NestsWithin n text)
    (hp : AgreeOn (NestsWithin n) p (balancedWithin m)) :
    AgreeOn S (enclosing p) (enclosing (balancedWithin m)) := by
  refine (AgreeOn.refl S (one '(')).bind (T := NestsWithin n) ?_ fun _ => ?_
  · intro c _ next hc h
    obtain ⟨_, hrest, rfl⟩ := (sound_one '(').taken h
    rw [hrest] at hc
    exact hinside next.rest hc
  · exact (hp.many (nestsWithin_leads n m)).before _

/-- In text that nests within a number of levels, what stands in for the calls below does not
matter, and neither do further levels. -/
theorem agreeOn_balancedOver (deeper : Rule Unit) {n m : Nat} (hnm : n ≤ m) :
    AgreeOn (NestsWithin n) (balancedOver deeper n) (balancedWithin m) := by
  -- at the last level nothing is left to be tried: no text nests within none
  induction n generalizing m with
  | zero => exact fun c hc => absurd hc (not_nestsWithin_zero c.rest)
  | succ n ih =>
    obtain ⟨m, rfl⟩ : ∃ k, m = k + 1 := ⟨m - 1, by omega⟩
    have hinner : AgreeOn (NestsWithin n) (balancedOver deeper n) (balancedWithin m) :=
      ih (by omega)
    exact (agreeOn_enclosing (fun _ => NestsWithin.inside) hinner).orElse (AgreeOn.refl _ _)

theorem balancedOver_none (n : Nat) :
    balancedOver (fun _ => ⟨none, .none⟩) n = balancedWithin n := by
  induction n with
  | zero => rfl
  | succ n ih =>
    show balanced (balancedOver _ n) = balanced (balancedWithin n)
    rw [ih]

/-! ## Whole strings -/

/-- A string behind whose every `$(` parentheses nest within the number. -/
def Shallow (n : Nat) (raw : List Char) : Prop :=
  ∀ front behind, raw = front ++ '$' :: '(' :: behind → NestsWithin n behind

theorem Shallow.behind {n : Nat} {u v : List Char} (h : Shallow n (u ++ v)) : Shallow n v := by
  rintro front behind rfl
  exact h (u ++ front) behind (by simp)

theorem shallow_leads {α : Type} {n : Nat} {p : Rule α} (hp : Forward p) :
    Leads (Shallow n) p (Shallow n) := by
  intro c a next hc h
  obtain ⟨u, hu, -⟩ := hp.taken h
  rw [hu] at hc
  exact hc.behind

theorem forward_such (p : Char → Bool) : Forward (such p) := (sound_such p).forward

theorem forward_one (d : Char) : Forward (one d) := (sound_one d).forward

theorem forward_name : Forward name :=
  (forward_such _).bind fun _ => (forward_such _).many.forward.bind fun _ => forward_pure ()

theorem forward_substitution (n : Nat) : Forward (substitution n) := by
  have hparens : Forward (parenthesized n) :=
    (forward_one '$').bind fun _ => (sound_enclosing (sound_balancedWithin n)).forward
  have hbraced : Forward bracedName :=
    (forward_one '$').bind fun _ => (forward_one '\x7b').bind fun _ =>
      forward_name.bind fun _ => forward_one '\x7d'
  have hplain : Forward plainName := (forward_one '$').bind fun _ => forward_name
  exact hparens.orElse (hbraced.orElse hplain)

theorem forward_textStep (n : Nat) : Forward (textStep n) := by
  have hpair := (forward_one '\\').bind fun _ => forward_such (fun _ => true)
  have hsingle := (forward_never (substitution n)).bind fun _ => forward_such (fun _ => true)
  exact hpair.orElse hsingle

theorem forward_piece (n : Nat) : Forward (piece n) := by
  have hmany := (forward_textStep n).many.forward
  have hrun : Forward (textRun n) :=
    (forward_textStep n).bind fun _ => hmany.bind fun _ => forward_pure ()
  have hspan := (forward_taken (forward_substitution n)).bind fun u => forward_pure (Cut.span u)
  have htext := (forward_taken hrun).bind fun u => forward_pure (Cut.text u)
  exact hspan.orElse htext

section

variable {n m : Nat} (hnm : n ≤ m)

include hnm

theorem agreeOn_substitution : AgreeOn (Shallow n) (substitution n) (substitution m) := by
  have hwithin := agreeOn_balancedOver (fun _ => ⟨none, .none⟩) hnm
  rw [balancedOver_none] at hwithin
  have hparens : AgreeOn (Shallow n) (parenthesized n) (parenthesized m) := by
    refine (AgreeOn.refl _ (one '$')).bind (T := fun text => Shallow n ('$' :: text)) ?_ fun _ => ?_
    · intro c _ next hc h
      obtain ⟨_, hrest, rfl⟩ := (sound_one '$').taken h
      rwa [hrest] at hc
    · exact agreeOn_enclosing (fun text hshallow => hshallow [] text rfl) hwithin
  exact hparens.orElse (.refl _ _)

theorem agreeOn_textStep : AgreeOn (Shallow n) (textStep n) (textStep m) :=
  (AgreeOn.refl _ _).orElse ((agreeOn_substitution hnm).never.before _)

theorem agreeOn_piece : AgreeOn (Shallow n) (piece n) (piece m) := by
  have hrun : AgreeOn (Shallow n) (textRun n) (textRun m) :=
    (agreeOn_textStep hnm).bind (shallow_leads (forward_textStep m)) fun _ =>
      ((agreeOn_textStep hnm).many (shallow_leads (forward_textStep m))).before _
  exact ((agreeOn_substitution hnm).taken.before _).orElse (hrun.taken.before _)

theorem agreeOn_pieces : AgreeOn (Shallow n) (pieces n) (pieces m) :=
  ((agreeOn_piece hnm).many (shallow_leads (forward_piece m))).before _

end

/-- A string that is cut by recursion to the given depth. -/
structure CutWithin (limit : Nat) (raw : List Char) : Prop where
  /-- Behind every `$(`, no more parentheses are open at once. -/
  depth : ∀ front behind, raw = front ++ '$' :: '(' :: behind → NestsWithin limit behind
  /-- There the rule for balanced text makes no call below: whatever stands in for such calls, what
  is taken and reported is the same, and it is what more levels take and report. -/
  calls : ∀ front behind, raw = front ++ '$' :: '(' :: behind →
    ∀ (deeper : Rule Unit) (n offset : Nat), limit ≤ n →
      enclosing (balancedOver deeper limit) ⟨offset, '(' :: behind⟩ =
        enclosing (balancedWithin n) ⟨offset, '(' :: behind⟩
  /-- The rules with so many levels find the pieces of the string. -/
  pieces : ∃ last, (pieces limit (Cursor.start raw)).result = some (cut raw, last) ∧ last.rest = []

theorem Shallow.cutWithin {limit : Nat} {raw : List Char} (h : Shallow limit raw) :
    CutWithin limit raw where
  depth := h
  calls front behind hraw deeper n offset hn := by
    have hopen := agreeOn_enclosing (S := (· = '(' :: behind))
      (fun text htext => (List.cons.inj htext).2 ▸ h front behind hraw)
      (agreeOn_balancedOver deeper hn)
    exact hopen ⟨offset, '(' :: behind⟩ rfl
  pieces := by
    have hread := reads_pieces (exact_cut raw) (Nat.le_max_right limit raw.length)
    rw [agreeOn_pieces (Nat.le_max_left limit raw.length) (Cursor.start raw) h]
    exact hread (Cursor.start raw) (List.append_nil raw).symm

/-- Every stretch of an admitted text is shallow. -/
theorem shallow_of_stretch {limit : Nat} {source raw : List Char}
    (hadmitted : firstExcess limit source = none) (hraw : raw <:+: source) : Shallow limit raw := by
  rintro front behind rfl
  obtain ⟨a, b, rfl⟩ := hraw
  have hsource : a ++ (front ++ '$' :: '(' :: behind) ++ b =
      (a ++ front) ++ '$' :: '(' :: behind ++ b := by
    simp
  exact nestsWithin_of_admitted hadmitted hsource

end Piece

namespace Reader

open Piece

theorem Returns.strings_standIn {r : Reader} {rule : StartRule} {source : String} {b : Body}
    (h : r.Returns rule source b) : ∀ w ∈ b.strings, StandsIn source.toList w := by
  intro w hw
  cases rule with
  | program =>
    obtain ⟨t, ht, s, hs, hb⟩ := h
    refine (programTree_eq_ok_iff.mp ht).2.strings_standIn w (List.mem_flatMap.mpr ⟨s, hs, ?_⟩)
    rw [Option.mem_def.mp hb]
    exact hw
  | expression => exact (expressionTree_eq_ok_iff.mp h).2.strings_standIn w hw

/-- In a text whose nesting is admitted, every stretch is cut within the limit, and with it whatever
stands between two quotes: behind a `$(` no more parentheses are open at once than the limit says,
and the rule for balanced text does not recur more deeply. So it is with every string of the tree of
the text, if it has one. -/
theorem strings_cutWithin {r : Reader} {source : String}
    (h : firstExcess r.maxNesting source.toList = none) :
    (∀ raw, raw <:+: source.toList → CutWithin r.maxNesting raw) ∧
    ∀ rule b, r.Returns rule source b → ∀ w ∈ b.strings, CutWithin r.maxNesting w.toList := by
  refine ⟨fun raw hraw => (shallow_of_stretch h hraw).cutWithin, fun rule b hb w hw => ?_⟩
  cases hb.strings_standIn w hw with
  | bare hbare =>
    have hdollar : '$' ∉ w.toList := hbare.not_mem rfl rfl
    refine Shallow.cutWithin fun front behind hraw => absurd ?_ hdollar
    rw [hraw]
    simp
  | quoted _ haround =>
    exact (shallow_of_stretch h (List.IsInfix.trans ⟨['"'], ['"'], rfl⟩ haround)).cutWithin

/-- Three parentheses that are never closed, under a limit that just admits them. -/
theorem strings_cutWithin_unclosed :
    firstExcess 2 "a \"$(b ((c\"".toList = some ⟨1, 9⟩ ∧
    firstExcess 3 "a \"$(b ((c\"".toList = none ∧ CutWithin 3 "$(b ((c".toList ∧
    ∃ b, Returns { maxNesting := 3 } .program "a \"$(b ((c\"" b ∧
      "$(b ((c" ∈ b.strings ∧ CutWithin 3 "$(b ((c".toList := by
  have hadmitted : firstExcess 3 "a \"$(b ((c\"".toList = none := by decide
  obtain ⟨hstretches, hstrings⟩ := strings_cutWithin (r := { maxNesting := 3 }) hadmitted
  have hreturns : Returns { maxNesting := 3 } .program "a \"$(b ((c\""
      (.command "a" [.expr (.quoted "$(b ((c")]) :=
    ⟨_, rfl, _, List.mem_singleton_self _, rfl⟩
  have hmem : "$(b ((c" ∈ (Body.command "a" [.expr (.quoted "$(b ((c")]).strings :=
    List.mem_singleton_self _
  exact ⟨by decide, hadmitted, hstretches _ ⟨"a \"".toList, "\"".toList, by decide⟩, _, hreturns,
    hmem, hstrings _ _ hreturns _ hmem⟩

end Reader

end CommandShell
