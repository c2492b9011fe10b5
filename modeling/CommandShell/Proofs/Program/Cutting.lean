/-
# CommandShell.Proofs.Program.Cutting -- where a string is cut

What a complete substitution is, is said here without the search for its end: a name in braces, a
name as long as it goes, or parentheses that close where the count of opening ones minus closing
ones comes back to zero for the first time. A string is cut at the complete substitutions that start
outside of text, and at no other place: that its pieces are substitutions and text of this kind
(`Exact`) is true of one cut of the string, and it is the one that is made.
-/
import CommandShell.Proofs.Program.Substitution
import Mathlib.Data.List.Chain

namespace CommandShell.Piece

open Grammar

/-! ## Counting parentheses -/

/-- What a character adds to the count of open parentheses. -/
def weight (c : Char) : Int := if c = '(' then 1 else if c = ')' then -1 else 0

theorem weight_open : weight '(' = 1 := rfl

theorem weight_close : weight ')' = -1 := rfl

/-- The count of opening parentheses minus closing ones. -/
def level (u : List Char) : Int := u.count '(' - u.count ')'

theorem level_cons (c : Char) (u : List Char) : level (c :: u) = weight c + level u := by
  unfold level weight
  rw [List.count_cons, List.count_cons]
  by_cases hopen : c = '('
  · subst hopen
    simp
    omega
  · by_cases hclose : c = ')'
    · subst hclose
      simp
      omega
    · simp [hopen, hclose]

/-- The count comes to a number at the end of a text and not before. -/
def Hits (z : Int) (u : List Char) : Prop := level u = z ∧ ∀ v, v <+: u → level v = z → v = u

theorem hits_nil {z : Int} : Hits z [] ↔ z = 0 := by
  constructor
  · exact fun h => h.1.symm
  · rintro rfl
    exact ⟨rfl, fun v hv _ => List.prefix_nil.mp hv⟩

theorem hits_cons {z : Int} (hz : z ≠ 0) {c : Char} {u : List Char} :
    Hits z (c :: u) ↔ Hits (z - weight c) u := by
  unfold Hits
  rw [level_cons]
  refine and_congr (by omega) ⟨fun h v hv hlevel => ?_, fun h v hv hlevel => ?_⟩
  · have hsame := h (c :: v) (List.cons_prefix_cons.mpr ⟨rfl, hv⟩) (by rw [level_cons]; omega)
    exact (List.cons.inj hsame).2
  · cases v with
    | nil => exact absurd hlevel.symm hz
    | cons d v =>
      obtain ⟨rfl, hprefix⟩ := List.cons_prefix_cons.mp hv
      rw [level_cons] at hlevel
      rw [h v hprefix (by omega)]

theorem hits_zero {u : List Char} : Hits 0 u ↔ u = [] :=
  ⟨fun h => (h.2 [] List.nil_prefix rfl).symm, fun h => h ▸ hits_nil.mpr rfl⟩

/-- The count comes to a number behind so many characters of a text, and not before. -/
def HitsAt (z : Int) (text : List Char) (k : Nat) : Prop :=
  ∃ u rest, text = u ++ rest ∧ u.length = k ∧ Hits z u

theorem not_hitsAt_nil {z : Int} (hz : z ≠ 0) (k : Nat) : ¬ HitsAt z [] k := by
  rintro ⟨u, rest, htext, -, hu⟩
  obtain ⟨rfl, -⟩ := List.append_eq_nil_iff.mp htext.symm
  exact hz (hits_nil.mp hu)

theorem hitsAt_zero {text : List Char} {k : Nat} : HitsAt 0 text k ↔ k = 0 := by
  constructor
  · rintro ⟨u, rest, -, rfl, hu⟩
    rw [hits_zero.mp hu]
    rfl
  · rintro rfl
    exact ⟨[], text, rfl, rfl, hits_zero.mpr rfl⟩

theorem hitsAt_cons {z : Int} (hz : z ≠ 0) {c : Char} {text : List Char} {k : Nat} :
    HitsAt z (c :: text) k ↔ ∃ j, HitsAt (z - weight c) text j ∧ j + 1 = k := by
  constructor
  · rintro ⟨_ | ⟨d, u⟩, rest, htext, rfl, hu⟩
    · exact absurd (hits_nil.mp hu) hz
    · obtain ⟨rfl, rfl⟩ := List.cons.inj htext
      exact ⟨u.length, ⟨u, rest, rfl, rfl, (hits_cons hz).mp hu⟩, rfl⟩
  · rintro ⟨_, ⟨u, rest, rfl, rfl, hu⟩, rfl⟩
    exact ⟨c :: u, rest, rfl, rfl, (hits_cons hz).mpr hu⟩

/-- The last case of the search, where neither of the two before it applies. -/
theorem ne_close {depth : Nat} {c : Char} (hzero : depth = 0 → c = ')' → False)
    (hsucc : ∀ d, depth = d + 1 → c = ')' → False) : c ≠ ')' := by
  rintro rfl
  cases depth with
  | zero => exact hzero rfl rfl
  | succ d => exact hsucc d rfl rfl

/-- The search for the closing parenthesis finds the place where the count has closed all that are
open, for the first time. -/
theorem closing?_eq_some_iff {depth : Nat} {text : List Char} {k : Nat} :
    closing? depth text = some k ↔ HitsAt (-(depth + 1)) text k := by
  fun_induction closing? depth text generalizing k with
  | case1 depth => exact iff_of_false (Option.some_ne_none k).symm (not_hitsAt_nil (by omega) k)
  | case2 depth rest ih =>
    rw [Option.map_eq_some_iff, hitsAt_cons (by omega)]
    have hdeeper : (-(depth + 1) : Int) - weight '(' = -((depth + 1 : Nat) + 1) := by
      rw [weight_open]
      omega
    simp only [ih, hdeeper]
  | case3 rest =>
    rw [hitsAt_cons (by omega)]
    have hclosed : (-((0 : Nat) + 1) : Int) - weight ')' = 0 := by decide
    simp only [hclosed, hitsAt_zero]
    simp [eq_comm]
  | case4 depth rest ih =>
    rw [Option.map_eq_some_iff, hitsAt_cons (by omega)]
    have hless : (-((depth + 1 : Nat) + 1) : Int) - weight ')' = -(depth + 1) := by
      rw [weight_close]
      omega
    simp only [ih, hless]
  | case5 depth c rest hopen hclose hclose' ih =>
    rw [Option.map_eq_some_iff, hitsAt_cons (by omega)]
    have hsame : (-(depth + 1) : Int) - weight c = -(depth + 1) := by
      simp [weight, show c ≠ '(' from hopen, ne_close hclose hclose']
    simp only [ih, hsame]

/-! ## Complete substitutions -/

/-- The complete substitutions, before the given text. -/
inductive Complete : List Char → List Char → Prop
  /-- A name in braces. -/
  | braced {name rest : List Char} : NameText name →
      Complete ('$' :: '\x7b' :: (name ++ ['\x7d'])) rest
  /-- A name, as long as it goes. -/
  | named {name rest : List Char} : NameText name → Avoids isNameRest rest →
      Complete ('$' :: name) rest
  /-- Parentheses, up to where their count first comes back to zero. -/
  | enclosed {u rest : List Char} : level ('(' :: u) = 0 →
      (∀ v, v <+: '(' :: u → v ≠ [] → level v = 0 → v = '(' :: u) → Complete ('$' :: '(' :: u) rest

/-- A complete substitution starts the text. -/
def Starts (text : List Char) : Prop := ∃ u rest, text = u ++ rest ∧ Complete u rest

theorem hits_of_enclosed {u : List Char} (hlevel : level ('(' :: u) = 0)
    (hfirst : ∀ v, v <+: '(' :: u → v ≠ [] → level v = 0 → v = '(' :: u) : Hits (-1) u := by
  have hweight := weight_open
  rw [level_cons] at hlevel
  refine ⟨by omega, fun v hv hlevel' => ?_⟩
  have hsame := hfirst ('(' :: v) (List.cons_prefix_cons.mpr ⟨rfl, hv⟩) (List.cons_ne_nil _ _)
    (by rw [level_cons]; omega)
  exact (List.cons.inj hsame).2

theorem enclosed_of_hits {u : List Char} (h : Hits (-1) u) (rest : List Char) :
    Complete ('$' :: '(' :: u) rest := by
  have hweight := weight_open
  refine .enclosed (by rw [level_cons, h.1]; rfl) (fun v hv hne hlevel => ?_)
  cases v with
  | nil => exact absurd rfl hne
  | cons c v =>
    obtain ⟨rfl, hprefix⟩ := List.cons_prefix_cons.mp hv
    rw [level_cons] at hlevel
    rw [h.2 v hprefix (by omega)]

theorem closing?_of_enclosed {u : List Char} (hlevel : level ('(' :: u) = 0)
    (hfirst : ∀ v, v <+: '(' :: u → v ≠ [] → level v = 0 → v = '(' :: u) (rest : List Char) :
    closing? 0 (u ++ rest) = some u.length :=
  closing?_eq_some_iff.mpr ⟨u, rest, rfl, rfl, hits_of_enclosed hlevel hfirst⟩

theorem spanLength?_of_complete {u rest : List Char} (h : Complete u rest) :
    spanLength? (u ++ rest) = some u.length := by
  cases h with
  | @braced name _ hname =>
    have hlength := spanLength?_braced hname rest
    simpa using hlength
  | named hname hrest => exact spanLength?_named hname hrest
  | @enclosed u _ hlevel hfirst =>
    show (closing? 0 (u ++ rest)).map (· + 2) = _
    rw [closing?_of_enclosed hlevel hfirst rest]
    rfl

theorem nameLength?_eq_some {text : List Char} {n : Nat} (h : nameLength? text = some n) :
    ∃ name rest, text = name ++ rest ∧ name.length = n ∧ NameText name ∧
      Avoids isNameRest rest := by
  cases text with
  | nil => cases h
  | cons c rest =>
    rw [nameLength?] at h
    split at h
    · next hfirst =>
      obtain rfl := Option.some.inj h
      refine ⟨c :: rest.takeWhile isNameRest, rest.dropWhile isNameRest, ?_, rfl,
        .mk hfirst (fun d hd => List.mem_takeWhile_imp hd), avoids_dropWhile isNameRest rest⟩
      rw [List.cons_append, List.takeWhile_append_dropWhile]
    · cases h

theorem complete_of_spanLength? {text : List Char} {n : Nat} (h : spanLength? text = some n) :
    ∃ u rest, text = u ++ rest ∧ u.length = n ∧ Complete u rest := by
  unfold spanLength? at h
  split at h
  · next rest =>
    obtain ⟨k, hk, rfl⟩ := Option.map_eq_some_iff.mp h
    obtain ⟨u, rest, rfl, rfl, hu⟩ := closing?_eq_some_iff.mp hk
    exact ⟨'$' :: '(' :: u, rest, rfl, rfl, enclosed_of_hits hu rest⟩
  · next rest =>
    obtain ⟨k, hk, rfl⟩ := Option.map_eq_some_iff.mp h
    unfold bracedLength? at hk
    split at hk
    · cases hk
    · next n hn =>
      obtain ⟨name, rest, rfl, rfl, hname, -⟩ := nameLength?_eq_some hn
      rw [List.drop_left] at hk
      split at hk
      · next hclosing =>
        obtain rfl := Option.some.inj hk
        obtain ⟨rest, rfl⟩ := List.head?_eq_some_iff.mp hclosing
        exact ⟨_, rest, by simp, by simp, .braced hname⟩
      · cases hk
  · obtain ⟨k, hk, rfl⟩ := Option.map_eq_some_iff.mp h
    obtain ⟨name, rest, rfl, rfl, hname, hrest⟩ := nameLength?_eq_some hk
    exact ⟨'$' :: name, rest, rfl, rfl, .named hname hrest⟩
  · cases h

theorem spanLength?_eq_none_iff {text : List Char} : spanLength? text = none ↔ ¬ Starts text := by
  constructor
  · rintro h ⟨u, rest, rfl, hu⟩
    rw [spanLength?_of_complete hu] at h
    cases h
  · intro h
    rw [Option.eq_none_iff_forall_not_mem]
    intro n hn
    obtain ⟨u, rest, rfl, -, hu⟩ := complete_of_spanLength? hn
    exact h ⟨u, rest, rfl, hu⟩

theorem Complete.exists_cons {u rest : List Char} (h : Complete u rest) : ∃ v, u = '$' :: v := by
  cases h <;> exact ⟨_, rfl⟩

/-! ## Exact cuts -/

/-- The characters of a piece. -/
def Cut.raw : Cut → List Char
  | .text u => u
  | .span u => u

/-- Whether a piece is text. -/
def Cut.isText : Cut → Bool
  | .text _ => true
  | .span _ => false

/-- Pieces put together again. -/
def joined (cuts : List Cut) : List Char := cuts.flatMap Cut.raw

theorem joined_cons (c : Cut) (cuts : List Cut) : joined (c :: cuts) = c.raw ++ joined cuts :=
  List.flatMap_cons

/-- Two neighbours that are not both text. -/
def TakeTurns (a b : Bool) : Prop := a = false ∨ b = false

/-- The ends of a text that begin at a character which no backslash takes, where a backslash takes
the next character with it. -/
def freeTails : List Char → List (List Char)
  | [] => []
  | '\\' :: c :: rest => ('\\' :: c :: rest) :: freeTails rest
  | c :: rest => (c :: rest) :: freeTails rest

/-- What a piece is like that has the given text behind it: a complete substitution, or text in
which none starts. Text in front of another piece does not end with a backslash that still has a
character to take. -/
def Fits : Cut → List Char → Prop
  | .span u, rest => Complete u rest
  | .text u, rest => (∀ t ∈ freeTails u, ¬ Starts (t ++ rest)) ∧ (rest ≠ [] → ['\\'] ∉ freeTails u)

theorem fits_text {u rest : List Char} : Fits (.text u) rest ↔
    (∀ t ∈ freeTails u, ¬ Starts (t ++ rest)) ∧ (rest ≠ [] → ['\\'] ∉ freeTails u) := Iff.rfl

/-- A cut of a text exactly at its complete substitutions. -/
structure Exact (raw : List Char) (cuts : List Cut) : Prop where
  /-- Nothing is lost. -/
  lossless : joined cuts = raw
  /-- No piece is empty. -/
  filled : ∀ p ∈ cuts, p.raw ≠ []
  /-- No two pieces of text are neighbours. -/
  turns : (cuts.map Cut.isText).IsChain TakeTurns
  /-- The pieces are complete substitutions, and text without any. -/
  fits : ∀ front p back, cuts = front ++ p :: back → Fits p (joined back)

namespace Exact

theorem nil : Exact [] [] where
  lossless := rfl
  filled := by simp
  turns := .nil
  fits front p back h := by simp at h

variable {p : Cut} {raw : List Char} {cuts : List Cut}

theorem cons (hne : p.raw ≠ []) (hfits : Fits p raw)
    (hturn : ∀ q ∈ cuts.head?, TakeTurns p.isText q.isText) (h : Exact raw cuts) :
    Exact (p.raw ++ raw) (p :: cuts) where
  lossless := by rw [joined_cons, h.lossless]
  filled q hq := by
    rcases List.mem_cons.mp hq with rfl | hq
    · exact hne
    · exact h.filled q hq
  turns := by
    rw [List.map_cons, List.isChain_cons]
    refine ⟨fun b hb => ?_, h.turns⟩
    rw [List.head?_map] at hb
    obtain ⟨q, hq, rfl⟩ := Option.map_eq_some_iff.mp hb
    exact hturn q hq
  fits front q back heq := by
    cases front with
    | nil =>
      obtain ⟨rfl, rfl⟩ := List.cons.inj heq
      rw [h.lossless]
      exact hfits
    | cons r front => exact h.fits front q back (List.cons.inj heq).2

theorem of_cons (h : Exact raw (p :: cuts)) :
    raw = p.raw ++ joined cuts ∧ p.raw ≠ [] ∧ Fits p (joined cuts) ∧
      (∀ q ∈ cuts.head?, TakeTurns p.isText q.isText) ∧ Exact (joined cuts) cuts := by
  have hturns := h.turns
  rw [List.map_cons, List.isChain_cons] at hturns
  refine ⟨?_, h.filled p List.mem_cons_self, h.fits [] p cuts rfl, fun q hq => ?_, ?_⟩
  · rw [← joined_cons, h.lossless]
  · refine hturns.1 q.isText ?_
    rw [List.head?_map, Option.mem_def.mp hq]
    rfl
  · refine ⟨rfl, fun q hq => h.filled q (List.mem_cons_of_mem _ hq), hturns.2, ?_⟩
    intro front q back heq
    exact h.fits (p :: front) q back (congrArg (p :: ·) heq)

end Exact

/-! ## The cut that is made -/

/-- One step through text: a backslash with the character that it takes, or a character that is no
backslash with something to take. -/
inductive TextStep : List Char → List Char → Prop
  | pair (c : Char) (rest : List Char) : TextStep ['\\', c] rest
  | single {c : Char} {rest : List Char} : (c = '\\' → rest = []) → TextStep [c] rest

theorem TextStep.ne_nil {u rest : List Char} (h : TextStep u rest) : u ≠ [] := by
  cases h with
  | pair c _ => exact List.cons_ne_nil _ _
  | single _ => exact List.cons_ne_nil _ _

/-- Behind a step through text the ends of the rest are free as they are on their own. -/
theorem TextStep.freeTails_append {u rest more : List Char} (h : TextStep u rest)
    (hmore : more <+: rest) : freeTails (u ++ more) = (u ++ more) :: freeTails more := by
  cases h with
  | pair c _ => rw [List.cons_append, List.singleton_append, freeTails]
  | @single c _ hc =>
    rw [List.singleton_append, freeTails]
    rintro d more' hslash rfl
    rw [hc hslash] at hmore
    cases List.prefix_nil.mp hmore

theorem TextStep.freeTails {u rest : List Char} (h : TextStep u rest) : freeTails u = [u] := by
  have htails := h.freeTails_append List.nil_prefix
  rwa [List.append_nil] at htails

theorem not_starts_of_avoids {text : List Char} (h : Avoids (· == '$') text) : ¬ Starts text := by
  rintro ⟨u, more, rfl, hu⟩
  obtain ⟨v, rfl⟩ := hu.exists_cons
  cases avoids_cons.mp h

/-- Text put in front of an exact cut. -/
theorem Exact.prependText {u raw : List Char} {cuts : List Cut} (h : Exact raw cuts)
    (hstep : TextStep u raw) (hnone : ¬ Starts (u ++ raw)) :
    Exact (u ++ raw) (prependText u cuts) := by
  have halone : Fits (.text u) raw := by
    rw [fits_text, hstep.freeTails]
    refine ⟨fun t ht => ?_, fun hraw hslash => ?_⟩
    · rwa [List.mem_singleton.mp ht]
    · cases hstep with
      | pair c _ => cases List.mem_singleton.mp hslash
      | single hc => exact hraw (hc (List.cons.inj (List.mem_singleton.mp hslash)).1.symm)
  rcases cuts with _ | ⟨more | v, rest⟩
  · exact Exact.cons (p := .text u) hstep.ne_nil halone (by simp) h
  · -- the step is joined to the text behind it
    obtain ⟨rfl, hne, ⟨hfree, hwhole⟩, hturn, hrest⟩ := h.of_cons
    have htails := hstep.freeTails_append (List.prefix_append more (joined rest))
    have hfits : Fits (.text (u ++ more)) (joined rest) := by
      rw [fits_text, htails]
      refine ⟨fun t ht => ?_, fun hraw hslash => ?_⟩
      · rcases List.mem_cons.mp ht with rfl | ht
        · rwa [List.append_assoc]
        · exact hfree t ht
      · rcases List.mem_cons.mp hslash with heq | hslash
        · have hlength := congrArg List.length heq
          rw [List.length_append] at hlength
          have hu := List.length_pos_iff.mpr hstep.ne_nil
          have hmore := List.length_pos_iff.mpr hne
          simp only [List.length_singleton, Cut.raw] at hlength hmore
          omega
        · exact hwhole hraw hslash
    have hjoined := Exact.cons (p := .text (u ++ more))
      (List.append_ne_nil_of_left_ne_nil hstep.ne_nil more) hfits hturn hrest
    rwa [← List.append_assoc]
  · exact Exact.cons (p := .text u) hstep.ne_nil halone
      (fun q hq => by rw [← Option.some.inj hq]; exact .inr rfl) h

/-- Cutting cuts exactly at the complete substitutions, by induction along the cut. -/
theorem exact_cutFrom (skip : Nat) (text : List Char) :
    Exact (text.drop skip) (cutFrom skip text) := by
  fun_induction cutFrom skip text with
  | case1 skip => rw [List.drop_nil]; exact .nil
  | case2 skip c rest ih => exact ih
  | case3 d rest ih =>
    exact ih.prependText (.pair d rest) (not_starts_of_avoids (avoids_cons.mpr rfl))
  | case4 c rest _ n hspan ih =>
    obtain ⟨u, more, htext, rfl, hu⟩ := complete_of_spanLength? hspan
    obtain ⟨v, rfl⟩ := hu.exists_cons
    obtain ⟨rfl, hrest⟩ : c = '$' ∧ rest = v ++ more := List.cons.inj htext
    have hdrop : rest.drop (('$' :: v).length - 1) = more := by
      rw [hrest]
      exact List.drop_left
    have htake : ('$' :: rest).take ('$' :: v).length = '$' :: v := by
      rw [htext]
      exact List.take_left
    rw [hdrop] at ih
    rw [htake, List.drop_zero, htext]
    exact Exact.cons (p := .span ('$' :: v)) (List.cons_ne_nil _ _) hu (fun _ _ => .inl rfl) ih
  | case5 c rest hslash hnone ih =>
    refine ih.prependText (.single ?_) (spanLength?_eq_none_iff.mp hnone)
    rintro rfl
    cases rest with
    | nil => rfl
    | cons d rest => exact absurd rfl (hslash d rest rfl)

theorem exact_cut (raw : List Char) : Exact raw (cut raw) := exact_cutFrom 0 raw

/-! ## No other cut -/

/-- Cutting takes one step through text. -/
theorem cutFrom_textStep {u rest : List Char} (h : TextStep u rest) (hnone : ¬ Starts (u ++ rest)) :
    cutFrom 0 (u ++ rest) = prependText u (cutFrom 0 rest) := by
  cases h with
  | pair c _ => rw [List.cons_append, List.singleton_append, cutFrom]
  | @single c _ hc =>
    rw [List.singleton_append] at hnone ⊢
    rw [cutFrom, spanLength?_eq_none_iff.mpr hnone]
    rintro d more hslash rfl
    cases hc hslash

/-- Text without substitutions before the given text, one step after another. -/
inductive Plain (rest : List Char) : List Char → Prop
  | nil : Plain rest []
  | cons {u more : List Char} : TextStep u (more ++ rest) → ¬ Starts (u ++ (more ++ rest)) →
      Plain rest more → Plain rest (u ++ more)

theorem plain_of_fits {u rest : List Char} (h : Fits (.text u) rest) : Plain rest u := by
  rw [fits_text] at h
  fun_induction freeTails u with
  | case1 => exact .nil
  | case2 c more ih =>
    obtain ⟨hfree, hwhole⟩ := h
    refine .cons (u := ['\\', c]) (.pair c _) (hfree _ List.mem_cons_self) (ih ⟨?_, ?_⟩)
    · exact fun t ht => hfree t (List.mem_cons_of_mem _ ht)
    · exact fun hrest ht => hwhole hrest (List.mem_cons_of_mem _ ht)
  | case3 c more hslash ih =>
    obtain ⟨hfree, hwhole⟩ := h
    refine .cons (u := [c]) (.single ?_) (hfree _ List.mem_cons_self) (ih ⟨?_, ?_⟩)
    · rintro rfl
      cases more with
      | nil => exact Classical.not_not.mp (fun hrest => hwhole hrest List.mem_cons_self)
      | cons d more => exact absurd rfl (hslash d more rfl)
    · exact fun t ht => hfree t (List.mem_cons_of_mem _ ht)
    · exact fun hrest ht => hwhole hrest (List.mem_cons_of_mem _ ht)

/-- Text without substitutions is passed over. -/
theorem cutFrom_plain {u rest : List Char} (h : Plain rest u) (hne : u ≠ []) :
    cutFrom 0 (u ++ rest) = prependText u (cutFrom 0 rest) := by
  induction h with
  | nil => exact absurd rfl hne
  | @cons u more hstep hnone _ ih =>
    rw [List.append_assoc, cutFrom_textStep hstep hnone]
    by_cases hend : more = []
    · rw [hend, List.nil_append, List.append_nil]
    · rw [ih hend, prependText_append]

/-- There is no other exact cut, by induction on the pieces. -/
theorem Exact.eq_cut {raw : List Char} {cuts : List Cut} (h : Exact raw cuts) : cuts = cut raw := by
  induction cuts generalizing raw with
  | nil =>
    rw [← h.lossless]
    rfl
  | cons p cuts ih =>
    obtain ⟨rfl, hne, hfits, hturn, hrest⟩ := h.of_cons
    have hcuts := ih hrest
    cases p with
    | span u =>
      have hlength := spanLength?_of_complete hfits
      obtain ⟨v, rfl⟩ := Complete.exists_cons hfits
      show _ = cutFrom 0 ('$' :: (v ++ joined cuts))
      rw [cutFrom_span hlength]
      exact congrArg _ hcuts
    | text u =>
      show _ = cutFrom 0 (u ++ joined cuts)
      have hsame : cutFrom 0 (joined cuts) = cuts := hcuts.symm
      rw [cutFrom_plain (plain_of_fits hfits) hne, hsame]
      -- no text is behind, so the text in front stays a piece of its own
      rcases cuts with _ | ⟨more | v, cuts⟩
      · rfl
      · exact absurd (hturn (.text more) rfl) (by simp [TakeTurns, Cut.isText])
      · rfl

end CommandShell.Piece
