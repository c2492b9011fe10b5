/-
# CommandShell.Proofs.Program.PieceRules -- cutting by rules

A string can be cut by rules as well, of the kind that the grammar of the language has: ordered
choices, repetitions that take what they can, and what must not come next. Balanced parentheses are
then a rule that refers to itself, instead of a count. Nothing is ever tried again, so it has to be
shown that the rules do not stop short of a parenthesis that the count finds, nor go past it
(`stopsAtClose_balanced`). The rules then read every string to its end, and what they find are the
pieces that the string is cut into.
-/
import CommandShell.Proofs.Program.Cutting

namespace CommandShell

open Grammar Grammar.Rule

variable {α : Type}

/-! ## Rules that report nothing -/

namespace Grammar.Rule

/-- One character that passes the test. -/
def such (p : Char → Bool) : Rule Unit := fun c =>
  match c.rest with
  | [] => ⟨none, .none⟩
  | d :: rest => if p d then ⟨some ((), ⟨c.offset + 1, rest⟩), .none⟩ else ⟨none, .none⟩

/-- The given character. -/
def one (d : Char) : Rule Unit := such (· == d)

/-- Takes nothing, where the rule does not match. -/
def never (p : Rule α) : Rule Unit := fun c =>
  ⟨if (p c).result.isNone then some ((), c) else none, .none⟩

/-- The text that a rule takes. -/
def taken (p : Rule α) : Rule (List Char) := fun c =>
  ⟨(p c).result.map (fun r => (c.rest.take (c.rest.length - r.2.rest.length), r.2)), .none⟩

theorem reads_such {p : Char → Bool} {d : Char} (h : p d = true) (rest : List Char) :
    Reads (such p) [d] () rest := by
  intro c hc
  refine ⟨⟨c.offset + 1, rest⟩, ?_, rfl⟩
  rw [such, hc]
  simp [h]

theorem refuses_such {p : Char → Bool} {text : List Char} (h : Avoids p text) :
    Refuses (such p) text := by
  intro c hc
  rw [such, hc]
  cases text with
  | nil => rfl
  | cons d rest => simp [avoids_cons.mp h]

theorem avoids_of_head {d : Char} {text : List Char} (h : text.head? ≠ some d) :
    Avoids (· == d) text := by
  intro c hc
  refine beq_eq_false_iff_ne.mpr ?_
  rintro rfl
  exact h hc

theorem reads_one (d : Char) (rest : List Char) : Reads (one d) [d] () rest :=
  reads_such (p := (· == d)) (beq_self_eq_true d) rest

theorem refuses_one {c d : Char} (h : c ≠ d) (rest : List Char) : Refuses (one d) (c :: rest) :=
  refuses_such (avoids_cons.mpr (beq_eq_false_iff_ne.mpr h))

theorem reads_never {p : Rule α} {text : List Char} (h : Refuses p text) :
    Reads (never p) [] () text := by
  intro c hc
  refine ⟨c, ?_, hc⟩
  rw [never, h c hc]
  rfl

theorem refuses_never {p : Rule α} {u rest : List Char} {a : α} (h : Reads p u a rest) :
    Refuses (never p) (u ++ rest) := by
  intro c hc
  obtain ⟨next, hnext, -⟩ := h c hc
  rw [never, hnext]
  rfl

theorem reads_taken {p : Rule α} {u rest : List Char} {a : α} (h : Reads p u a rest) :
    Reads (taken p) u u rest := by
  intro c hc
  obtain ⟨next, hnext, hrest⟩ := h c hc
  refine ⟨next, ?_, hrest⟩
  rw [taken, hnext]
  simp [hc, hrest]

theorem refuses_taken {p : Rule α} {text : List Char} (h : Refuses p text) :
    Refuses (taken p) text := by
  intro c hc
  rw [taken, h c hc]
  rfl

/-- Matches in a row up to where the rule matches no more, each of at least one character. -/
def RunsTo (p : Rule Unit) (u rest : List Char) : Prop :=
  ∃ as, Repeats (fun v a more => Reads p v a more ∧ v ≠ []) rest u as ∧ Refuses p rest

theorem RunsTo.nil {p : Rule Unit} {rest : List Char} (h : Refuses p rest) : RunsTo p [] rest :=
  ⟨[], .nil, h⟩

theorem RunsTo.cons {p : Rule Unit} {u v rest : List Char} (hu : Reads p u () (v ++ rest))
    (hne : u ≠ []) (h : RunsTo p v rest) : RunsTo p (u ++ v) rest := by
  obtain ⟨as, has, hend⟩ := h
  exact ⟨() :: as, .cons ⟨hu, hne⟩ has, hend⟩

theorem runsTo_such {p : Char → Bool} {u rest : List Char} (hu : ∀ c ∈ u, p c = true)
    (hrest : Avoids p rest) : RunsTo (such p) u rest := by
  induction u with
  | nil => exact .nil (refuses_such hrest)
  | cons c u ih =>
    have hmore := ih (fun d hd => hu d (List.mem_cons_of_mem _ hd))
    exact .cons (reads_such (hu c List.mem_cons_self) _) (List.cons_ne_nil _ _) hmore

theorem RunsTo.reads {p : Rule Unit} {u rest : List Char} (h : RunsTo p u rest) :
    ∃ as, Reads (many p) u as rest := by
  obtain ⟨as, has, hend⟩ := h
  exact ⟨as, reads_many hend has⟩

end Grammar.Rule

namespace Piece

/-! ## The rules -/

/-- Whether a character is no parenthesis. -/
def isOther (c : Char) : Bool := c != '(' && c != ')'

/-- A pair of parentheses around what the rule finds in a row. -/
def enclosing (inner : Rule Unit) : Rule Unit := do
  one '('
  let _ ← many inner
  one ')'

/-- A pair of parentheses around what the rule finds in a row, or any other character. -/
def balanced (inner : Rule Unit) : Rule Unit := orElse (enclosing inner) (such isOther)

/-- Balanced text in which pairs stand in each other less deeply than the given number. -/
def balancedWithin : Nat → Rule Unit
  | 0, _ => ⟨none, .none⟩
  | n + 1, c => balanced (balancedWithin n) c

/-- A name. -/
def name : Rule Unit := do
  such isNameStart
  let _ ← many (such isNameRest)
  pure ()

/-- A substitution in parentheses. -/
def parenthesized (n : Nat) : Rule Unit := do
  one '$'
  enclosing (balancedWithin n)

/-- A name in braces. -/
def bracedName : Rule Unit := do
  one '$'
  one '\x7b'
  name
  one '\x7d'

/-- A name behind a dollar sign. -/
def plainName : Rule Unit := do
  one '$'
  name

/-- A complete substitution. -/
def substitution (n : Nat) : Rule Unit := orElse (parenthesized n) (orElse bracedName plainName)

/-- A step through text. -/
def textStep (n : Nat) : Rule Unit :=
  orElse
    (do
      one '\\'
      such (fun _ => true))
    (do
      never (substitution n)
      such (fun _ => true))

/-- As much text as there is, at least one step. -/
def textRun (n : Nat) : Rule Unit := do
  textStep n
  let _ ← many (textStep n)
  pure ()

/-- A substitution, or as much text as there is. -/
def piece (n : Nat) : Rule Cut :=
  orElse (Cut.span <$> taken (substitution n)) (Cut.text <$> taken (textRun n))

/-- All pieces up to the end of the text. -/
def pieces (n : Nat) : Rule (List Cut) := do
  let found ← many (piece n)
  atEnd
  pure found

/-! ## Balanced parentheses -/

/-- Closing one more parenthesis is closing the others first, and that one behind them. -/
theorem closing?_succ (depth : Nat) (text : List Char) :
    closing? (depth + 1) text =
      (closing? depth text).bind (fun k => (closing? 0 (text.drop k)).map (· + k)) := by
  fun_induction closing? depth text with
  | case1 depth => rfl
  | case2 depth rest ih =>
    rw [closing?, ih]
    simp [Option.map_bind, Option.bind_map, Function.comp_def, Nat.add_assoc]
  | case3 rest => simp [closing?]
  | case4 depth rest ih =>
    rw [closing?, ih]
    simp [Option.map_bind, Option.bind_map, Function.comp_def, Nat.add_assoc]
  | case5 depth c rest hopen hclose hclose' ih =>
    rw [closing?, ih]
    · simp [Option.map_bind, Option.bind_map, Function.comp_def, Nat.add_assoc]
    · exact hopen
    · exact fun h => absurd h (Nat.succ_ne_zero depth)
    · exact fun d _ => ne_close hclose hclose'

theorem reads_enclosing {p : Rule Unit} {u rest : List Char} (h : RunsTo p u (')' :: rest)) :
    Reads (enclosing p) ('(' :: (u ++ [')'])) () rest := by
  obtain ⟨as, has⟩ := h.reads
  exact (reads_one '(' _).bind (has.bind (reads_one ')' rest))

theorem refuses_enclosing {p : Rule Unit} {u rest : List Char} (h : RunsTo p u rest)
    (hrest : rest.head? ≠ some ')') : Refuses (enclosing p) ('(' :: (u ++ rest)) := by
  obtain ⟨as, has⟩ := h.reads
  exact (reads_one '(' _).refuses_bind (has.refuses_bind (refuses_such (avoids_of_head hrest)))

theorem refuses_enclosing_of_avoids {p : Rule Unit} {text : List Char}
    (h : Avoids (· == '(') text) : Refuses (enclosing p) text :=
  Refuses.bind (refuses_such h)

/-- A pair of parentheses with closed text inside does not count. -/
theorem closing?_enclosed {u : List Char} (rest : List Char)
    (h : closing? 0 (u ++ ')' :: rest) = some (u.length + 1)) :
    closing? 0 ('(' :: (u ++ [')']) ++ rest) = (closing? 0 rest).map (· + (u.length + 2)) := by
  have hdrop : (u ++ ')' :: rest).drop (u.length + 1) = rest := by simp
  rw [List.cons_append, List.append_assoc, List.singleton_append, closing?, closing?_succ, h,
    Option.bind_some, hdrop, Option.map_map]
  rfl

/-- What the rule takes in a row ends in front of the parenthesis that the count finds, and in front
of no other closing one. -/
def StopsAtClose (p : Rule Unit) (text : List Char) : Prop :=
  ∃ u rest, text = u ++ rest ∧ RunsTo p u rest ∧
    closing? 0 text = if rest.head? = some ')' then some (u.length + 1) else none

theorem stopsAtClose_of_refuses {p : Rule Unit} {text : List Char} (h : Refuses p text)
    (hclose : closing? 0 text = if text.head? = some ')' then some 1 else none) :
    StopsAtClose p text :=
  ⟨[], text, rfl, .nil h, hclose⟩

theorem StopsAtClose.step {p : Rule Unit} {u text : List Char} (hu : Reads p u () text)
    (hne : u ≠ []) (hclose : closing? 0 (u ++ text) = (closing? 0 text).map (· + u.length))
    (h : StopsAtClose p text) : StopsAtClose p (u ++ text) := by
  obtain ⟨v, rest, rfl, hruns, hfound⟩ := h
  refine ⟨u ++ v, rest, (List.append_assoc u v rest).symm, .cons hu hne hruns, ?_⟩
  rw [hclose, hfound]
  split
  · simp only [Option.map_some, List.length_append]
    congr 1
    omega
  · rfl

section

variable {p : Rule Unit} {text : List Char}

/-- The rule for balanced text in front of an opening parenthesis. Where the inner rule comes to the
closing one, the count goes on behind the pair; where it does not, neither does the count. -/
theorem stopsAtClose_open (inner : StopsAtClose p text)
    (outer : ∀ rest, rest.length < text.length → StopsAtClose (balanced p) rest) :
    StopsAtClose (balanced p) ('(' :: text) := by
  obtain ⟨u, rest, rfl, hruns, hfound⟩ := inner
  by_cases hrest : rest.head? = some ')'
  · obtain ⟨rest, rfl⟩ := List.head?_eq_some_iff.mp hrest
    have hclose := closing?_enclosed rest (by rw [hfound]; rfl)
    have hread : Reads (balanced p) ('(' :: (u ++ [')'])) () rest :=
      (reads_enclosing hruns).orElse_left
    have hstep := StopsAtClose.step hread (List.cons_ne_nil _ _) (by rw [hclose]; simp)
      (outer rest (by simp; omega))
    simpa using hstep
  · rw [if_neg hrest] at hfound
    refine stopsAtClose_of_refuses ((refuses_enclosing hruns hrest).orElse ?_) ?_
    · exact refuses_such (avoids_cons.mpr rfl)
    · rw [closing?, closing?_succ, hfound]
      rfl

theorem stopsAtClose_other {c : Char} (hopen : c ≠ '(') (hclose : c ≠ ')')
    (h : StopsAtClose (balanced p) text) : StopsAtClose (balanced p) (c :: text) := by
  have hother : isOther c = true := by simp [isOther, hopen, hclose]
  have hread : Reads (balanced p) [c] () text :=
    (reads_such hother text).orElse_right
      (refuses_enclosing_of_avoids (avoids_cons.mpr (beq_eq_false_iff_ne.mpr hopen)))
  refine StopsAtClose.step hread (List.cons_ne_nil _ _) ?_ h
  rw [List.singleton_append, closing?]
  · rfl
  · exact hopen
  · exact fun _ => hclose
  · exact fun _ _ => hclose

/-- Where no character is to be taken, the rule stops. -/
theorem refuses_balanced (hopen : Avoids (· == '(') text) (hother : Avoids isOther text) :
    Refuses (balanced p) text :=
  (refuses_enclosing_of_avoids hopen).orElse (refuses_such hother)

end

/-- Balanced text is taken up to the parenthesis that the count finds. By induction on the depth,
and for each depth along the text. -/
theorem stopsAtClose_balanced (n : Nat) (text : List Char) (hlength : text.length ≤ n) :
    StopsAtClose (balancedWithin n) text := by
  induction n generalizing text with
  | zero =>
    obtain rfl := List.length_eq_zero_iff.mp (Nat.le_zero.mp hlength)
    exact stopsAtClose_of_refuses (fun _ _ => rfl) rfl
  | succ n ihn =>
    induction hsize : text.length using Nat.strong_induction_on generalizing text with
    | _ size ih =>
      subst hsize
      cases text with
      | nil => exact stopsAtClose_of_refuses (refuses_balanced (avoids_nil _) (avoids_nil _)) rfl
      | cons c text =>
        rw [List.length_cons] at hlength ih
        by_cases hopen : c = '('
        · subst hopen
          exact stopsAtClose_open (ihn text (by omega))
            (fun rest hrest => ih rest.length (by omega) rest (by omega) rfl)
        · by_cases hclose : c = ')'
          · subst hclose
            exact stopsAtClose_of_refuses
              (refuses_balanced (avoids_cons.mpr rfl) (avoids_cons.mpr rfl)) rfl
          · exact stopsAtClose_other hopen hclose (ih text.length (by omega) text (by omega) rfl)

/-! ## Substitutions -/

theorem reads_name {u rest : List Char} (hu : NameText u) (hrest : Avoids isNameRest rest) :
    Reads name u () rest := by
  obtain ⟨hfirst, hmore⟩ := hu
  obtain ⟨as, has⟩ := (runsTo_such hmore hrest).reads
  exact Reads.bind (reads_such hfirst _) (has.bind_pure rfl)

theorem refuses_name {text : List Char} (h : Avoids isNameStart text) : Refuses name text :=
  Refuses.bind (refuses_such h)

/-- A text starts with a name as long as it goes, or with no character of a name. -/
theorem name_or_avoids (text : List Char) :
    (∃ u rest, text = u ++ rest ∧ NameText u ∧ Avoids isNameRest rest) ∨
      Avoids isNameStart text := by
  cases hlength : nameLength? text with
  | some n =>
    obtain ⟨u, rest, htext, -, hu, hrest⟩ := nameLength?_eq_some hlength
    exact .inl ⟨u, rest, htext, hu, hrest⟩
  | none =>
    right
    cases text with
    | nil => exact avoids_nil _
    | cons c rest => simpa [nameLength?, avoids_cons] using hlength

theorem reads_enclosed {n : Nat} {u rest : List Char} (h : closing? 0 (u ++ rest) = some u.length)
    (hlength : (u ++ rest).length ≤ n) :
    Reads (enclosing (balancedWithin n)) ('(' :: u) () rest := by
  obtain ⟨v, more, htext, hruns, hfound⟩ := stopsAtClose_balanced n (u ++ rest) hlength
  rw [h] at hfound
  split at hfound
  · next hclose =>
    obtain ⟨more, rfl⟩ := List.head?_eq_some_iff.mp hclose
    have hsame : u ++ rest = (v ++ [')']) ++ more := by rw [htext]; simp
    obtain ⟨rfl, rfl⟩ := List.append_inj hsame (by simpa using hfound)
    exact reads_enclosing hruns
  · cases hfound

theorem refuses_enclosed {n : Nat} {text : List Char} (h : closing? 0 text = none)
    (hlength : text.length ≤ n) : Refuses (enclosing (balancedWithin n)) ('(' :: text) := by
  obtain ⟨v, more, rfl, hruns, hfound⟩ := stopsAtClose_balanced n text hlength
  refine refuses_enclosing hruns (fun hclose => ?_)
  rw [h, if_pos hclose] at hfound
  cases hfound

theorem refuses_parenthesized {n : Nat} {text : List Char} (h : Avoids (· == '(') text) :
    Refuses (parenthesized n) ('$' :: text) :=
  (reads_one '$' text).refuses_bind (refuses_enclosing_of_avoids h)

theorem reads_bracedName {u : List Char} (h : NameText u) (rest : List Char) :
    Reads bracedName ('$' :: '\x7b' :: (u ++ ['\x7d'])) () rest :=
  (reads_one '$' _).bind ((reads_one '\x7b' _).bind
    ((reads_name h (avoids_cons.mpr rfl)).bind (reads_one '\x7d' rest)))

theorem refuses_bracedName {text : List Char} (h : Avoids (· == '\x7b') text) :
    Refuses bracedName ('$' :: text) :=
  (reads_one '$' text).refuses_bind (refuses_such h).bind

theorem reads_plainName {u rest : List Char} (hu : NameText u) (hrest : Avoids isNameRest rest) :
    Reads plainName ('$' :: u) () rest :=
  (reads_one '$' _).bind (reads_name hu hrest)

/-- The rule takes a complete substitution. -/
theorem reads_substitution {n : Nat} {u rest : List Char} (h : Complete u rest)
    (hlength : (u ++ rest).length ≤ n) : Reads (substitution n) u () rest := by
  cases h with
  | @braced u _ hname =>
    exact (reads_bracedName hname rest).orElse_left.orElse_right
      (refuses_parenthesized (avoids_cons.mpr rfl))
  | named hname hrest =>
    have hread := reads_plainName hname hrest
    obtain ⟨hfirst, -⟩ := hname
    exact (hread.orElse_right (refuses_bracedName (avoids_of_class hfirst rfl _))).orElse_right
      (refuses_parenthesized (avoids_of_class hfirst rfl _))
  | @enclosed u _ hlevel hfirst =>
    have hshorter : (u ++ rest).length ≤ n := by
      simp only [List.cons_append, List.length_cons] at hlength
      omega
    have hread := reads_enclosed (closing?_of_enclosed hlevel hfirst rest) hshorter
    exact ((reads_one '$' _).bind hread).orElse_left

section

variable {text : List Char} (h : ¬ Starts ('$' :: text))

include h

theorem refuses_parenthesized_of_not_starts {n : Nat} (hlength : text.length ≤ n) :
    Refuses (parenthesized n) ('$' :: text) := by
  by_cases hopen : text.head? = some '('
  · obtain ⟨text, rfl⟩ := List.head?_eq_some_iff.mp hopen
    have hclosing : closing? 0 text = none := by
      have hspan := spanLength?_eq_none_iff.mpr h
      rw [spanLength?] at hspan
      exact Option.map_eq_none_iff.mp hspan
    refine (reads_one '$' _).refuses_bind (refuses_enclosed hclosing ?_)
    rw [List.length_cons] at hlength
    omega
  · exact refuses_parenthesized (avoids_of_head hopen)

theorem refuses_bracedName_of_not_starts : Refuses bracedName ('$' :: text) := by
  by_cases hopen : text.head? = some '\x7b'
  · obtain ⟨text, rfl⟩ := List.head?_eq_some_iff.mp hopen
    refine (reads_one '$' _).refuses_bind ((reads_one '\x7b' text).refuses_bind ?_)
    rcases name_or_avoids text with ⟨u, rest, rfl, hu, hrest⟩ | hnone
    · refine (reads_name hu hrest).refuses_bind (refuses_such (avoids_of_head fun hclose => ?_))
      obtain ⟨rest, rfl⟩ := List.head?_eq_some_iff.mp hclose
      exact h ⟨_, rest, by simp, .braced hu⟩
    · exact (refuses_name hnone).bind
  · exact refuses_bracedName (avoids_of_head hopen)

theorem refuses_plainName_of_not_starts : Refuses plainName ('$' :: text) := by
  refine (reads_one '$' text).refuses_bind ?_
  rcases name_or_avoids text with ⟨u, rest, rfl, hu, hrest⟩ | hnone
  · exact absurd ⟨'$' :: u, rest, rfl, .named hu hrest⟩ h
  · exact refuses_name hnone

end

/-- The rule takes nothing else. -/
theorem refuses_substitution {n : Nat} {text : List Char} (h : ¬ Starts text)
    (hlength : text.length ≤ n) : Refuses (substitution n) text := by
  by_cases hdollar : text.head? = some '$'
  · obtain ⟨text, rfl⟩ := List.head?_eq_some_iff.mp hdollar
    rw [List.length_cons] at hlength
    exact (refuses_parenthesized_of_not_starts h (by omega)).orElse
      ((refuses_bracedName_of_not_starts h).orElse (refuses_plainName_of_not_starts h))
  · have hnone : Refuses (one '$') text := refuses_such (avoids_of_head hdollar)
    exact hnone.bind.orElse (hnone.bind.orElse hnone.bind)

/-! ## Text -/

theorem reads_textStep {n : Nat} {u rest : List Char} (h : TextStep u rest)
    (hnone : ¬ Starts (u ++ rest)) (hlength : (u ++ rest).length ≤ n) :
    Reads (textStep n) u () rest := by
  have hnever := reads_never (refuses_substitution hnone hlength)
  cases h with
  | pair c _ => exact ((reads_one '\\' _).bind (reads_such rfl rest)).orElse_left
  | @single c _ hc =>
    refine (hnever.bind (reads_such rfl rest)).orElse_right ?_
    by_cases hslash : c = '\\'
    · rw [hslash, hc hslash]
      exact (reads_one '\\' []).refuses_bind (refuses_such (avoids_nil _))
    · exact (refuses_one hslash rest).bind

theorem refuses_textStep_nil (n : Nat) : Refuses (textStep n) [] := by
  have hnone := refuses_substitution (not_starts_of_avoids (avoids_nil _)) (Nat.zero_le n)
  have hnever := reads_never hnone
  have hend {p : Char → Bool} : Refuses (such p) [] := refuses_such (avoids_nil _)
  exact hend.bind.orElse (hnever.refuses_bind hend)

theorem refuses_textStep {n : Nat} {u rest : List Char} (h : Complete u rest)
    (hlength : (u ++ rest).length ≤ n) : Refuses (textStep n) (u ++ rest) := by
  have hnever := refuses_never (reads_substitution h hlength)
  obtain ⟨v, rfl⟩ := h.exists_cons
  exact (refuses_one (by decide) _).bind.orElse hnever.bind

/-- In front of the end of the text or of a substitution, plain text is taken step by step. -/
theorem runsTo_textStep {n : Nat} {u rest : List Char} (h : Plain rest u)
    (hrest : rest = [] ∨ Starts rest) (hlength : (u ++ rest).length ≤ n) :
    RunsTo (textStep n) u rest := by
  induction h with
  | nil =>
    rcases hrest with rfl | ⟨v, more, rfl, hv⟩
    · exact .nil (refuses_textStep_nil n)
    · exact .nil (refuses_textStep hv hlength)
  | cons hstep hnone _ ih =>
    rw [List.append_assoc] at hlength
    have hshorter := hlength
    rw [List.length_append] at hshorter
    exact .cons (reads_textStep hstep hnone hlength) hstep.ne_nil (ih (by omega))

/-! ## Pieces -/

theorem reads_span {n : Nat} {u rest : List Char} (h : Complete u rest)
    (hlength : (u ++ rest).length ≤ n) : Reads (piece n) u (.span u) rest :=
  (reads_taken (reads_substitution h hlength)).map.orElse_left

theorem reads_text {n : Nat} {u rest : List Char} (h : Plain rest u) (hne : u ≠ [])
    (hrest : rest = [] ∨ Starts rest) (hlength : (u ++ rest).length ≤ n) :
    Reads (piece n) u (.text u) rest := by
  cases h with
  | nil => exact absurd rfl hne
  | @cons u more hstep hnone hmore =>
    rw [List.append_assoc] at hlength
    have hshorter := hlength
    rw [List.length_append] at hshorter
    obtain ⟨as, has⟩ := (runsTo_textStep (n := n) hmore hrest (by omega)).reads
    have hrun : Reads (textRun n) (u ++ more) () rest :=
      Reads.bind (reads_textStep hstep hnone hlength) (has.bind_pure rfl)
    refine (reads_taken hrun).map.orElse_right (refuses_taken ?_).map
    rw [List.append_assoc]
    exact refuses_substitution hnone hlength

theorem refuses_piece_nil (n : Nat) : Refuses (piece n) [] := by
  have hnone := refuses_substitution (not_starts_of_avoids (avoids_nil _)) (Nat.zero_le n)
  exact (refuses_taken hnone).map.orElse (refuses_taken (refuses_textStep_nil n).bind).map

/-- Behind a piece of text the text ends, or a substitution starts. -/
theorem Exact.behind_text {u raw : List Char} {cuts : List Cut} (h : Exact raw (.text u :: cuts)) :
    joined cuts = [] ∨ Starts (joined cuts) := by
  obtain ⟨-, -, -, hturn, hrest⟩ := h.of_cons
  rcases cuts with _ | ⟨v | v, cuts⟩
  · exact .inl rfl
  · exact absurd (hturn (.text v) rfl) (by simp [TakeTurns, Cut.isText])
  · obtain ⟨hjoined, -, hfits, -⟩ := hrest.of_cons
    exact .inr ⟨v, joined cuts, hjoined, hfits⟩

/-- The rule for a piece finds the pieces of an exact cut one by one. -/
theorem Exact.repeats {n : Nat} {raw : List Char} {cuts : List Cut} (h : Exact raw cuts)
    (hlength : raw.length ≤ n) :
    Repeats (fun u p rest => Reads (piece n) u p rest ∧ u ≠ []) [] raw cuts := by
  induction cuts generalizing raw with
  | nil =>
    rw [← h.lossless]
    exact .nil
  | cons p cuts ih =>
    obtain ⟨rfl, hne, hfits, -, hrest⟩ := h.of_cons
    have hshorter := hlength
    rw [List.length_append] at hshorter
    refine .cons ⟨?_, hne⟩ (ih hrest (by omega))
    rw [List.append_nil]
    cases p with
    | span u => exact reads_span hfits hlength
    | text u => exact reads_text (plain_of_fits hfits) hne h.behind_text hlength

/-- The rules read every text to its end, and find the pieces of its exact cut. -/
theorem reads_pieces {n : Nat} {raw : List Char} {cuts : List Cut} (h : Exact raw cuts)
    (hlength : raw.length ≤ n) : Reads (pieces n) raw cuts [] := by
  have hmany : Reads (many (piece n)) raw cuts ([] ++ []) :=
    reads_many (refuses_piece_nil n) (h.repeats hlength)
  have hread := hmany.bind (f := fun found => do atEnd; pure found) (reads_atEnd.bind_pure rfl)
  rwa [List.append_nil] at hread

/-- A string is cut exactly at its complete substitutions outside of escapes. There is one such cut,
and the rules, nested to any depth from the length of the text on, find it and never fail. -/
theorem split_exact (raw : String) :
    ∃ cuts, split raw = cuts.map ofCut ∧ Exact raw.toList cuts ∧
      (∀ others, Exact raw.toList others → others = cuts) ∧
      ∀ n, ∃ last, (pieces (raw.toList.length + n) (Cursor.start raw.toList)).result =
        some (cuts, last) ∧ last.rest = [] := by
  refine ⟨cut raw.toList, rfl, exact_cut raw.toList, fun others h => h.eq_cut, fun n => ?_⟩
  exact reads_pieces (exact_cut raw.toList) (Nat.le_add_right _ n) _ (List.append_nil _).symm

end Piece

end CommandShell
