/-
# CommandShell.Proofs.Grammar.Soundness -- what the rules take has a derivation

Every rule of the language takes only texts of its kind, with the tree that the unordered grammar
gives them. The order of the alternatives matters in one place only: a lone expression is tried
where no command matched, which is why it cannot be an unquoted string that starts a name.
-/
import CommandShell.Proofs.Grammar.Numerals

namespace CommandShell.Grammar

open Rule

/-! ## Words -/

theorem sound_identifier : Sound identifier (fun u name _ => name = String.ofList u ∧ NameText u) :=
  (sound_word isNameStart isNameRest .identifier).mono (fun _ _ _ h => ⟨h.1, h.2.1⟩)

theorem sound_bare : Sound bare (fun u raw _ => ExprText u (.bare raw)) := by
  apply (sound_word isBareStart isBareRest .string).mono
  rintro u _ rest ⟨rfl, hu, _⟩
  exact .bare hu

theorem sound_quoted : Sound quoted (fun u raw _ => ExprText u (.quoted raw)) := by
  intro c raw next h
  obtain ⟨⟨⟩, c₁, hopen, h⟩ := bind_eq_some.mp h
  obtain ⟨u, c₂, hu, h⟩ := bind_eq_some.mp h
  obtain ⟨⟨⟩, c₃, hclose, h⟩ := bind_eq_some.mp h
  obtain ⟨rfl, rfl⟩ := pure_eq_some.mp h
  have hc := mark_eq_some hopen
  obtain ⟨_, hc₁, rfl, hinside, _⟩ := (sound_run _ _).taken hu
  have hc₂ := mark_eq_some hclose
  refine ⟨'"' :: (u ++ ['"']), ?_, .quoted hinside⟩
  rw [hc, hc₁, hc₂]
  simp [Mark.chars]

theorem sound_variableName : Sound variableName (fun u name _ => ExprText u (.variable name)) := by
  apply Sound.orElse
  · intro c name next h
    obtain ⟨⟨⟩, c₁, hopen, h⟩ := bind_eq_some.mp h
    obtain ⟨name, c₂, hname, h⟩ := bind_eq_some.mp h
    obtain ⟨⟨⟩, c₃, hclose, h⟩ := bind_eq_some.mp h
    obtain ⟨rfl, rfl⟩ := pure_eq_some.mp h
    have hc := mark_eq_some hopen
    obtain ⟨u, hc₁, rfl, hu⟩ := sound_identifier.taken hname
    have hc₂ := mark_eq_some hclose
    refine ⟨'$' :: '\x7b' :: (u ++ ['\x7d']), ?_, .braced hu⟩
    rw [hc, hc₁, hc₂]
    simp [Mark.chars]
  · intro c name next h
    obtain ⟨⟨⟩, c₁, hopen, h⟩ := bind_eq_some.mp h
    have hc := mark_eq_some hopen
    obtain ⟨u, hc₁, rfl, hu⟩ := sound_identifier.taken h
    refine ⟨'$' :: u, ?_, .named hu⟩
    rw [hc, hc₁]
    rfl

theorem sound_flag : Sound flag (fun u a _ => WordText u a) := by
  apply Sound.orElse
  · intro c a next h
    obtain ⟨⟨⟩, c₁, hopen, h⟩ := bind_eq_some.mp h
    obtain ⟨name, c₂, hname, h⟩ := bind_eq_some.mp h
    obtain ⟨rfl, rfl⟩ := pure_eq_some.mp h
    have hc := mark_eq_some hopen
    obtain ⟨u, hc₁, rfl, hu⟩ := sound_identifier.taken hname
    refine ⟨'-' :: '-' :: u, ?_, .long hu⟩
    rw [hc, hc₁]
    rfl
  · intro c a next h
    obtain ⟨⟨⟩, c₁, hopen, h⟩ := bind_eq_some.mp h
    obtain ⟨name, c₂, hname, h⟩ := bind_eq_some.mp h
    obtain ⟨rfl, rfl⟩ := pure_eq_some.mp h
    have hc := mark_eq_some hopen
    obtain ⟨u, hc₁, rfl, hu⟩ := sound_identifier.taken hname
    refine ⟨'-' :: u, ?_, .short hu⟩
    rw [hc, hc₁]
    rfl

/-! ## Expressions and commands

Each lemma takes the soundness of the rule for what stands inside a substitution. -/

section Inner

variable {inner : Rule Body}

theorem sound_substitution (hinner : Sound inner (fun u b _ => BodyText u b)) :
    Sound (substitution inner) (fun u b _ => ExprText u (.substitution b)) := by
  intro c b next h
  obtain ⟨⟨⟩, c₁, hopen, h⟩ := bind_eq_some.mp h
  obtain ⟨⟨⟩, c₂, hbefore, h⟩ := bind_eq_some.mp h
  obtain ⟨b, c₃, hbody, h⟩ := bind_eq_some.mp h
  obtain ⟨⟨⟩, c₄, hafter, h⟩ := bind_eq_some.mp h
  obtain ⟨⟨⟩, c₅, hclose, h⟩ := bind_eq_some.mp h
  obtain ⟨rfl, rfl⟩ := pure_eq_some.mp h
  have hc := mark_eq_some hopen
  obtain ⟨a, hc₁, ha, _⟩ := sound_skipSpaces.taken hbefore
  obtain ⟨u, hc₂, hu⟩ := hinner.taken hbody
  obtain ⟨d, hc₃, hd, _⟩ := sound_skipSpaces.taken hafter
  have hc₄ := mark_eq_some hclose
  refine ⟨'$' :: '(' :: (a ++ u ++ d ++ [')']), ?_, .substitution ha hu hd⟩
  rw [hc, hc₁, hc₂, hc₃, hc₄]
  simp [Mark.chars]

theorem sound_expr (hinner : Sound inner (fun u b _ => BodyText u b)) :
    Sound (expr inner) (fun u e _ => ExprText u e) :=
  Sound.orElse (Sound.map sound_variableName)
    (Sound.orElse (Sound.map (sound_substitution hinner))
      (Sound.orElse (Sound.map sound_quoted)
        (Sound.orElse (Sound.map sound_bare) sound_number)))

theorem sound_argument (hinner : Sound inner (fun u b _ => BodyText u b)) :
    Sound (argument inner) (fun u a _ => WordText u a) :=
  Sound.orElse sound_flag
    (Sound.map ((sound_expr hinner).mono (fun _ _ _ h => .expr h)))

/-- A word together with the blanks before it. -/
def SpacedWord (u : List Char) (a : Argument) : Prop :=
  ∃ b v, u = b ++ v ∧ Blanks b ∧ b ≠ [] ∧ WordText v a

theorem sound_spaced (hinner : Sound inner (fun u b _ => BodyText u b)) :
    Sound (do spaces; argument inner) (fun u a _ => SpacedWord u a) := by
  intro c a next h
  obtain ⟨⟨⟩, c₁, hspaces, h⟩ := bind_eq_some.mp h
  obtain ⟨b, hc, hb, hne⟩ := sound_spaces.taken hspaces
  obtain ⟨v, hc₁, hv⟩ := (sound_argument hinner).taken h
  exact ⟨b ++ v, by rw [hc, hc₁, List.append_assoc], b, v, rfl, hb, hne, hv⟩

theorem wordsText_of_repeats {rest v : List Char} {words : List Argument}
    (h : Repeats (fun u a _ => SpacedWord u a) rest v words) : WordsText v words := by
  induction h with
  | nil => exact .nil
  | cons hu _ ih =>
    obtain ⟨b, v, rfl, hb, hne, hv⟩ := hu
    exact .cons hb hne hv ih

theorem sound_command (hinner : Sound inner (fun u b _ => BodyText u b)) :
    Sound (command inner) (fun u b _ => BodyText u b) := by
  intro c b next h
  obtain ⟨name, c₁, hname, h⟩ := bind_eq_some.mp h
  obtain ⟨words, c₂, hwords, h⟩ := bind_eq_some.mp h
  obtain ⟨rfl, rfl⟩ := pure_eq_some.mp h
  obtain ⟨u, hc, rfl, hu⟩ := sound_identifier.taken hname
  obtain ⟨v, hc₁, hv⟩ := (sound_spaced hinner).many.taken hwords
  exact ⟨u ++ v, by rw [hc, hc₁, List.append_assoc], .command hu (wordsText_of_repeats hv)⟩

/-- A command matches wherever a name starts. -/
theorem avoids_of_command_eq_none {c : Cursor} (h : (command inner c).result = none) :
    Avoids isNameStart c.rest := by
  apply avoids_of_word_eq_none
  exact bind_eq_none (fun name => Total.bind (total_many _) (fun words => total_pure _)) h

theorem sound_bodyOver (hinner : Sound inner (fun u b _ => BodyText u b)) :
    Sound (bodyOver inner) (fun u b _ => BodyText u b) := by
  intro c b next h
  rw [bodyOver, result_orElse, Option.or_eq_some_iff] at h
  rcases h with h | ⟨hnone, h⟩
  · exact (sound_command hinner).taken h
  · have havoid := avoids_of_command_eq_none hnone
    rw [result_map, Option.map_eq_some_iff] at h
    obtain ⟨⟨e, last⟩, he, heq⟩ := h
    cases heq
    obtain ⟨u, hc, hu⟩ := (sound_expr hinner).taken he
    refine ⟨u, hc, .expr hu ?_⟩
    -- only an unquoted string can start as a name does, and then a command would have matched
    cases hu with
    | bare hbare =>
      obtain ⟨hfirst, _⟩ := hbare
      rw [hc, List.cons_append] at havoid
      simpa [Expr.startsName] using avoids_cons.mp havoid
    | _ => rfl

end Inner

theorem sound_bodyWithin (n : Nat) : Sound (bodyWithin n) (fun u b _ => BodyText u b) := by
  induction n with
  | zero =>
    intro c b next h
    cases h
  | succ n ih => exact sound_bodyOver ih

/-! ## Statements and programs -/

theorem sound_comment :
    Sound comment (fun u note rest => CommentText u note ∧ AtLineEnd rest) := by
  intro c note next h
  obtain ⟨⟨⟩, c₁, hopen, h⟩ := bind_eq_some.mp h
  obtain ⟨text, c₂, htext, h⟩ := bind_eq_some.mp h
  obtain ⟨rfl, rfl⟩ := pure_eq_some.mp h
  have hc := mark_eq_some hopen
  obtain ⟨_, hc₁, rfl, hinside, hend⟩ := (sound_run _ _).taken htext
  refine ⟨'#' :: text, by rw [hc, hc₁]; rfl, .mk hinside, ?_⟩
  intro d hd
  have hnot := hend d hd
  simp only [isCommentary, Bool.and_eq_false_iff, bne_eq_false_iff_eq] at hnot
  exact hnot

theorem sound_statement {body : Rule Body} (hbody : Sound body (fun u b _ => BodyText u b)) :
    Sound (statement body) (fun u s rest => StatementText rest u s) := by
  intro c s next h
  obtain ⟨⟨⟩, c₁, hbefore, h⟩ := bind_eq_some.mp h
  obtain ⟨b, c₂, hb, h⟩ := bind_eq_some.mp h
  obtain ⟨⟨⟩, c₃, hbetween, h⟩ := bind_eq_some.mp h
  obtain ⟨note, c₄, hnote, h⟩ := bind_eq_some.mp h
  obtain ⟨⟨⟩, c₅, hafter, h⟩ := bind_eq_some.mp h
  obtain ⟨rfl, rfl⟩ := pure_eq_some.mp h
  obtain ⟨x, hc, hx, _⟩ := sound_skipSpaces.taken hbefore
  obtain ⟨u, hc₁, hu⟩ := hbody.optional.taken hb
  obtain ⟨y, hc₂, hy, _⟩ := sound_skipSpaces.taken hbetween
  obtain ⟨v, hc₃, hv⟩ := sound_comment.optional.taken hnote
  obtain ⟨z, hc₄, hz, _⟩ := sound_skipSpaces.taken hafter
  refine ⟨x ++ u ++ y ++ v ++ z, by rw [hc, hc₁, hc₂, hc₃, hc₄]; simp, ?_⟩
  cases hv with
  | absent => exact .mk hx hu hy .absent hz (fun h => by cases h)
  | present hv => exact .mk hx hu hy (.present hv.1) hz (fun _ => hc₄ ▸ hv.2)

theorem sound_separator : Sound separator (fun u _ _ => SeparatorText u) := by
  apply Sound.orElse
  · intro c a next h
    obtain ⟨o, c₁, ho, h⟩ := bind_eq_some.mp h
    obtain ⟨u, hc, hu⟩ := (sound_mark .carriageReturn).optional.taken ho
    have hc₁ := mark_eq_some h
    refine ⟨u ++ ['\n'], by rw [hc, hc₁]; simp [Mark.chars], ?_⟩
    cases hu with
    | absent => exact .lineFeed
    | present hu => rw [hu]; exact .carriageReturn
  · apply (sound_mark .semicolon).mono
    rintro u _ rest rfl
    exact .semicolon

/-- A separator and the statement behind it. -/
def SeparatedStatement (u : List Char) (s : Statement) (rest : List Char) : Prop :=
  ∃ sep v, u = sep ++ v ∧ SeparatorText sep ∧ StatementText rest v s

theorem AtLineEnd.of_append {u rest : List Char} (h : AtLineEnd (u ++ rest)) : AtLineEnd u := by
  intro c hc
  apply h
  rw [List.head?_append, Option.mem_def.mp hc]
  rfl

/-- A statement stays one if the text that follows it is cut short. -/
theorem StatementText.of_append {u follow rest : List Char} {s : Statement}
    (h : StatementText (follow ++ rest) u s) : StatementText follow u s := by
  obtain ⟨ha, hu, hb, hv, hc, hline⟩ := h
  refine .mk ha hu hb hv hc (fun hnote => ?_)
  have hend := hline hnote
  rw [← List.append_assoc] at hend
  exact hend.of_append

theorem programText_of_repeats {rest v : List Char} {more : List Statement}
    (h : Repeats SeparatedStatement rest v more) :
    ∀ {u : List Char} {s : Statement}, StatementText (v ++ rest) u s →
      ProgramText (u ++ v) (s :: more) := by
  induction h with
  | nil =>
    intro u s hu
    rw [List.append_nil]
    exact .last (StatementText.of_append hu)
  | cons hw _ ih =>
    intro u s hu
    obtain ⟨sep, w, rfl, hsep, hw⟩ := hw
    rw [List.append_assoc] at hu ⊢
    rw [List.append_assoc, ← List.append_assoc w, ← List.append_assoc sep] at hu
    exact .next hu.of_append hsep (ih hw)

theorem total_statement (body : Rule Body) : Total (statement body) :=
  Total.bind total_skipSpaces (fun _ => Total.bind (total_optional body) (fun _ =>
    Total.bind total_skipSpaces (fun _ => Total.bind (total_optional comment) (fun _ =>
      Total.bind total_skipSpaces (fun _ => total_pure _)))))

theorem sound_separated_statement {body : Rule Body}
    (hbody : Sound body (fun u b _ => BodyText u b)) :
    Sound (do separator; statement body) SeparatedStatement := by
  intro c s next h
  obtain ⟨⟨⟩, c₁, hsep, h⟩ := bind_eq_some.mp h
  obtain ⟨sep, hc, hsep⟩ := sound_separator.taken hsep
  obtain ⟨v, hc₁, hv⟩ := (sound_statement hbody).taken h
  exact ⟨sep ++ v, by rw [hc, hc₁, List.append_assoc], sep, v, rfl, hsep, hv⟩

/-- The statements of a text: a first one, and the others behind their separators. There is always
a first one, if only an empty one. -/
theorem statements_eq_some {body : Rule Body} {c last : Cursor} {found : List Statement}
    (h : (statements body c).result = some (found, last)) :
    ∃ first mid more, (statement body c).result = some (first, mid) ∧
      (many (do separator; statement body) mid).result = some (more, last) ∧
      found = first :: more := by
  rw [statements, separated, result_orElse, Option.or_eq_some_iff] at h
  rcases h with h | ⟨hnone, -⟩
  · obtain ⟨first, mid, hfirst, h⟩ := bind_eq_some.mp h
    obtain ⟨more, stop, hmore, h⟩ := bind_eq_some.mp h
    obtain ⟨rfl, rfl⟩ := pure_eq_some.mp h
    exact ⟨first, mid, more, hfirst, hmore, rfl⟩
  · exact absurd hnone (Total.bind (total_statement body)
      (fun _ => Total.bind (total_many _) (fun _ => total_pure _)) c)

/-- The text that statements take is a program by itself. -/
theorem sound_statements {body : Rule Body} (hbody : Sound body (fun u b _ => BodyText u b)) :
    Sound (statements body) (fun u t _ => ProgramText u t) := by
  intro c t next h
  obtain ⟨s, c₁, more, hs, hmore, rfl⟩ := statements_eq_some h
  obtain ⟨u, hc, hu⟩ := (sound_statement hbody).taken hs
  obtain ⟨v, hc₁, hv⟩ := (sound_separated_statement hbody).many.taken hmore
  rw [hc₁] at hc hu
  exact ⟨u ++ v, by rw [hc, List.append_assoc], programText_of_repeats hv hu⟩

theorem runOn_eq_ok {α : Type} {rule : Rule Body → Rule α} {source : List Char} {a : α} :
    runOn rule source = .ok a ↔
      ∃ last, (rule (bodyWithin (source.length + 1)) (Cursor.start source)).result =
        some (a, last) := by
  unfold runOn
  rcases rule (bodyWithin (source.length + 1)) (Cursor.start source) with
    ⟨_ | ⟨found, last⟩, refused⟩
  · simp
  · simp

theorem program_sound {source : List Char} {t : List Statement} (h : program source = .ok t) :
    ProgramText source t := by
  obtain ⟨last, h⟩ := runOn_eq_ok.mp h
  obtain ⟨found, c₁, hfound, h⟩ := bind_eq_some.mp h
  obtain ⟨⟨⟩, c₂, hend, h⟩ := bind_eq_some.mp h
  obtain ⟨rfl, rfl⟩ := pure_eq_some.mp h
  obtain ⟨hnil, -⟩ := atEnd_eq_some hend
  obtain ⟨u, hsource, hu⟩ := (sound_statements (sound_bodyWithin _)).taken hfound
  rw [hnil, List.append_nil] at hsource
  obtain rfl : source = u := hsource
  exact hu

theorem expression_sound {source : List Char} {b : Body} (h : expression source = .ok b) :
    LoneText source b := by
  obtain ⟨last, h⟩ := runOn_eq_ok.mp h
  obtain ⟨⟨⟩, c₁, hbefore, h⟩ := bind_eq_some.mp h
  obtain ⟨found, c₂, hfound, h⟩ := bind_eq_some.mp h
  obtain ⟨⟨⟩, c₃, hafter, h⟩ := bind_eq_some.mp h
  obtain ⟨⟨⟩, c₄, hend, h⟩ := bind_eq_some.mp h
  obtain ⟨rfl, rfl⟩ := pure_eq_some.mp h
  obtain ⟨x, hc, hx, _⟩ := sound_skipSpaces.taken hbefore
  obtain ⟨u, hc₁, hu⟩ := (sound_bodyWithin _).taken hfound
  obtain ⟨y, hc₂, hy, _⟩ := sound_skipSpaces.taken hafter
  obtain ⟨hnil, -⟩ := atEnd_eq_some hend
  have hsource : source = x ++ u ++ y := by
    show (Cursor.start source).rest = _
    rw [hc, hc₁, hc₂, hnil]
    simp
  rw [hsource]
  exact .mk hx hu hy

end CommandShell.Grammar
