/-
# CommandShell.Proofs.Program.NormalForm -- what reading can give

A program that was read is in normal form. The flags of its commands carry the number one, and no
flag stands anywhere else; a string with substitutions has at least one of them, text and
substitutions take turns in it, no text is empty, and there is no further such string inside a
substitution, at any depth.

The tree of a text settles what stands outside of strings (`Suits`), and the way a string is cut
settles the rest. A substitution holds no double quote, so its own strings are unquoted words, and
these are literals of their own texts.
-/
import CommandShell.Proofs.Program.Places
import CommandShell.Proofs.Program.Spans

namespace CommandShell

open Grammar

/-! ## The form -/

/-- Whether a part of a string is text. -/
def Part.isText : Part → Bool
  | .text _ => true
  | .node _ => false

/-- Whether a node is a string with substitutions. -/
def Node.isInterpolated : Node → Bool
  | .interpolated _ => true
  | _ => false

/-- The parts of a string with substitutions: text that is not empty takes turns with nodes, at
least one of them, that have no such string inside. -/
structure Part.Normal (parts : List Part) : Prop where
  substituted : ∃ m, Part.node m ∈ parts
  text_ne : Part.text "" ∉ parts
  turns : (parts.map Part.isText).IsChain Piece.TakeTurns
  flat : ∀ m, Part.node m ∈ parts → m.Everywhere (fun k => k.isInterpolated = false)

/-- What a node in a program that was read is like. -/
def Node.Normal : Node → Prop
  | .literal _ | .variable _ => True
  | .flag _ => False
  | .command _ _ flags => ∀ f ∈ flags, f.value = .integer 1
  | .interpolated parts => Part.Normal parts

/-! ## Unquoted words -/

namespace Grammar

mutual

/-- The unquoted words of a body, from left to right. -/
def Body.bareWords : Body → List String
  | .command _ arguments => Argument.bareWordsOf arguments
  | .expr e => e.bareWords

/-- The unquoted words among the words of a command, from left to right. -/
def Argument.bareWordsOf : List Argument → List String
  | [] => []
  | a :: rest => a.bareWords ++ Argument.bareWordsOf rest

/-- The unquoted words of a word of a command. -/
def Argument.bareWords : Argument → List String
  | .flag _ _ => []
  | .expr e => e.bareWords

/-- The unquoted words of an expression. -/
def Expr.bareWords : Expr → List String
  | .substitution inner => inner.bareWords
  | .bare raw => [raw]
  | .variable _ | .quoted _ | .integer _ | .float _ => []

end

/-- The unquoted words of a program, from left to right. -/
def Statement.bareWordsOf (program : List Statement) : List String :=
  program.flatMap (fun s => (s.body.map Body.bareWords).getD [])

mutual

theorem BodyText.bareText {u : List Char} {b : Body} :
    BodyText u b → ∀ w ∈ b.bareWords, BareText w.toList
  | .command _ hv => hv.bareText
  | .expr hu _ => hu.bareText

theorem WordsText.bareText {v : List Char} {words : List Argument} :
    WordsText v words → ∀ w ∈ Argument.bareWordsOf words, BareText w.toList
  | .nil, w, hw => by cases hw
  | .cons _ _ hu hv, w, hw => by
      rw [Argument.bareWordsOf] at hw
      exact (List.mem_append.mp hw).elim (hu.bareText w) (hv.bareText w)

theorem WordText.bareText {u : List Char} {a : Argument} :
    WordText u a → ∀ w ∈ a.bareWords, BareText w.toList
  | .long _, w, hw => by cases hw
  | .short _, w, hw => by cases hw
  | .expr hu, w, hw => hu.bareText w hw

theorem ExprText.bareText {u : List Char} {e : Expr} :
    ExprText u e → ∀ w ∈ e.bareWords, BareText w.toList
  | .substitution _ hu _, w, hw => hu.bareText w hw
  | .bare hu, w, hw => by
      rw [List.mem_singleton.mp hw, String.toList_ofList]
      exact hu
  | .quoted _, w, hw => by cases hw
  | .braced _, w, hw => by cases hw
  | .named _, w, hw => by cases hw
  | .integer _ _ _, w, hw => by cases hw
  | .float _ _, w, hw => by cases hw

end

theorem LoneText.exists_bodyText {u : List Char} {b : Body} (h : LoneText u b) :
    ∃ v, BodyText v b := by
  obtain ⟨-, hv, -⟩ := h
  exact ⟨_, hv⟩

theorem LoneText.bareText {u : List Char} {b : Body} (h : LoneText u b) :
    ∀ w ∈ b.bareWords, BareText w.toList := by
  obtain ⟨v, hv⟩ := h.exists_bodyText
  exact hv.bareText

/-- The bodies of a program have texts of their own. -/
theorem ProgramText.bodyText {u : List Char} {t : List Statement} (h : ProgramText u t) :
    ∀ s ∈ t, ∀ b ∈ s.body, ∃ v, BodyText v b := by
  have hone : ∀ {follow u : List Char} {s : Statement}, StatementText follow u s →
      ∀ b ∈ s.body, ∃ v, BodyText v b := by
    rintro follow u s ⟨-, hu, -, -, -, -⟩ b hb
    cases hu with
    | absent => cases hb
    | present hbody =>
      cases hb
      exact ⟨_, hbody⟩
  induction h with
  | last hs =>
    intro s hmem
    rw [List.mem_singleton.mp hmem]
    exact hone hs
  | next hs _ _ ih =>
    intro s hmem
    rcases List.mem_cons.mp hmem with rfl | hmem
    · exact hone hs
    · exact ih s hmem

theorem ProgramText.bareText {u : List Char} {t : List Statement} (h : ProgramText u t) :
    ∀ w ∈ Statement.bareWordsOf t, BareText w.toList := by
  intro w hw
  obtain ⟨⟨body, note⟩, hs, hw⟩ := List.mem_flatMap.mp hw
  cases body with
  | none => cases hw
  | some b =>
    obtain ⟨v, hv⟩ := h.bodyText _ hs b rfl
    exact hv.bareText w hw

end Grammar

namespace Reader

variable {r : Reader} {f : String → Except ReadError Node} {P : Node → Prop}

/-! ## Nodes of trees -/

/-- A property that all nodes have that reading makes outside of strings, and no flag. -/
structure Suits (P : Node → Prop) : Prop where
  flag (f : Flag) : ¬ P (.flag f)
  lookup {name : String} : NameText name.toList → P (.variable name)
  integer (value : Int64) : P (.literal (.integer value))
  float (value : Binary64) : P (.literal (.float value))
  command {name : String} {flags : List Flag} (arguments : List Node) : NameText name.toList →
    (∀ f ∈ flags, ∃ name long, NameText name.toList ∧ f = .written name long) →
    P (.command name arguments flags)

/-- What a word of a command becomes: a flag as written, or a node with the property. -/
inductive MadeWord (P : Node → Prop) : Node → Prop
  | flag {name : String} (long : Bool) : NameText name.toList →
      MadeWord P (.flag (.written name long))
  | value {n : Node} : n.Everywhere P → MadeWord P n

/-- The words of a command, sorted into arguments and flags. -/
theorem Suits.ofWords (hP : Suits P) {name : String} {words : List Node}
    (hname : NameText name.toList) (hwords : ∀ n ∈ words, MadeWord P n) :
    (Node.ofWords name words).Everywhere P := by
  rw [Node.ofWords, Node.everywhere_command]
  refine ⟨hP.command _ hname (fun f hf => ?_), fun m hm => ?_⟩
  · obtain ⟨n, hn, hflag⟩ := List.mem_filterMap.mp hf
    cases hwords n hn with
    | flag long hname =>
      cases hflag
      exact ⟨_, long, hname, rfl⟩
    | value h =>
      cases n with
      | flag f => exact absurd h.self (hP.flag f)
      | _ => cases hflag
  · obtain ⟨n, hn, hvalue⟩ := List.mem_filterMap.mp hm
    cases hwords n hn with
    | flag _ _ => cases hvalue
    | value h =>
      cases n with
      | flag f => cases hvalue
      | _ =>
        cases hvalue
        exact h

section Trees

mutual

/-- The node of a tree has the property everywhere if the nodes of its strings have. -/
theorem nodeOf_everywhere (hP : Suits P) {u : List Char} {b : Body} {n : Node} : BodyText u b →
    (∀ w ∈ b.strings, ∀ m, f w = .ok m → m.Everywhere P) → nodeOf f b = .ok n → n.Everywhere P
  | .command hu hv, hstrings, h => by
      rw [nodeOf, bind_eq_ok] at h
      obtain ⟨words, hwords, heq⟩ := h
      cases heq
      exact hP.ofWords (by rwa [String.toList_ofList]) (wordsOf_everywhere hP hv hstrings hwords)
  | .expr hu _, hstrings, h => by
      rw [nodeOf] at h
      exact exprNode_everywhere hP hu hstrings h

theorem wordsOf_everywhere (hP : Suits P) {v : List Char} {words : List Argument} {ns : List Node} :
    WordsText v words →
    (∀ w ∈ Argument.stringsOf words, ∀ m, f w = .ok m → m.Everywhere P) →
    wordsOf f words = .ok ns → ∀ n ∈ ns, MadeWord P n
  | .nil, _, h => by
      cases h
      exact fun _ hn => (List.not_mem_nil hn).elim
  | .cons _ _ hu hv, hstrings, h => by
      rw [Argument.stringsOf] at hstrings
      simp only [wordsOf, bind_eq_ok] at h
      obtain ⟨n, hn, more, hmore, heq⟩ := h
      cases heq
      intro m hm
      rcases List.mem_cons.mp hm with rfl | hm
      · exact wordNode_everywhere hP hu (fun w hw => hstrings w (List.mem_append_left _ hw)) hn
      · exact wordsOf_everywhere hP hv (fun w hw => hstrings w (List.mem_append_right _ hw)) hmore
          m hm

theorem wordNode_everywhere (hP : Suits P) {u : List Char} {a : Argument} {n : Node} :
    WordText u a → (∀ w ∈ a.strings, ∀ m, f w = .ok m → m.Everywhere P) →
    wordNode f a = .ok n → MadeWord P n
  | .long hu, _, h => by
      cases h
      exact .flag true (by rwa [String.toList_ofList])
  | .short hu, _, h => by
      cases h
      exact .flag false (by rwa [String.toList_ofList])
  | .expr hu, hstrings, h => by
      rw [wordNode] at h
      exact .value (exprNode_everywhere hP hu hstrings h)

theorem exprNode_everywhere (hP : Suits P) {u : List Char} {e : Expr} {n : Node} : ExprText u e →
    (∀ w ∈ e.strings, ∀ m, f w = .ok m → m.Everywhere P) → exprNode f e = .ok n → n.Everywhere P
  | .braced hu, _, h => by
      cases h
      exact Node.everywhere_variable.mpr (hP.lookup (by rwa [String.toList_ofList]))
  | .named hu, _, h => by
      cases h
      exact Node.everywhere_variable.mpr (hP.lookup (by rwa [String.toList_ofList]))
  | .substitution _ hu _, hstrings, h => by
      rw [exprNode] at h
      exact nodeOf_everywhere hP hu hstrings h
  | .quoted _, hstrings, h => hstrings _ (List.mem_singleton_self _) _ h
  | .bare _, hstrings, h => hstrings _ (List.mem_singleton_self _) _ h
  | .integer _ _ _, _, h => by
      cases h
      exact Node.everywhere_literal.mpr (hP.integer _)
  | .float _ _, _, h => by
      cases h
      exact Node.everywhere_literal.mpr (hP.float _)

end

variable (hP : Suits P)

include hP

theorem statementNodes_everywhere {t : List Statement} {ns : List Node}
    (ht : ∀ s ∈ t, ∀ b ∈ s.body, ∃ v, BodyText v b)
    (hstrings : ∀ w ∈ Statement.stringsOf t, ∀ m, f w = .ok m → m.Everywhere P)
    (h : statementNodes f t = .ok ns) : ∀ n ∈ ns, n.Everywhere P := by
  induction t generalizing ns with
  | nil =>
    cases h
    exact fun _ hn => (List.not_mem_nil hn).elim
  | cons s t ih =>
    rw [Statement.stringsOf, List.flatMap_cons] at hstrings
    have hrest : ∀ {ns}, statementNodes f t = .ok ns → ∀ n ∈ ns, n.Everywhere P :=
      ih (fun s hs => ht s (List.mem_cons_of_mem _ hs))
        (fun w hw => hstrings w (List.mem_append_right _ hw))
    obtain ⟨_ | body, note⟩ := s
    · exact hrest h
    · simp only [statementNodes, bind_eq_ok] at h
      obtain ⟨n, hn, more, hmore, heq⟩ := h
      cases heq
      obtain ⟨v, hv⟩ := ht _ List.mem_cons_self body rfl
      intro m hm
      rcases List.mem_cons.mp hm with rfl | hm
      · exact nodeOf_everywhere hP hv (fun w hw => hstrings w (List.mem_append_left _ hw)) hn
      · exact hrest hmore m hm

/-- A property that suits holds everywhere in what a text is read as, if it holds in the nodes of
strings that stand in the text. -/
theorem expression_everywhere {source : String} {n : Node}
    (hstrings : ∀ w, StandsIn source.toList w → ∀ m, r.stringNode r.expression w = .ok m →
      m.Everywhere P)
    (h : r.expression source = .ok n) : n.Everywhere P := by
  obtain ⟨b, hb⟩ := exists_tree_of_expression h
  rw [expression_of_tree hb] at h
  have hlone := (expressionTree_eq_ok_iff.mp hb).2
  obtain ⟨v, hbody⟩ := hlone.exists_bodyText
  exact nodeOf_everywhere hP hbody (fun w hw => hstrings w (hlone.strings_standIn w hw)) h

theorem program_everywhere {source : String} {p : Program}
    (hstrings : ∀ w, StandsIn source.toList w → ∀ m, r.stringNode r.expression w = .ok m →
      m.Everywhere P)
    (h : r.program source = .ok p) : ∀ n ∈ p.statements, n.Everywhere P := by
  obtain ⟨t, ht, hns⟩ := program_eq_ok_iff.mp h
  have htext := (programTree_eq_ok_iff.mp ht).2
  exact statementNodes_everywhere hP htext.bodyText
    (fun w hw => hstrings w (htext.strings_standIn w hw)) hns

end Trees

/-! ## Nodes of strings -/

/-- What a piece of a string becomes. -/
inductive Yields (r : Reader) (f : String → Except ReadError Node) : Piece.Cut → Part → Prop
  | text (u : List Char) : Yields r f (.text u) (.text (r.plain (String.ofList u)))
  | span {u : List Char} {n : Node} : f (String.ofList u) = .ok n → Yields r f (.span u) (.node n)

theorem forall₂_of_partsOf {cuts : List Piece.Cut} {parts : List Part}
    (h : r.partsOf f (cuts.map Piece.ofCut) = .ok parts) :
    List.Forall₂ (r.Yields f) cuts parts := by
  induction cuts generalizing parts with
  | nil =>
    cases h
    exact .nil
  | cons cut rest ih =>
    rw [List.map_cons] at h
    cases cut with
    | text u =>
      simp only [Piece.ofCut, partsOf, bind_eq_ok] at h
      obtain ⟨more, hmore, heq⟩ := h
      cases heq
      exact .cons (.text u) (ih hmore)
    | span u =>
      simp only [Piece.ofCut, partsOf, bind_eq_ok] at h
      obtain ⟨n, hn, more, hmore, heq⟩ := h
      cases heq
      refine .cons (.span ?_) (ih hmore)
      cases hf : f (String.ofList u) with
      | ok m =>
        rw [hf] at hn
        cases hn
        rfl
      | error e =>
        rw [hf] at hn
        cases hn

theorem partsOf_of_forall₂ {cuts : List Piece.Cut} {parts : List Part}
    (h : List.Forall₂ (r.Yields f) cuts parts) :
    r.partsOf f (cuts.map Piece.ofCut) = .ok parts := by
  induction h with
  | nil => rfl
  | cons hpiece _ ih =>
    cases hpiece with
    | text u =>
      rw [List.map_cons, Piece.ofCut, partsOf, ih]
      rfl
    | span hread =>
      rw [List.map_cons, Piece.ofCut, partsOf, ih, hread]
      rfl

/-- A string becomes the literal of its text, or a string with the parts of its pieces. -/
theorem stringNode_cases {w : String} {n : Node} (h : r.stringNode f w = .ok n) :
    ∃ parts, List.Forall₂ (r.Yields f) (Piece.cut w.toList) parts ∧
      ((∃ s, plainText? parts = some s ∧ n = .literal (.string s)) ∨
        plainText? parts = none ∧ n = .interpolated parts) := by
  rw [stringNode, bind_eq_ok] at h
  obtain ⟨parts, hparts, h⟩ := h
  refine ⟨parts, forall₂_of_partsOf hparts, ?_⟩
  split at h
  · next s hs =>
    cases h
    exact .inl ⟨s, hs, rfl⟩
  · next hnone =>
    cases h
    exact .inr ⟨hnone, rfl⟩

theorem exists_node_of_plainText? {parts : List Part} (h : plainText? parts = none) :
    ∃ m, Part.node m ∈ parts := by
  induction parts with
  | nil => cases h
  | cons p rest ih =>
    cases p with
    | text s =>
      rw [plainText?, Option.map_eq_none_iff] at h
      obtain ⟨m, hm⟩ := ih h
      exact ⟨m, List.mem_cons_of_mem _ hm⟩
    | node m => exact ⟨m, List.mem_cons_self⟩

theorem decodeFrom_ne_nil {text : List Char} (h : text ≠ []) : Escape.decodeFrom 0 text ≠ [] := by
  cases text with
  | nil => exact absurd rfl h
  | cons c rest =>
    rw [Escape.decodeFrom]
    split
    · split <;> exact List.cons_ne_nil _ _
    · exact List.cons_ne_nil _ _

/-- Decoding leaves something of a text that is not empty. -/
theorem plain_ne_empty (r : Reader) {raw : String} (h : raw ≠ "") : r.plain raw ≠ "" := by
  unfold plain
  split
  · rw [Escape.unescape, Ne, String.ofList_eq_empty_iff]
    exact decodeFrom_ne_nil (mt String.toList_eq_nil_iff.mp h)
  · exact h

section Parts

variable {cuts : List Piece.Cut} {parts : List Part} (h : List.Forall₂ (r.Yields f) cuts parts)

include h

/-- Every part of a string was made from a piece of it. -/
theorem cut_of_part_mem {p : Part} (hp : p ∈ parts) : ∃ cut ∈ cuts, r.Yields f cut p := by
  induction h with
  | nil => cases hp
  | cons hyields _ ih =>
    rcases List.mem_cons.mp hp with rfl | hp
    · exact ⟨_, List.mem_cons_self, hyields⟩
    · obtain ⟨cut, hcut, hyields⟩ := ih hp
      exact ⟨cut, List.mem_cons_of_mem _ hcut, hyields⟩

/-- A node of a string was read from one of its substitutions. -/
theorem span_of_node_mem {m : Node} (hm : Part.node m ∈ parts) :
    ∃ u, Piece.Cut.span u ∈ cuts ∧ f (String.ofList u) = .ok m := by
  obtain ⟨cut, hcut, hyields⟩ := cut_of_part_mem h hm
  cases hyields with
  | span hread => exact ⟨_, hcut, hread⟩

/-- A text of a string was decoded from one of its own. -/
theorem text_of_text_mem {s : String} (hs : Part.text s ∈ parts) :
    ∃ u, Piece.Cut.text u ∈ cuts ∧ s = r.plain (String.ofList u) := by
  obtain ⟨cut, hcut, hyields⟩ := cut_of_part_mem h hs
  cases hyields with
  | text u => exact ⟨u, hcut, rfl⟩

/-- Decoding leaves something of every text that is not empty. -/
theorem text_ne_of_yields (hcuts : ∀ u, Piece.Cut.text u ∈ cuts → u ≠ []) :
    Part.text "" ∉ parts := by
  intro hempty
  obtain ⟨u, hcut, heq⟩ := text_of_text_mem h hempty
  have hu : String.ofList u ≠ "" := mt String.ofList_eq_empty_iff.mp (hcuts u hcut)
  exact r.plain_ne_empty hu heq.symm

/-- Parts take turns as the pieces they are made from do. -/
theorem isText_of_yields : parts.map Part.isText = cuts.map Piece.Cut.isText := by
  induction h with
  | nil => rfl
  | cons hyields _ ih =>
    rw [List.map_cons, List.map_cons, ih]
    cases hyields <;> rfl

end Parts

/-! ## Normal form -/

theorem suits_normal : Suits Node.Normal where
  flag _ h := h
  lookup _ := trivial
  integer _ := trivial
  float _ := trivial
  command _ _ hflags := by
    intro f hf
    obtain ⟨name, long, -, rfl⟩ := hflags f hf
    rfl

/-- There is nothing to substitute in the strings of a substitution. -/
theorem suits_flat : Suits (fun n => n.Normal ∧ n.isInterpolated = false) where
  flag f h := suits_normal.flag f h.1
  lookup h := ⟨suits_normal.lookup h, rfl⟩
  integer v := ⟨suits_normal.integer v, rfl⟩
  float v := ⟨suits_normal.float v, rfl⟩
  command arguments hname hflags := ⟨suits_normal.command arguments hname hflags, rfl⟩

/-- Without quotes, a text is read as a node without substitutions in strings. -/
theorem flat_of_no_quote {source : String} {n : Node} (hquote : '"' ∉ source.toList)
    (h : r.expression source = .ok n) :
    n.Everywhere (fun m => m.Normal ∧ m.isInterpolated = false) := by
  refine expression_everywhere suits_flat (fun w hw m hm => ?_) h
  rw [r.stringNode_bare _ (hw.bareText hquote)] at hm
  cases hm
  exact Node.everywhere_literal.mpr ⟨trivial, rfl⟩

/-- A string of a text is read as a node in normal form. -/
theorem stringNode_normal {text : List Char} {w : String} {n : Node} (hw : StandsIn text w)
    (h : r.stringNode r.expression w = .ok n) : n.Everywhere Node.Normal := by
  obtain ⟨parts, hparts, ⟨s, -, rfl⟩ | ⟨hplain, rfl⟩⟩ := stringNode_cases h
  · exact Node.everywhere_literal.mpr trivial
  · have hflat : ∀ m, Part.node m ∈ parts →
        m.Everywhere (fun m => m.Normal ∧ m.isInterpolated = false) := by
      intro m hm
      obtain ⟨u, hu, hread⟩ := span_of_node_mem hparts hm
      have hspan : Piece.span (String.ofList u) ∈ Piece.split w := List.mem_map_of_mem hu
      exact flat_of_no_quote (hw.span hspan).2.1 hread
    refine Node.everywhere_interpolated.mpr ⟨?_, fun m hm => (hflat m hm).mono (fun _ => And.left)⟩
    exact
      { substituted := exists_node_of_plainText? hplain
        text_ne := text_ne_of_yields hparts (fun _ => (Piece.exact_cut w.toList).filled _)
        turns := isText_of_yields hparts ▸ (Piece.exact_cut w.toList).turns
        flat := fun m hm => (hflat m hm).mono (fun _ => And.right) }

theorem program_normal {source : String} {p : Program} (h : r.program source = .ok p) :
    ∀ n ∈ p.statements, n.Everywhere Node.Normal :=
  program_everywhere suits_normal (fun _ hw _ hm => stringNode_normal hw hm) h

theorem expression_normal {source : String} {n : Node} (h : r.expression source = .ok n) :
    n.Everywhere Node.Normal :=
  expression_everywhere suits_normal (fun _ hw _ hm => stringNode_normal hw hm) h

end Reader

end CommandShell
