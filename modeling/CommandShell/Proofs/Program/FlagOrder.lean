/-
# CommandShell.Proofs.Program.FlagOrder -- where the flags of a command stand

A command keeps its flags apart from its other words, each in the order in which they are written.
So it does not matter where among the other words the flags stand: all texts with one blank in front
of each word, which have the same flags in one order and the same other words in one order, are read
as the same program, or none is.

A word is read by itself, whatever stands around it, since a text has one tree only. The scan for
nesting does not tell the texts apart either: what a word leaves open is still open behind the flags
that follow, and flags have no parentheses (`Interleaving.peak_spaced`).
-/
import CommandShell.Proofs.Grammar.NestingLimit
import CommandShell.Proofs.Program.Display

namespace CommandShell

open Grammar Grammar.Rule Grammar.Nesting

/-! ## Nesting -/

namespace Grammar.Nesting

/-- A blank starts a word, so it does not matter whether a dollar sign stands before. -/
theorem peak_spaced_congr {g h : Gauge} (hdepth : g.depth = h.depth) (ws : List String) :
    g.peak (spaced ws) = h.peak (spaced ws) := by
  cases ws with
  | nil => exact hdepth
  | cons w ws =>
    have hstep : g.step ' ' = h.step ' ' := by
      simp [Gauge.step, hdepth]
    show max g.depth ((g.step ' ').peak _) = max h.depth ((h.step ' ').peak _)
    rw [hstep, hdepth]

theorem spaced_cons (w : String) (ws : List String) :
    spaced (w :: ws) = (' ' :: w.toList) ++ spaced ws := rfl

end Grammar.Nesting

/-- Flat words do not count for the nesting, wherever they stand among other words. -/
theorem Interleaving.peak_spaced {F E ws : List String} (h : Interleaving F E ws)
    (hflat : ∀ f ∈ F, Flat f.toList) (g : Gauge) : g.peak (spaced ws) = g.peak (spaced E) := by
  induction h generalizing g with
  | nil => rfl
  | @left f F E ws _ ih =>
    have hf : Flat (' ' :: f.toList) := flat_cons (by decide) (hflat f List.mem_cons_self)
    have hrest := ih (fun w hw => hflat w (List.mem_cons_of_mem _ hw))
      (g.after (' ' :: f.toList))
    rw [spaced_cons, Gauge.peak_append, hf.peak_eq, hrest,
      peak_spaced_congr (hf.after_depth g) E]
    exact max_eq_right (g.depth_le_peak _)
  | right _ ih =>
    rw [spaced_cons, spaced_cons, Gauge.peak_append, Gauge.peak_append, ih hflat]

/-! ## Words by themselves -/

namespace Grammar

/-- Whether a rule takes all of a text, with the given result. -/
def Takes {α : Type} (rule : Rule α) (text : String) (a : α) : Prop :=
  ∃ last, (rule (Cursor.start text.toList)).result = some (a, last) ∧ last.rest = []

/-- The rule for words that stand for values, with substitutions as deep as a text has them. -/
def wordRule (text : String) : Rule Expr := expr (bodyWithin (text.toList.length + 1))

theorem Takes.sound {α : Type} {rule : Rule α} {D : List Char → α → List Char → Prop}
    {text : String} {a : α} (h : Takes rule text a) (hrule : Sound rule D) :
    D text.toList a [] := by
  obtain ⟨last, hresult, hend⟩ := h
  obtain ⟨u, hu, hD⟩ := hrule.taken hresult
  rw [hend, List.append_nil] at hu
  obtain rfl : text.toList = u := hu
  rwa [hend] at hD

/-- The rule for flags gives flags. -/
theorem Takes.exists_flag {text : String} {a : Argument} (h : Takes flag text a) :
    ∃ name long, a = .flag name long := by
  obtain ⟨last, h, -⟩ := h
  rw [flag, result_orElse, Option.or_eq_some_iff] at h
  rcases h with h | ⟨-, h⟩
  all_goals
    obtain ⟨⟨⟩, c₁, -, h⟩ := bind_eq_some.mp h
    obtain ⟨name, c₂, -, h⟩ := bind_eq_some.mp h
    obtain ⟨rfl, -⟩ := pure_eq_some.mp h
    exact ⟨name, _, rfl⟩

/-- The texts of flags have no parentheses. -/
theorem WordText.flat_of_flag {u : List Char} {name : String} {long : Bool}
    (h : WordText u (.flag name long)) : Flat u := by
  cases h with
  | long hu => exact flat_cons (by decide) (flat_cons (by decide) hu.flat)
  | short hu => exact flat_cons (by decide) hu.flat

theorem wordsText_of_forall₂ {ws : List String} {words : List Argument}
    (h : List.Forall₂ (fun w a => WordText w.toList a) ws words) : WordsText (spaced ws) words := by
  induction h with
  | nil => exact .nil
  | cons hw _ ih => exact .cons blanks_space (List.cons_ne_nil _ _) hw ih

end Grammar

/-! ## Nodes of words -/

namespace Reader

variable {f : String → Except ReadError Node}

section Trees

mutual

/-- A body is read as no flag if its strings are. -/
theorem nodeOf_isValue (hf : ∀ {w n}, f w = .ok n → n.IsValue) {n : Node} :
    {b : Body} → nodeOf f b = .ok n → n.IsValue
  | .command _ _, h => by
      rw [nodeOf, bind_eq_ok] at h
      obtain ⟨words, -, heq⟩ := h
      cases heq
      exact Node.isValue_ofWords _ _
  | .expr _, h => by
      rw [nodeOf] at h
      exact exprNode_isValue hf h

theorem exprNode_isValue (hf : ∀ {w n}, f w = .ok n → n.IsValue) {n : Node} :
    {e : Expr} → exprNode f e = .ok n → n.IsValue
  | .variable _, h | .integer _, h | .float _, h => by
      cases h
      exact nofun
  | .substitution _, h => by
      rw [exprNode] at h
      exact nodeOf_isValue hf h
  | .quoted _, h | .bare _, h => hf h

end

end Trees

theorem stringNode_isValue {r : Reader} {w : String} {n : Node} (h : r.stringNode f w = .ok n) :
    n.IsValue := by
  simp only [stringNode, bind_eq_ok] at h
  obtain ⟨parts, -, hn⟩ := h
  split at hn
  · cases hn
    exact nofun
  · cases hn
    exact nofun

theorem wordsOf_eq_ok_iff_forall₂ {words : List Argument} {nodes : List Node} :
    wordsOf f words = .ok nodes ↔ List.Forall₂ (fun a n => wordNode f a = .ok n) words nodes := by
  induction words generalizing nodes with
  | nil => simp [wordsOf, eq_comm]
  | cons a words ih =>
    simp only [wordsOf, bind_eq_ok, ih, List.forall₂_cons_left_iff]
    constructor
    · rintro ⟨n, hn, rest, hrest, heq⟩
      cases heq
      exact ⟨n, rest, hn, hrest, rfl⟩
    · rintro ⟨n, rest, hn, hrest, rfl⟩
      exact ⟨n, hn, rest, hrest, rfl⟩

/-! ## Commands -/

section Command

variable {r : Reader} {name : String} {F E ws : List String}

/-- A command is read word by word, if its nesting is within the limit. -/
theorem program_words_iff {words : List Argument} {p : Program} (hname : NameText name.toList)
    (hwords : List.Forall₂ (fun w a => WordText w.toList a) ws words) :
    r.program (" ".intercalate (name :: ws)) = .ok p ↔
      Gauge.start.peak (name.toList ++ spaced ws) ≤ r.maxNesting ∧
      ∃ nodes,
        List.Forall₂ (fun a n => wordNode (r.stringNode r.expression) a = .ok n) words nodes ∧
        p = ⟨[.ofWords name nodes]⟩ := by
  have hbody := BodyText.command hname (wordsText_of_forall₂ hwords)
  rw [String.ofList_toList] at hbody
  have htree := hbody.programText
  rw [program_eq_ok_iff]
  simp only [programTree_eq_ok_iff, toList_intercalate_blank, firstExcess_eq_none_iff,
    ← wordsOf_eq_ok_iff_forall₂]
  constructor
  · rintro ⟨t, ⟨hpeak, ht⟩, hnodes⟩
    obtain rfl := ht.unique htree
    refine ⟨hpeak, ?_⟩
    simp only [statementNodes, nodeOf, bind_eq_ok] at hnodes
    obtain ⟨node, ⟨nodes, hnodes, hnode⟩, more, hmore, hall⟩ := hnodes
    cases hnode
    cases hmore
    exact ⟨nodes, hnodes, congrArg Program.mk (Except.ok.inj hall).symm⟩
  · rintro ⟨hpeak, nodes, hnodes, rfl⟩
    refine ⟨_, ⟨hpeak, htree⟩, ?_⟩
    simp only [statementNodes, nodeOf, hnodes]
    rfl

/-- The nodes of the texts of flags. -/
theorem flags_of_takes {f : String → Except ReadError Node} {as : List Argument} {nodes : List Node}
    (has : List.Forall₂ (Takes flag) F as)
    (hnodes : List.Forall₂ (fun a n => wordNode f a = .ok n) as nodes) :
    ∃ flags : List Flag, nodes = flags.map .flag ∧ List.Forall₂
      (fun text g => ∃ name long, Takes flag text (.flag name long) ∧ g = .written name long)
      F flags := by
  induction has generalizing nodes with
  | nil =>
    cases hnodes
    exact ⟨[], rfl, .nil⟩
  | cons ha _ ih =>
    cases hnodes with
    | cons hn hrest =>
      obtain ⟨flags, rfl, hflags⟩ := ih hrest
      obtain ⟨name, long, rfl⟩ := ha.exists_flag
      cases hn
      exact ⟨.written name long :: flags, rfl, .cons ⟨name, long, ha, rfl⟩ hflags⟩

/-- The nodes of the texts of other words are no flags. -/
theorem arguments_of_takes {xs : List Expr} {nodes : List Node}
    (hxs : List.Forall₂ (fun text x => Takes (wordRule text) text x) E xs)
    (hnodes : List.Forall₂ (fun a n => wordNode (r.stringNode r.expression) a = .ok n)
      (xs.map .expr) nodes) :
    (∀ n ∈ nodes, n.IsValue) ∧ List.Forall₂ (fun text n => ∃ x, Takes (wordRule text) text x ∧
      exprNode (r.stringNode r.expression) x = .ok n) E nodes := by
  induction hxs generalizing nodes with
  | nil =>
    cases hnodes
    exact ⟨nofun, .nil⟩
  | cons hx _ ih =>
    cases hnodes with
    | cons hn hrest =>
      obtain ⟨hvalues, harguments⟩ := ih hrest
      have hvalue := exprNode_isValue stringNode_isValue hn
      exact ⟨List.forall_mem_cons.mpr ⟨hvalue, hvalues⟩, .cons ⟨_, hx, hn⟩ harguments⟩

/-- It does not matter where the flags of a command stand. If a name is followed by the texts of
flags and of other words, in any order that keeps those of either kind in theirs, and this is read
as a program, then the program is one command with the flags and with the arguments in these
orders, and every other such order is read as the same program. -/
theorem flags_anywhere {p : Program} (hname : ∃ word, Takes identifier name word)
    (hF : ∀ text ∈ F, ∃ a, Takes flag text a) (hE : ∀ text ∈ E, ∃ x, Takes (wordRule text) text x)
    (hws : Interleaving F E ws) (hp : r.program (" ".intercalate (name :: ws)) = .ok p) :
    (∃ flags arguments, p = ⟨[.command name arguments flags]⟩ ∧
      List.Forall₂ (fun text g => ∃ word long,
        Takes flag text (.flag word long) ∧ g = .written word long) F flags ∧
      List.Forall₂ (fun text n => ∃ x, Takes (wordRule text) text x ∧
        exprNode (r.stringNode r.expression) x = .ok n) E arguments) ∧
    ∀ vs, Interleaving F E vs → r.program (" ".intercalate (name :: vs)) = .ok p := by
  obtain ⟨_, hname⟩ := hname
  obtain ⟨-, hname⟩ := hname.sound sound_identifier
  obtain ⟨as, has⟩ := exists_forall₂ hF
  obtain ⟨xs, hxs⟩ := exists_forall₂ hE
  have hflags : List.Forall₂ (fun w a => WordText w.toList a) F as :=
    has.imp (fun _ _ h => h.sound sound_flag)
  have hothers : List.Forall₂ (fun w a => WordText w.toList a) E (xs.map .expr) :=
    List.forall₂_map_right_iff.mpr
      (hxs.imp (fun _ _ h => .expr (h.sound (sound_expr (sound_bodyWithin _)))))
  have hflat : ∀ text ∈ F, Flat text.toList := by
    intro text htext
    obtain ⟨a, ha⟩ := hF text htext
    obtain ⟨word, long, rfl⟩ := ha.exists_flag
    exact (ha.sound sound_flag).flat_of_flag
  -- the accepted text gives the nodes of all words
  obtain ⟨words, hwords, htexts⟩ := hws.exists_of_forall₂ hflags hothers
  obtain ⟨hpeak, nodes, hnodes, rfl⟩ := (program_words_iff hname htexts).mp hp
  obtain ⟨flagNodes, arguments, hflagNodes, harguments, hmix⟩ := hwords.forall₂_split hnodes
  obtain ⟨flags, rfl, hflagged⟩ := flags_of_takes has hflagNodes
  obtain ⟨hvalues, hvalued⟩ := arguments_of_takes hxs harguments
  rw [Node.ofWords_interleaving hmix hvalues]
  refine ⟨⟨flags, arguments, rfl, hflagged, hvalued⟩, fun vs hvs => ?_⟩
  -- any other text has the same nodes in another order, and the same nesting
  obtain ⟨words', hwords', htexts'⟩ := hvs.exists_of_forall₂ hflags hothers
  obtain ⟨nodes', hmix', hnodes'⟩ := hwords'.exists_of_forall₂ hflagNodes harguments
  refine (program_words_iff hname htexts').mpr ⟨?_, nodes', hnodes', ?_⟩
  · rw [Gauge.peak_append, hws.peak_spaced hflat] at hpeak
    rw [Gauge.peak_append, hvs.peak_spaced hflat]
    exact hpeak
  · rw [Node.ofWords_interleaving hmix' hvalues]

/-- A command with two flags, a command inside another, and a string with a substitution. -/
def flaggedProgram : Program :=
  ⟨[.command "echo" [.command "ls" [.literal (.string "("), .command "pwd" [] []] [],
    .interpolated [.text "a ", .node (.command "x" [] []), .text " b"]]
    [.written "n" false, .written "all" true]]⟩

/-- The string inside the substitution leaves a level open for the scan, which is counted wherever
the flags stand. -/
theorem flags_anywhere_front :
    Reader.program ⟨false, 3⟩ (" ".intercalate
      ["echo", "$(ls \"(\" $(pwd))", "-n", "\"a $(x) b\"", "--all"]) = .ok flaggedProgram ∧
    Reader.program ⟨false, 3⟩ (" ".intercalate
      ["echo", "-n", "--all", "$(ls \"(\" $(pwd))", "\"a $(x) b\""]) = .ok flaggedProgram := by
  have htext : " ".intercalate ["echo", "$(ls \"(\" $(pwd))", "-n", "\"a $(x) b\"", "--all"] =
      "echo $(ls \"(\" $(pwd)) -n \"a $(x) b\" --all" := by
    decide
  have hplain : Reader.stringNode ⟨false, 3⟩ (Reader.expression ⟨false, 3⟩) "(" =
      .ok (.literal (.string "(")) := rfl
  have hspan : Reader.stringNode ⟨false, 3⟩ (Reader.expression ⟨false, 3⟩) "a $(x) b" =
      .ok (.interpolated [.text "a ", .node (.command "x" [] []), .text " b"]) := by
    cbv
  have hread : Reader.program ⟨false, 3⟩ (" ".intercalate
      ["echo", "$(ls \"(\" $(pwd))", "-n", "\"a $(x) b\"", "--all"]) = .ok flaggedProgram := by
    refine Reader.program_eq_ok_iff.mpr ⟨[⟨some (.command "echo" [
      .expr (.substitution (.command "ls" [.expr (.quoted "("),
        .expr (.substitution (.command "pwd" []))])),
      .flag "n" false, .expr (.quoted "a $(x) b"), .flag "all" true]), none⟩], ?_, ?_⟩
    · rw [htext]
      cbv
    · simp only [statementNodes, nodeOf, wordsOf, wordNode, exprNode, hplain, hspan]
      rfl
  have hflags : ∀ f ∈ ["-n", "--all"], ∃ a, Takes flag f a := by
    simp only [List.forall_mem_cons]
    exact ⟨⟨.flag "n" false, _, rfl, rfl⟩, ⟨.flag "all" true, _, rfl, rfl⟩, by simp⟩
  have hothers : ∀ e ∈ ["$(ls \"(\" $(pwd))", "\"a $(x) b\""],
      ∃ x, Takes (wordRule e) e x := by
    simp only [List.forall_mem_cons]
    exact ⟨⟨.substitution (.command "ls" [.expr (.quoted "("),
      .expr (.substitution (.command "pwd" []))]), _, rfl, rfl⟩, ⟨.quoted "a $(x) b", _, rfl, rfl⟩,
      by simp⟩
  exact ⟨hread, (flags_anywhere ⟨"echo", _, rfl, rfl⟩ hflags hothers
    (.right (.left (.right (.left .nil)))) hread).2 _ (.left (.left (.right (.right .nil))))⟩

end Command

end Reader

end CommandShell
