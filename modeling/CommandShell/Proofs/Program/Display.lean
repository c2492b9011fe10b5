/-
# CommandShell.Proofs.Program.Display -- programs are read back from what they are written as

A program is written with its flags in front of the arguments, all its commands and variables in
brackets and its strings as they are. If reading does not decode escapes, what is written is read
back as the same program. Floating-point numbers are left out, and so are strings inside the
substitutions of a string, which would be written with quotes inside quotes.

Outside of strings this is a matter of the grammar: a node is written as a text of an expression
that is read as the node (`ReadsBack`). A string with substitutions is written with its text as it
was and with its substitutions in brackets, so it is cut where the string was cut that it was read
from (`cutFrom_rewritten`).
-/
import CommandShell.Proofs.Program.NormalForm
import CommandShell.Proofs.Program.Recutting
import CommandShell.Proofs.Program.Words

namespace CommandShell

open Grammar Grammar.Nesting

/-- A level is opened by a character of its own. -/
theorem Grammar.Nesting.Gauge.peak_le_length (g : Gauge) (u : List Char) :
    g.peak u ≤ g.depth + u.length := by
  induction u generalizing g with
  | nil => exact le_refl _
  | cons c u ih =>
    have hstep : (g.step c).depth ≤ g.depth + 1 := by
      unfold Gauge.step
      split
      · simp only
        split <;> omega
      split
      · simp only
        omega
      · simp
    have hrest := ih (g.step c)
    show max g.depth ((g.step c).peak u) ≤ _
    rw [List.length_cons]
    omega

theorem peak_le_of_length {text : String} {limit : Nat} (h : text.length ≤ limit) :
    Gauge.start.peak text.toList ≤ limit := by
  have hle := Gauge.start.peak_le_length text.toList
  have hstart : Gauge.start.depth = 0 := rfl
  rw [String.length_toList] at hle
  omega

/-! ## Texts of names and numbers -/

theorem digitsText_toString (n : Nat) : DigitsText (toString n).toList := by
  have hdigits : ∀ c ∈ Nat.toDigits 10 n, Decimal.isDigit c = true :=
    fun c hc => Nat.isDigit_of_mem_toDigits (by decide) (by decide) hc
  rw [Nat.toString_eq_ofList_toDigits, String.toList_ofList]
  cases htext : Nat.toDigits 10 n with
  | nil => exact absurd htext Nat.toDigits_ne_nil
  | cons c u =>
    rw [htext] at hdigits
    exact .mk (hdigits c List.mem_cons_self) (fun d hd => hdigits d (List.mem_cons_of_mem _ hd))

theorem foldl_putDigit_toString (n : Nat) : (toString n).toList.foldl Decimal.putDigit 0 = n := by
  rw [Nat.toString_eq_ofList_toDigits, String.toList_ofList]
  exact Nat.ofDigitChars_ten_toDigits

/-- An integer is written with its sign and its digits. -/
theorem toList_toString_int (i : Int) :
    ∃ s ds negative, (toString i).toList = s ++ ds ∧ SignText s negative ∧ DigitsText ds ∧
      i = signed negative (ds.foldl Decimal.putDigit 0) := by
  cases i with
  | ofNat n =>
    refine ⟨[], (toString n).toList, false, rfl, .absent, digitsText_toString n, ?_⟩
    rw [foldl_putDigit_toString]
    rfl
  | negSucc n =>
    refine ⟨['-'], (toString (n + 1)).toList, true, ?_, .minus, digitsText_toString (n + 1), ?_⟩
    · simp [Int.toString_eq_repr, Int.repr]
    · rw [foldl_putDigit_toString]
      rfl

theorem exprText_integer (v : Int64) : ExprText (toString v.toInt).toList (.integer v) := by
  obtain ⟨s, ds, negative, htext, hs, hds, hv⟩ := toList_toString_int v.toInt
  rw [htext]
  exact .integer hs hds hv

theorem quote_not_mem_toString_int (i : Int) : '"' ∉ (toString i).toList := by
  obtain ⟨s, ds, negative, htext, hs, hds, -⟩ := toList_toString_int i
  have hsign : '"' ∉ s := by
    cases hs <;> decide
  rw [htext, List.mem_append]
  exact fun h => h.elim hsign (hds.not_mem rfl rfl)

/-! ## Texts of nodes -/

/-- Words with a blank in front of each. -/
def spaced (ws : List String) : List Char := ws.flatMap (fun w => ' ' :: w.toList)

theorem toList_intercalate_blank (w : String) (ws : List String) :
    (" ".intercalate (w :: ws)).toList = w.toList ++ spaced ws := by
  induction ws generalizing w with
  | nil => simp [spaced]
  | cons v ws ih =>
    rw [String.intercalate_cons_cons, String.toList_append, String.toList_append, ih]
    simp [spaced]

theorem length_le_of_sublist {s t : String} (h : s.toList.Sublist t.toList) :
    s.length ≤ t.length := by
  rw [← String.length_toList, ← String.length_toList]
  exact h.length_le

theorem sublist_intercalate {sep w : String} {ws : List String} (h : w ∈ ws) :
    w.toList.Sublist (sep.intercalate ws).toList := by
  induction ws with
  | nil => cases h
  | cons v ws ih =>
    cases ws with
    | nil =>
      rw [List.mem_singleton.mp h, String.intercalate_singleton]
    | cons v' ws =>
      rw [String.intercalate_cons_cons, String.toList_append, String.toList_append]
      rcases List.mem_cons.mp h with rfl | h
      · exact (List.sublist_append_left _ _).trans (List.sublist_append_left _ _)
      · exact (ih h).trans (List.sublist_append_right _ _)

theorem Part.displayEach_eq_map (ps : List Part) : Part.displayEach ps = ps.map Part.display := by
  induction ps with
  | nil => rfl
  | cons p ps ih => rw [Part.displayEach, ih, List.map_cons]

namespace Node

theorem displayEach_eq_map (ns : List Node) : Node.displayEach ns = ns.map Node.display := by
  induction ns with
  | nil => rfl
  | cons n ns ih => rw [Node.displayEach, ih, List.map_cons]

theorem toList_display_variable (name : String) :
    (Node.variable name).display.toList = '$' :: '\x7b' :: (name.toList ++ ['\x7d']) := by
  rw [Node.display]
  simp

/-- The flags of a command are written before its arguments. -/
theorem toList_display_command (name : String) (arguments : List Node) (flags : List Flag) :
    (Node.command name arguments flags).display.toList = '$' :: '(' :: (name.toList ++
      spaced ((flags.map Node.flag ++ arguments).map Node.display) ++ [')']) := by
  have hwords : (flags.map Node.flag ++ arguments).map Node.display =
      flags.map Flag.display ++ arguments.map Node.display := by
    rw [List.map_append, List.map_map]
    congr 1
  rw [hwords, Node.display, displayEach_eq_map, List.cons_append, String.toList_append,
    String.toList_append, toList_intercalate_blank]
  simp

theorem toList_display_interpolated (parts : List Part) :
    (Node.interpolated parts).display.toList =
      '"' :: ((String.join (parts.map Part.display)).toList ++ ['"']) := by
  rw [Node.display, Part.displayEach_eq_map]
  exact Reader.toList_quoted _

/-- What stands inside a node is not longer than the node, when it is written. -/
theorem length_display_le {n m : Node} (h : some m ∈ n.inside) :
    m.display.length ≤ n.display.length := by
  apply length_le_of_sublist
  cases n with
  | command name arguments flags =>
    obtain ⟨_, hm, heq⟩ := List.mem_map.mp h
    cases heq
    rw [Node.display, displayEach_eq_map, String.toList_append, String.toList_append]
    refine (sublist_intercalate ?_).trans
      ((List.sublist_append_right _ _).trans (List.sublist_append_left _ _))
    exact List.mem_append_right (name :: flags.map Flag.display) (List.mem_map_of_mem hm)
  | interpolated parts =>
    rw [some_mem_inside_interpolated] at h
    have hjoined : m.display.toList.Sublist (String.join (parts.map Part.display)).toList := by
      rw [String.toList_join]
      refine List.sublist_flatten_of_mem (List.mem_map_of_mem (f := String.toList) ?_)
      exact List.mem_map.mpr ⟨.node m, h, by rw [Part.display]⟩
    rw [toList_display_interpolated]
    exact (hjoined.trans (List.sublist_append_left _ _)).cons _
  | _ => exact (List.not_mem_nil h).elim

end Node

/-! ## What can be written -/

/-- Whether a node is a string of the source. -/
def Node.isString : Node → Bool
  | .literal (.string _) => true
  | _ => false

/-- What a node may be so that it is read back from what it is written as: no floating-point number,
and if it is a string with substitutions, these are variables and commands without strings. -/
def Node.Writable : Node → Prop
  | .literal (.float _) => False
  | .interpolated parts => ∀ m, Part.node m ∈ parts →
      (∃ name, m = .variable name) ∨ m.isCommand = true ∧ m.Everywhere (fun k => k.isString = false)
  | _ => True

/-! ## What reading without decoding leaves -/

namespace Reader

variable {r r' : Reader}

/-- What a node of a program is like that was read without decoding escapes: names are names, and
a string is what its pieces say. -/
def Left (r : Reader) : Node → Prop
  | .literal (.string s) => '"' ∉ s.toList ∧ ∀ u, Piece.Cut.span u ∉ Piece.cut s.toList
  | .literal _ => True
  | .flag _ => False
  | .variable name => NameText name.toList
  | .command name _ flags => NameText name.toList ∧
      ∀ f ∈ flags, ∃ name long, NameText name.toList ∧ f = .written name long
  | .interpolated parts => plainText? parts = none ∧ ∃ w : String, '"' ∉ w.toList ∧
      List.Forall₂ (r.Yields r.expression) (Piece.cut w.toList) parts

theorem suits_left : Suits r.Left where
  flag _ h := h
  lookup h := h
  integer _ := trivial
  float _ := trivial
  command _ hname hflags := ⟨hname, hflags⟩

theorem plain_of_raw (hr : r.unescapes = false) (raw : String) : r.plain raw = raw := by
  simp [plain, hr]

/-- Text alone is the literal of the string it was cut from. -/
theorem plainText?_yields (hr : r.unescapes = false) {f : String → Except ReadError Node}
    {cuts : List Piece.Cut} {parts : List Part} (h : List.Forall₂ (r.Yields f) cuts parts)
    {s : String} (hs : plainText? parts = some s) :
    s.toList = Piece.joined cuts ∧ ∀ u, Piece.Cut.span u ∉ cuts := by
  induction h generalizing s with
  | nil =>
    cases hs
    exact ⟨rfl, fun _ hu => (List.not_mem_nil hu).elim⟩
  | cons hpiece _ ih =>
    cases hpiece with
    | span _ => cases hs
    | text u =>
      obtain ⟨rest, hrest, rfl⟩ := Option.map_eq_some_iff.mp hs
      obtain ⟨htext, hspans⟩ := ih hrest
      refine ⟨?_, fun v hv => ?_⟩
      · rw [plain_of_raw hr, String.toList_append, String.toList_ofList, htext, Piece.joined_cons]
        rfl
      · rcases List.mem_cons.mp hv with heq | hv
        · cases heq
        · exact hspans v hv

/-- The strings of a text leave nodes as said. -/
theorem stringNode_left (hr : r.unescapes = false) {text : List Char} {w : String} {n : Node}
    (hw : StandsIn text w) (h : r.stringNode r.expression w = .ok n) : n.Everywhere r.Left := by
  have hquote : '"' ∉ w.toList := by
    cases hw with
    | bare hw => exact hw.not_mem rfl rfl
    | quoted hw _ => exact hw
  -- in a substitution all strings are unquoted words
  have hbare : ∀ {source m}, '"' ∉ source.toList → r.expression source = .ok m →
      m.Everywhere r.Left := by
    intro source m hsource hm
    refine expression_everywhere suits_left (fun v hv k hk => ?_) hm
    have hv := hv.bareText hsource
    rw [r.stringNode_bare _ hv] at hk
    cases hk
    exact Node.everywhere_literal.mpr
      ⟨hv.not_mem rfl rfl, fun _ => Piece.span_not_mem_of_no_dollar (hv.not_mem rfl rfl)⟩
  obtain ⟨parts, hparts, ⟨s, hs, rfl⟩ | ⟨hplain, rfl⟩⟩ := stringNode_cases h
  · obtain ⟨htext, hspans⟩ := plainText?_yields hr hparts hs
    rw [(Piece.exact_cut _).lossless] at htext
    refine Node.everywhere_literal.mpr ⟨?_, ?_⟩
    · rwa [htext]
    · rwa [htext]
  · refine Node.everywhere_interpolated.mpr ⟨⟨hplain, w, hquote, hparts⟩, fun m hm => ?_⟩
    obtain ⟨u, hu, hread⟩ := span_of_node_mem hparts hm
    exact hbare (hw.span (List.mem_map_of_mem hu)).2.1 hread

theorem program_left (hr : r.unescapes = false) {source : String} {p : Program}
    (h : r.program source = .ok p) : ∀ n ∈ p.statements, n.Everywhere r.Left :=
  program_everywhere suits_left (fun _ hw _ hm => stringNode_left hr hw hm) h

/-! ## Reading back -/

/-- A node is written as the text of an expression that is read as the node. -/
def ReadsBack (r : Reader) (n : Node) : Prop :=
  ∃ e, ExprText n.display.toList e ∧ e.startsName = false ∧
    exprNode (r.stringNode r.expression) e = .ok n

theorem expression_of_readsBack {n : Node} (h : r.ReadsBack n)
    (hlength : n.display.length ≤ r.maxNesting) : r.expression n.display = .ok n := by
  obtain ⟨e, htext, hname, hread⟩ := h
  rw [expression_of_tree (expressionTree_of_exprText htext hname (peak_le_of_length hlength)),
    nodeOf]
  exact hread

theorem readsBack_variable {name : String} (hname : NameText name.toList) :
    r.ReadsBack (.variable name) := by
  have htext := ExprText.braced hname
  rw [← Node.toList_display_variable, String.ofList_toList] at htext
  exact ⟨_, htext, rfl, rfl⟩

/-- Words that are written with blanks between them are read as they are one by one. -/
theorem wordsText_spaced {f : String → Except ReadError Node} {ns : List Node}
    (h : ∀ n ∈ ns, ∃ a, WordText n.display.toList a ∧ wordNode f a = .ok n) :
    ∃ words, WordsText (spaced (ns.map Node.display)) words ∧ wordsOf f words = .ok ns := by
  induction ns with
  | nil => exact ⟨[], .nil, rfl⟩
  | cons n ns ih =>
    obtain ⟨a, htext, hread⟩ := h n List.mem_cons_self
    obtain ⟨words, hwords, hreads⟩ := ih (fun m hm => h m (List.mem_cons_of_mem _ hm))
    refine ⟨a :: words, ?_, ?_⟩
    · exact .cons blanks_space (List.cons_ne_nil _ _) htext hwords
    · rw [wordsOf, hread, hreads]
      rfl

theorem readsBack_command {name : String} {arguments : List Node} {flags : List Flag}
    (hname : NameText name.toList)
    (hflags : ∀ f ∈ flags, ∃ name long, NameText name.toList ∧ f = .written name long)
    (harguments : ∀ m ∈ arguments, r.ReadsBack m) (hstray : ∀ m ∈ arguments, ∀ f, m ≠ .flag f) :
    r.ReadsBack (.command name arguments flags) := by
  have hwords : ∀ n ∈ flags.map Node.flag ++ arguments,
      ∃ a, WordText n.display.toList a ∧ wordNode (r.stringNode r.expression) a = .ok n := by
    intro n hn
    rcases List.mem_append.mp hn with hn | hn
    · obtain ⟨f, hf, rfl⟩ := List.mem_map.mp hn
      obtain ⟨name, long, hname, rfl⟩ := hflags f hf
      refine ⟨.flag name long, ?_, rfl⟩
      have hlong := WordText.long hname
      have hshort := WordText.short hname
      rw [String.ofList_toList] at hlong hshort
      rw [Node.display]
      cases long with
      | true => simpa [Flag.display, Flag.written] using hlong
      | false => simpa [Flag.display, Flag.written] using hshort
    · obtain ⟨e, htext, -, hread⟩ := harguments n hn
      exact ⟨.expr e, .expr htext, hread⟩
  obtain ⟨words, htext, hread⟩ := wordsText_spaced hwords
  have hbody := BodyText.command hname htext
  rw [String.ofList_toList] at hbody
  have hexpr := ExprText.substitution blanks_nil hbody blanks_nil
  refine ⟨.substitution (.command name words), ?_, rfl, ?_⟩
  · rw [Node.toList_display_command]
    simpa using hexpr
  · rw [exprNode, nodeOf, hread]
    exact congrArg Except.ok (Node.ofWords_interleaving (.append _ _) hstray name)

/-! ## Strings -/

/-- A string without substitutions is the literal of its own text. -/
theorem stringNode_of_no_span (hr : r.unescapes = false) (f : String → Except ReadError Node)
    {s : String} (h : ∀ u, Piece.Cut.span u ∉ Piece.cut s.toList) :
    r.stringNode f s = .ok (.literal (.string s)) := by
  have hcuts : ∀ cuts : List Piece.Cut, (∀ u, Piece.Cut.span u ∉ cuts) →
      ∃ parts, List.Forall₂ (r.Yields f) cuts parts ∧
        plainText? parts = some (String.ofList (Piece.joined cuts)) := by
    intro cuts hcuts
    induction cuts with
    | nil => exact ⟨[], .nil, rfl⟩
    | cons cut rest ih =>
      obtain ⟨parts, hparts, hplain⟩ := ih (fun u hu => hcuts u (List.mem_cons_of_mem _ hu))
      cases cut with
      | span u => exact absurd List.mem_cons_self (hcuts u)
      | text u =>
        refine ⟨_, .cons (.text u) hparts, ?_⟩
        rw [plainText?, hplain, plain_of_raw hr, Piece.joined_cons]
        simp [Piece.Cut.raw]
  obtain ⟨parts, hparts, hplain⟩ := hcuts _ h
  rw [(Piece.exact_cut _).lossless, String.ofList_toList] at hplain
  exact stringNode_literal (partsOf_of_forall₂ hparts) hplain

theorem readsBack_quoted {raw : String} {n : Node} (hquote : '"' ∉ raw.toList)
    (hdisplay : n.display.toList = '"' :: (raw.toList ++ ['"']))
    (hread : r.stringNode r.expression raw = .ok n) : r.ReadsBack n := by
  have htext : ExprText ('"' :: (raw.toList ++ ['"'])) (.quoted (String.ofList raw.toList)) :=
    .quoted (fun c hc => bne_iff_ne.mpr (fun heq => hquote (heq ▸ hc)))
  rw [← hdisplay, String.ofList_toList] at htext
  exact ⟨_, htext, rfl, hread⟩

/-- What a part is written as, as a piece of the string. -/
def shownCut : Part → Piece.Cut
  | .text s => .text s.toList
  | .node m => .span m.display.toList

theorem joined_shownCut (parts : List Part) :
    Piece.joined (parts.map shownCut) = (String.join (parts.map Part.display)).toList := by
  rw [Piece.joined, String.toList_join, List.flatMap_map, List.flatMap_map]
  congr 1
  funext p
  cases p with
  | text s => rw [shownCut, Piece.Cut.raw, Part.display]
  | node m => rw [shownCut, Piece.Cut.raw, Part.display]

section Interpolated

variable {w : String} {parts : List Part}

/-- A string is written with its text as it was and its substitutions in brackets. -/
theorem rewritten_shownCut (hr : r.unescapes = false) (hquote : '"' ∉ w.toList)
    (hparts : List.Forall₂ (r.Yields r.expression) (Piece.cut w.toList) parts)
    (hnodes : ∀ m, Part.node m ∈ parts → Enclosed m.display.toList) :
    List.Forall₂ Piece.Rewritten (Piece.cut w.toList) (parts.map shownCut) := by
  obtain ⟨hlength, hyields⟩ := List.forall₂_iff_zip.mp hparts
  refine List.forall₂_map_right_iff.mpr (List.forall₂_iff_zip.mpr ⟨hlength, fun hmem => ?_⟩)
  obtain ⟨hcut, hpart⟩ := List.of_mem_zip hmem
  cases hyields hmem with
  | text u =>
    rw [plain_of_raw hr, shownCut, String.toList_ofList]
    exact .text u
  | @span u m hread =>
    refine .span ?_ (hnodes m hpart)
    -- the old substitution was read, and there is no quote in it
    obtain ⟨b, hb⟩ := exists_tree_of_expression hread
    have hlone := (expressionTree_eq_ok_iff.mp hb).2
    rw [String.toList_ofList] at hlone
    exact hlone.nested (fun hmem => hquote ((Piece.raw_infix_of_mem_cut hcut).subset hmem))

theorem readsBack_interpolated (hr : r.unescapes = false) (hr' : r'.unescapes = false)
    (hquote : '"' ∉ w.toList)
    (hparts : List.Forall₂ (r.Yields r.expression) (Piece.cut w.toList) parts)
    (hplain : plainText? parts = none)
    (hnodes : ∀ m, Part.node m ∈ parts → Enclosed m.display.toList ∧ '"' ∉ m.display.toList ∧
      r'.expression m.display = .ok m) : r'.ReadsBack (.interpolated parts) := by
  have hrewritten := rewritten_shownCut hr hquote hparts (fun m hm => (hnodes m hm).1)
  have hcut : Piece.cut (String.join (parts.map Part.display)).toList = parts.map shownCut := by
    rw [← joined_shownCut]
    exact (Piece.cutFrom_rewritten hrewritten).1
  have hchars : '"' ∉ (String.join (parts.map Part.display)).toList := by
    rw [← joined_shownCut]
    intro hmem
    obtain ⟨cut, hpart, hchar⟩ := List.mem_flatMap.mp hmem
    obtain ⟨p, hp, rfl⟩ := List.mem_map.mp hpart
    cases p with
    | node m => exact (hnodes m hp).2.1 hchar
    | text s =>
      obtain ⟨u, hold, rfl⟩ := text_of_text_mem hparts hp
      rw [plain_of_raw hr, shownCut, String.toList_ofList] at hchar
      exact hquote ((Piece.raw_infix_of_mem_cut hold).subset hchar)
  refine readsBack_quoted hchars (Node.toList_display_interpolated parts) ?_
  refine stringNode_interpolated ?_ hplain
  rw [Piece.split, hcut]
  refine partsOf_of_forall₂ (List.forall₂_map_left_iff.mpr (List.forall₂_same.mpr ?_))
  intro p hp
  cases p with
  | text s =>
    have htext := Yields.text (r := r') (f := r'.expression) s.toList
    rwa [plain_of_raw hr', String.ofList_toList] at htext
  | node m =>
    refine .span ?_
    rw [String.ofList_toList]
    exact (hnodes m hp).2.2

end Interpolated

/-! ## Whole programs -/

/-- Only strings are written with quotes. -/
theorem quote_not_mem_display {n : Node}
    (h : n.Everywhere (fun m => (r.Left m ∧ m.Writable) ∧ m.isInterpolated = false ∧
      m.isString = false)) : '"' ∉ n.display.toList := by
  induction n using Node.inside_induction with
  | step n ih =>
    obtain ⟨⟨⟨hleft, hwritable⟩, hinterpolated, hstring⟩, hinside⟩ := Node.everywhere_iff.mp h
    cases n with
    | literal l =>
      cases l with
      | integer v =>
        rw [Node.display]
        exact quote_not_mem_toString_int v.toInt
      | float v => exact hwritable.elim
      | string s => cases hstring
    | flag f => exact hleft.elim
    | interpolated parts => cases hinterpolated
    | «variable» name =>
      have hname : '"' ∉ name.toList := hleft.not_mem rfl rfl
      rw [Node.toList_display_variable]
      simp [hname]
    | command name arguments flags =>
      have hname : '"' ∉ name.toList := hleft.1.not_mem rfl rfl
      have hwords : '"' ∉ spaced ((flags.map Node.flag ++ arguments).map Node.display) := by
        intro hmem
        obtain ⟨_, hw, hchar⟩ := List.mem_flatMap.mp hmem
        obtain ⟨m, hm, rfl⟩ := List.mem_map.mp hw
        have hchar : '"' ∈ m.display.toList := (List.mem_cons.mp hchar).resolve_left (by decide)
        rcases List.mem_append.mp hm with hm | hm
        · obtain ⟨f, hf, rfl⟩ := List.mem_map.mp hm
          obtain ⟨name, long, hname, rfl⟩ := hleft.2 f hf
          have hname : '"' ∉ name.toList := hname.not_mem rfl rfl
          rw [Node.display] at hchar
          cases long <;> simp [Flag.display, Flag.written, hname] at hchar
        · have hm : some m ∈ (Node.command name arguments flags).inside := List.mem_map_of_mem hm
          exact ih m hm (hinside m hm) hchar
      rw [Node.toList_display_command]
      generalize spaced _ = words at hwords ⊢
      simp [hname, hwords]

/-- A node that was read without decoding is read back, by induction on what stands inside it. -/
theorem readsBack_of_read (hr : r.unescapes = false) (hr' : r'.unescapes = false) {n : Node}
    (h : n.Everywhere (fun m => (r.Left m ∧ m.Writable) ∧ m.Normal))
    (hlength : n.display.length ≤ r'.maxNesting) : r'.ReadsBack n := by
  induction n using Node.inside_induction with
  | step n ih =>
    obtain ⟨⟨⟨hleft, hwritable⟩, hnormal⟩, hinside⟩ := Node.everywhere_iff.mp h
    have hlengths : ∀ m, some m ∈ n.inside → m.display.length ≤ r'.maxNesting :=
      fun m hm => le_trans (Node.length_display_le hm) hlength
    have hback : ∀ m, some m ∈ n.inside → r'.ReadsBack m :=
      fun m hm => ih m hm (hinside m hm) (hlengths m hm)
    cases n with
    | literal l =>
      cases l with
      | integer v =>
        refine ⟨.integer v, ?_, rfl, rfl⟩
        rw [Node.display]
        exact exprText_integer v
      | float v => exact hwritable.elim
      | string s =>
        refine readsBack_quoted hleft.1 ?_ (stringNode_of_no_span hr' _ hleft.2)
        rw [Node.display]
        exact toList_quoted s
    | flag f => exact hleft.elim
    | «variable» name => exact readsBack_variable hleft
    | command name arguments flags =>
      refine readsBack_command hleft.1 hleft.2 (fun m hm => hback m (List.mem_map_of_mem hm)) ?_
      rintro m hm f rfl
      exact (hinside _ (List.mem_map_of_mem hm)).self.2.elim
    | interpolated parts =>
      obtain ⟨hplain, w, hquote, hparts⟩ := hleft
      refine readsBack_interpolated hr hr' hquote hparts hplain (fun m hm => ?_)
      have hm' := Node.some_mem_inside_interpolated.mpr hm
      have hread := expression_of_readsBack (hback m hm') (hlengths m hm')
      have hstrings : m.Everywhere (fun k => k.isString = false) := by
        rcases hwritable m hm with ⟨name, rfl⟩ | ⟨-, hstrings⟩
        · exact Node.everywhere_variable.mpr rfl
        · exact hstrings
      have hquote' : '"' ∉ m.display.toList := quote_not_mem_display
        (((hinside m hm').mono (fun _ => And.left)).and ((hnormal.flat m hm).and hstrings))
      refine ⟨enclosed_of_expression hread hquote' ?_, hquote', hread⟩
      rcases hwritable m hm with ⟨name, rfl⟩ | ⟨hcommand, -⟩
      · exact .inl ⟨name, by rw [Node.display]⟩
      · cases m with
        | command name arguments flags =>
          refine .inr ⟨?_, ?_⟩
          · rw [Node.toList_display_command]
            exact ⟨_, rfl⟩
          · rw [Node.toList_display_command]
            exact ⟨'$' :: '(' :: _, rfl⟩
        | _ => cases hcommand

/-- Statements that are written one to a line are read as they are one by one. -/
theorem programText_display {f : String → Except ReadError Node} {ns : List Node}
    (h : ∀ n ∈ ns, ∃ e, ExprText n.display.toList e ∧ e.startsName = false ∧
      exprNode f e = .ok n) :
    ∃ t, ProgramText ("\n".intercalate (ns.map Node.display)).toList t ∧
      statementNodes f t = .ok ns := by
  have hone : ∀ (follow : List Char) {n : Node} {e : Expr}, ExprText n.display.toList e →
      e.startsName = false → StatementText follow n.display.toList ⟨some (.expr e), none⟩ := by
    intro follow n e htext hname
    have hstatement : StatementText follow ([] ++ n.display.toList ++ [] ++ [] ++ [])
        ⟨some (.expr e), none⟩ :=
      .mk blanks_nil (.present (.expr htext hname)) blanks_nil .absent blanks_nil
        (fun hnote => by cases hnote)
    simpa using hstatement
  induction ns with
  | nil => exact ⟨_, programText_nil, rfl⟩
  | cons n ns ih =>
    obtain ⟨e, htext, hname, hread⟩ := h n List.mem_cons_self
    obtain ⟨t, ht, hnodes⟩ := ih (fun m hm => h m (List.mem_cons_of_mem _ hm))
    cases ns with
    | nil =>
      refine ⟨[⟨some (.expr e), none⟩], .last ?_, ?_⟩
      · simpa using hone [] htext hname
      · rw [statementNodes, nodeOf, hread]
        rfl
    | cons m ns =>
      refine ⟨⟨some (.expr e), none⟩ :: t, ?_, ?_⟩
      · rw [List.map_cons, List.map_cons, String.intercalate_cons_cons]
        have hnext := ProgramText.next (hone _ htext hname) .lineFeed ht
        simpa using hnext
      · rw [statementNodes, nodeOf, hread, hnodes]
        rfl

/-- A program that was read without decoding escapes is read back from what it is written as, if it
holds no floating-point number and the substitutions of its strings are variables and commands
without strings. The nesting of a text is at most its length, so a limit of that length is
enough. -/
theorem program_display (hr : r.unescapes = false) (hr' : r'.unescapes = false) {source : String}
    {p : Program} (h : r.program source = .ok p)
    (hwritable : ∀ n ∈ p.statements, n.Everywhere Node.Writable)
    (hlength : p.display.length ≤ r'.maxNesting) : r'.program p.display = .ok p := by
  have hlengths : ∀ n ∈ p.statements, n.display.length ≤ r'.maxNesting := by
    intro n hn
    have hsub : n.display.toList.Sublist p.display.toList :=
      sublist_intercalate (List.mem_map_of_mem hn)
    exact le_trans (length_le_of_sublist hsub) hlength
  have hread : ∀ n ∈ p.statements, r'.ReadsBack n := fun n hn =>
    readsBack_of_read hr hr' (((program_left hr h n hn).and (hwritable n hn)).and
      (program_normal h n hn)) (hlengths n hn)
  obtain ⟨t, htext, hnodes⟩ := programText_display hread
  refine program_eq_ok_iff.mpr ⟨t, programTree_eq_ok_iff.mpr ⟨?_, htext⟩, hnodes⟩
  exact (firstExcess_eq_none_iff _ _).mpr (peak_le_of_length hlength)

/-- The flag moves to the front, the variables get braces, and the opening that is text stays so. -/
theorem program_display_regrouped :
    Reader.program ⟨false, 1⟩ "ls $a -l \"<$b$( pwd $c -p )$\x7b\"" = .ok ⟨[.command "ls"
      [.variable "a", .interpolated [.text "<", .node (.variable "b"),
        .node (.command "pwd" [.variable "c"] [.written "p" false]), .text "$\x7b"]]
      [.written "l" false]]⟩ ∧
    Reader.program ⟨false, 39⟩ "$(ls -l $\x7ba\x7d \"<$\x7bb\x7d$(pwd -p $\x7bc\x7d)$\x7b\")" =
      .ok ⟨[.command "ls"
        [.variable "a", .interpolated [.text "<", .node (.variable "b"),
          .node (.command "pwd" [.variable "c"] [.written "p" false]), .text "$\x7b"]]
        [.written "l" false]]⟩ := by
  have hread : Reader.program ⟨false, 1⟩ "ls $a -l \"<$b$( pwd $c -p )$\x7b\"" = .ok ⟨[.command "ls"
      [.variable "a", .interpolated [.text "<", .node (.variable "b"),
        .node (.command "pwd" [.variable "c"] [.written "p" false]), .text "$\x7b"]]
      [.written "l" false]]⟩ := by
    cbv
  have hback := @program_display _ ⟨false, 39⟩ rfl rfl _ _ hread ?_ ?_
  · exact ⟨hread, hback⟩
  · simp [Node.everywhere_command, Node.everywhere_interpolated, Node.everywhere_variable,
      Node.Writable, Node.isCommand, Node.isString]
  · decide +kernel

end Reader

end CommandShell
