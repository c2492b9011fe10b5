/-
# CommandShell.Proofs.Program.Substitution -- substitutions in strings

What a string is cut into is found by counting parentheses, what an expression is by the grammar.
Without strings inside it the two agree on where a substitution ends: all parentheses in it belong
to substitutions, so they come in pairs (`Nested`), and the one that closes the outermost level is
the last character. The scan for nesting is where it was as well, so that neither what stands in
front nor what follows in the string counts.

So a substitution in braces or parentheses is read inside a string as it is on its own.
-/
import CommandShell.Proofs.Program.Rereading

namespace CommandShell

open Grammar Grammar.Nesting

/-! ## Paired parentheses -/

namespace Grammar

theorem flat_braced {u : List Char} (hu : NameText u) :
    Flat ('$' :: '\x7b' :: (u ++ ['\x7d'])) :=
  flat_cons (by decide) (flat_cons (by decide) (hu.flat.append (by decide)))

theorem flat_named {u : List Char} (hu : NameText u) : Flat ('$' :: u) :=
  flat_cons (by decide) hu.flat

/-- The texts whose parentheses come in pairs, each pair that of a substitution. -/
inductive Nested : List Char → Prop
  | flat {u : List Char} : Flat u → Nested u
  | append {u v : List Char} : Nested u → Nested v → Nested (u ++ v)
  | level {u : List Char} : Nested u → Nested ('$' :: '(' :: (u ++ [')']))

theorem Nested.between {a u b : List Char} (h : Nested u) (ha : Blanks a) (hb : Blanks b) :
    Nested (a ++ u ++ b) :=
  ((Nested.flat ha.flat).append h).append (.flat hb.flat)

mutual

/-- Only strings hold parentheses that need not be paired. -/
theorem BodyText.nested {u : List Char} {b : Body} : BodyText u b → '"' ∉ u → Nested u
  | .command hu hv, hquote =>
      (Nested.flat hu.flat).append (hv.nested (fun h => hquote (List.mem_append_right _ h)))
  | .expr hu _, hquote => hu.nested hquote

theorem WordsText.nested {v : List Char} {words : List Argument} :
    WordsText v words → '"' ∉ v → Nested v
  | .nil, _ => .flat (by decide)
  | .cons hb _ hu hv, hquote => by
      simp only [List.mem_append, not_or] at hquote
      exact ((Nested.flat hb.flat).append (hu.nested hquote.1.2)).append (hv.nested hquote.2)

theorem WordText.nested {u : List Char} {a : Argument} : WordText u a → '"' ∉ u → Nested u
  | .long hu, _ => .flat (flat_cons (by decide) (flat_cons (by decide) hu.flat))
  | .short hu, _ => .flat (flat_cons (by decide) hu.flat)
  | .expr hu, hquote => hu.nested hquote

theorem ExprText.nested {u : List Char} {e : Expr} : ExprText u e → '"' ∉ u → Nested u
  | .substitution ha hu hb, hquote => by
      simp only [List.mem_cons, List.mem_append, not_or] at hquote
      exact .level ((hu.nested hquote.2.2.1.1.2).between ha hb)
  | .quoted _, hquote => absurd List.mem_cons_self hquote
  | .braced hu, _ => .flat (flat_braced hu)
  | .named hu, _ => .flat (flat_named hu)
  | .bare hu, _ => .flat hu.flat
  | .integer hs hds _, _ => .flat (hs.flat.append hds.flat)
  | .float hu _, _ => .flat hu.flat

end

theorem LoneText.nested {u : List Char} {b : Body} (h : LoneText u b) (hquote : '"' ∉ u) :
    Nested u := by
  obtain ⟨ha, hu, hb⟩ := h
  simp only [List.mem_append, not_or] at hquote
  exact (hu.nested hquote.1.2).between ha hb

/-- Paired parentheses leave the gauge where it was. -/
theorem Nested.after_depth {u : List Char} (h : Nested u) (g : Gauge) :
    (g.after u).depth = g.depth := by
  induction h generalizing g with
  | flat hu => exact hu.after_depth g
  | append _ _ ihu ihv => rw [Gauge.after_append, ihv, ihu]
  | @level u _ ih =>
    have hopen : (g.step '$').step '(' = ⟨g.depth + 1, false⟩ := Gauge.step_open
    show (((g.step '$').step '(').after (u ++ [')'])).depth = g.depth
    rw [hopen, Gauge.after_append]
    show ((Gauge.after ⟨g.depth + 1, false⟩ u).step ')').depth = g.depth
    rw [Gauge.step_close, ih]
    rfl

/-! ## Substitutions with an end of their own -/

/-- The texts of substitutions that end with a bracket, whatever follows. -/
inductive Enclosed : List Char → Prop
  | braced {u : List Char} : NameText u → Enclosed ('$' :: '\x7b' :: (u ++ ['\x7d']))
  | nested {u : List Char} : Nested u → Enclosed ('$' :: '(' :: (u ++ [')']))

namespace Nesting.Gauge

theorem step_dollar (g : Gauge) (c : Char) : (g.step c).dollar = (c == '$') := by
  unfold step
  split
  · next h => rw [h]; rfl
  split
  · next h => rw [h]; rfl
  · rfl

theorem after_concat_dollar (g : Gauge) (u : List Char) (c : Char) :
    (g.after (u ++ [c])).dollar = (c == '$') := by
  rw [after_append]
  exact step_dollar _ c

theorem step_start {c : Char} (hc : c ≠ '$') : start.step c = start := by
  simp [step, start, hc]

/-- Where there is no dollar sign the gauge does not leave the start. -/
theorem after_of_no_dollar {u : List Char} (h : '$' ∉ u) : start.after u = start := by
  induction u with
  | nil => rfl
  | cons c u ih =>
    rw [List.mem_cons, not_or] at h
    show (start.step c).after u = start
    rw [step_start (Ne.symm h.1), ih h.2]

/-- Quotes around a text do not change what the scan finds in it. -/
theorem peak_quoted (u : List Char) : start.peak ('"' :: (u ++ ['"'])) = start.peak u := by
  have hlast : Flat ['"'] := by decide
  show max 0 (start.peak (u ++ ['"'])) = _
  rw [Nat.zero_max, peak_append, hlast.peak_eq]
  exact max_eq_left (start.after_depth_le_peak u)

end Nesting.Gauge

theorem Enclosed.nested_text {u : List Char} (h : Enclosed u) : Nested u := by
  cases h with
  | braced hu => exact .flat (flat_braced hu)
  | nested hu => exact .level hu

theorem Enclosed.exists_cons {u : List Char} (h : Enclosed u) : ∃ v, u = '$' :: v := by
  cases h <;> exact ⟨_, rfl⟩

/-- Behind a substitution the scan for nesting stands as at the start. -/
theorem Enclosed.after_start {u : List Char} (h : Enclosed u) :
    Gauge.start.after u = Gauge.start := by
  have hdepth : (Gauge.start.after u).depth = 0 := h.nested_text.after_depth _
  have hdollar : (Gauge.start.after u).dollar = false := by
    cases h with
    | @braced u _ => exact Gauge.after_concat_dollar _ u _
    | @nested u _ => exact Gauge.after_concat_dollar _ u _
  exact congrArg₂ Gauge.mk hdepth hdollar

/-- Nothing but blanks surrounds the one expression of a text. -/
theorem LoneText.bodyText {u : List Char} {b : Body} {last : Char}
    (h : LoneText ('$' :: (u ++ [last])) b) (hlast : isSpace last = false) :
    BodyText ('$' :: (u ++ [last])) b := by
  generalize hw : '$' :: (u ++ [last]) = w at h ⊢
  obtain @⟨front, v, back, _, hfront, hv, hback⟩ := h
  have hfront : front = [] := by
    cases front with
    | nil => rfl
    | cons c front =>
      have hc := hfront c List.mem_cons_self
      rw [← (List.cons.inj hw).1] at hc
      cases hc
  have hback : back = [] := by
    rcases List.eq_nil_or_concat back with hnil | ⟨back, c, rfl⟩
    · exact hnil
    · have hc : last = c := by
        have hends := congrArg List.getLast? hw
        rw [← List.cons_append, List.getLast?_concat, List.concat_eq_append, ← List.append_assoc,
          List.getLast?_concat] at hends
        exact Option.some.inj hends
      rw [hc, hback c (by simp)] at hlast
      cases hlast
  rwa [hfront, hback, List.nil_append, List.append_nil]

/-- Only variables and substitutions start with a dollar sign. -/
theorem BodyText.of_dollar {u : List Char} {b : Body} (h : BodyText ('$' :: u) b) :
    (∃ name, NameText name ∧ u = '\x7b' :: (name ++ ['\x7d'])) ∨ NameText u ∨
      ∃ inner, u = '(' :: (inner ++ [')']) ∧ ('"' ∉ inner → Nested inner) := by
  generalize hw : '$' :: u = w at h
  cases h with
  | command hname _ =>
    obtain ⟨hfirst, _⟩ := hname
    rw [← (List.cons.inj hw).1] at hfirst
    cases hfirst
  | expr hexpr _ =>
    cases hexpr with
    | braced hname => exact .inl ⟨_, hname, (List.cons.inj hw).2⟩
    | named hname =>
      rw [← (List.cons.inj hw).2] at hname
      exact .inr (.inl hname)
    | substitution ha hinner hb =>
      refine .inr (.inr ⟨_, (List.cons.inj hw).2, fun hquote => ?_⟩)
      simp only [List.mem_append, not_or] at hquote
      exact (hinner.nested hquote.1.2).between ha hb
    | quoted _ => cases hw
    | bare hbare =>
      obtain ⟨hfirst, _⟩ := hbare
      rw [← (List.cons.inj hw).1] at hfirst
      cases hfirst
    | integer hs hds _ =>
      obtain ⟨c, more, hnumeral, hc⟩ := hs.head_numeral hds
      rw [hnumeral] at hw
      rw [← (List.cons.inj hw).1] at hc
      cases hc
    | float hfloat _ =>
      obtain ⟨hs, hwhole, _, _⟩ := hfloat
      obtain ⟨c, more, hnumeral, hc⟩ := hs.head_numeral hwhole
      rw [← List.append_assoc, hnumeral] at hw
      rw [← (List.cons.inj hw).1] at hc
      cases hc

/-- A text that is read as a whole and starts and ends as a substitution does is one. -/
theorem LoneText.enclosed {u : List Char} {b : Body} {first last : Char}
    (h : LoneText ('$' :: first :: (u ++ [last])) b) (hquote : '"' ∉ u)
    (hbrackets : first = '\x7b' ∧ last = '\x7d' ∨ first = '(' ∧ last = ')') :
    Enclosed ('$' :: first :: (u ++ [last])) := by
  have hlast : isSpace last = false := by
    rcases hbrackets with ⟨-, rfl⟩ | ⟨-, rfl⟩ <;> rfl
  have hbody : BodyText ('$' :: first :: (u ++ [last])) b := h.bodyText (u := first :: u) hlast
  rcases hbody.of_dollar with ⟨name, hname, hu⟩ | hname | ⟨inner, hu, hnested⟩
  · rw [hu]
    exact .braced hname
  · -- no name starts with a bracket
    obtain ⟨hfirst, _⟩ := hname
    rcases hbrackets with ⟨rfl, -⟩ | ⟨rfl, -⟩ <;> cases hfirst
  · obtain rfl : u = inner := (List.append_inj' (List.cons.inj hu).2 rfl).1
    rw [hu]
    exact .nested (hnested hquote)

end Grammar

/-! ## Where a substitution ends -/

namespace Piece

theorem cutFrom_length (u rest : List Char) : cutFrom u.length (u ++ rest) = cutFrom 0 rest := by
  induction u with
  | nil => rfl
  | cons c u ih => exact ih

/-- A complete substitution is one piece, and cutting goes on behind it. -/
theorem cutFrom_span {u rest : List Char}
    (h : spanLength? ('$' :: (u ++ rest)) = some (u.length + 1)) :
    cutFrom 0 ('$' :: (u ++ rest)) = .span ('$' :: u) :: cutFrom 0 rest := by
  rw [cutFrom, h]
  · show Cut.span ('$' :: (u ++ rest).take u.length) :: cutFrom u.length (u ++ rest) = _
    rw [List.take_left, cutFrom_length]
  · intro d more hslash
    cases hslash

theorem nameLength?_append {u rest : List Char} (hu : NameText u)
    (hrest : Avoids isNameRest rest) : nameLength? (u ++ rest) = some u.length := by
  obtain ⟨hfirst, hmore⟩ := hu
  rw [List.cons_append, nameLength?, if_pos hfirst, takeWhile_append_of_avoids hmore hrest]
  rfl

theorem spanLength?_braced {u : List Char} (hu : NameText u) (rest : List Char) :
    spanLength? ('$' :: '\x7b' :: (u ++ '\x7d' :: rest)) = some (u.length + 3) := by
  rw [spanLength?, bracedLength?, nameLength?_append hu (avoids_cons.mpr rfl)]
  simp

theorem spanLength?_named {u rest : List Char} (hu : NameText u) (hrest : Avoids isNameRest rest) :
    spanLength? ('$' :: (u ++ rest)) = some (u.length + 1) := by
  have hlength := nameLength?_append hu hrest
  obtain @⟨c, u, hfirst, -⟩ := hu
  rw [List.cons_append] at hlength ⊢
  rw [spanLength?, hlength]
  · rfl
  · rintro more ⟨rfl, -⟩
    cases hfirst
  · rintro more ⟨rfl, -⟩
    cases hfirst

/-- How a closing parenthesis is searched behind one more character. -/
theorem closing?_cons {c : Char} (hopen : c ≠ '(') (hclose : c ≠ ')') (depth : Nat)
    (rest : List Char) : closing? depth (c :: rest) = (closing? depth rest).map (· + 1) := by
  rw [closing?]
  · exact hopen
  · exact fun _ => hclose
  · exact fun _ _ => hclose

/-- Paired parentheses are passed over on the way to the closing one. -/
theorem closing?_nested {u : List Char} (hu : Nested u) (depth : Nat) (rest : List Char) :
    closing? depth (u ++ rest) = (closing? depth rest).map (· + u.length) := by
  induction hu generalizing depth rest with
  | @flat u hu =>
    induction u with
    | nil => simp
    | cons c u ih =>
      obtain ⟨hopen, hclose⟩ := hu c List.mem_cons_self
      rw [List.cons_append, closing?_cons hopen hclose,
        ih (fun d hd => hu d (List.mem_cons_of_mem _ hd)), Option.map_map]
      rfl
  | append _ _ ihu ihv =>
    rw [List.append_assoc, ihu, ihv, Option.map_map, List.length_append]
    congr 1
    funext n
    simp only [Function.comp_apply]
    omega
  | @level u _ ih =>
    -- the level is opened and, behind what is inside, closed again
    have htext : '$' :: '(' :: (u ++ [')']) ++ rest = '$' :: '(' :: (u ++ ')' :: rest) := by simp
    rw [htext, closing?_cons (by decide) (by decide), closing?, ih, closing?, Option.map_map,
      Option.map_map, Option.map_map]
    congr 1
    funext n
    simp only [Function.comp_apply, List.length_cons, List.length_append, List.length_nil]
    omega

/-- A substitution with an end of its own is complete, whatever follows. -/
theorem spanLength?_enclosed {u : List Char} (hu : Enclosed u) (rest : List Char) :
    spanLength? (u ++ rest) = some u.length := by
  cases hu with
  | @braced u hu =>
    have htext : '$' :: '\x7b' :: (u ++ ['\x7d']) ++ rest =
        '$' :: '\x7b' :: (u ++ '\x7d' :: rest) := by simp
    rw [htext, spanLength?_braced hu]
    simp
  | @nested u hu =>
    have hclose : closing? 0 (')' :: rest) = some 1 := rfl
    have htext : '$' :: '(' :: (u ++ [')']) ++ rest = '$' :: '(' :: (u ++ ')' :: rest) := by simp
    rw [htext, spanLength?, closing?_nested hu, hclose]
    simp only [Option.map_some, List.length_cons, List.length_append, List.length_nil]
    congr 1
    omega

theorem cutFrom_enclosed {u : List Char} (hu : Enclosed u) (rest : List Char) :
    cutFrom 0 (u ++ rest) = .span u :: cutFrom 0 rest := by
  have hlength := spanLength?_enclosed hu rest
  obtain ⟨v, rfl⟩ := hu.exists_cons
  exact cutFrom_span hlength

theorem cutFrom_text {t : List Char} (hslash : '\\' ∉ t) (hdollar : '$' ∉ t) (hne : t ≠ [])
    (rest : List Char) : cutFrom 0 (t ++ rest) = prependText t (cutFrom 0 rest) := by
  induction t with
  | nil => exact absurd rfl hne
  | cons c t ih =>
    rw [List.mem_cons, not_or] at hslash hdollar
    rw [List.cons_append, cutFrom_of_ne (Ne.symm hslash.1) (Ne.symm hdollar.1)]
    by_cases hnil : t = []
    · rw [hnil]
      rfl
    · rw [ih hslash.2 hdollar.2 hnil, prependText_append]
      rfl

/-- Whether a text stands for itself wherever it stands in a string. -/
structure Verbatim (t : String) : Prop where
  dollar : '$' ∉ t.toList
  quote : '"' ∉ t.toList
  slash : '\\' ∉ t.toList

/-- A piece of text, if there is any. -/
def ofText (t : String) : List Piece := if t = "" then [] else [.text t]

/-- Text in front of a substitution or of the end is a piece of its own. -/
theorem map_cutFrom_text {t : String} {rest : List Char} (ht : Verbatim t)
    (hrest : ∀ more cuts, cutFrom 0 rest ≠ .text more :: cuts) :
    (cutFrom 0 (t.toList ++ rest)).map ofCut = ofText t ++ (cutFrom 0 rest).map ofCut := by
  rw [ofText]
  split
  · next hempty => rw [hempty]; rfl
  · next hempty =>
    rw [cutFrom_text ht.slash ht.dollar (fun h => hempty (String.toList_inj.mp h))]
    generalize cutFrom 0 rest = cuts at hrest
    rcases cuts with _ | ⟨more | u, cuts⟩
    · simp [prependText, ofCut]
    · exact absurd rfl (hrest more cuts)
    · simp [prependText, ofCut]

/-- A string of text, a substitution and text is cut where the substitution starts and ends. -/
theorem split_enclosed {e t₁ t₂ : String} (he : Enclosed e.toList) (h₁ : Verbatim t₁)
    (h₂ : Verbatim t₂) : split (t₁ ++ e ++ t₂) = ofText t₁ ++ .span e :: ofText t₂ := by
  have hspan : cutFrom 0 (e.toList ++ t₂.toList) = .span e.toList :: cutFrom 0 t₂.toList :=
    cutFrom_enclosed he t₂.toList
  have hback : (cutFrom 0 t₂.toList).map ofCut = ofText t₂ := by
    have hend : ∀ more cuts, cutFrom 0 [] ≠ .text more :: cuts := fun _ _ h => by cases h
    simpa [cutFrom] using map_cutFrom_text h₂ hend
  have hfront : ∀ more cuts, cutFrom 0 (e.toList ++ t₂.toList) ≠ .text more :: cuts := by
    intro more cuts h
    rw [hspan] at h
    cases h
  rw [split, cut, String.toList_append, String.toList_append, List.append_assoc,
    map_cutFrom_text h₁ hfront, hspan, List.map_cons, hback, ofCut,
    String.ofList_toList]

end Piece

/-! ## Reading -/

namespace Escape

theorem decodeFrom_of_no_slash {u : List Char} (h : '\\' ∉ u) : decodeFrom 0 u = u := by
  induction u with
  | nil => rfl
  | cons c u ih =>
    rw [List.mem_cons, not_or] at h
    rw [decodeFrom, if_neg (Ne.symm h.1), ih h.2]

end Escape

/-- A part of text, if there is any. -/
def Part.ofText (t : String) : List Part := if t = "" then [] else [.text t]

namespace Reader

/-- Without a backslash there is nothing to decode. -/
theorem plain_of_no_slash (r : Reader) {t : String} (h : '\\' ∉ t.toList) : r.plain t = t := by
  rw [plain]
  split
  · rw [Escape.unescape, Escape.decodeFrom_of_no_slash h, String.ofList_toList]
  · rfl

theorem partsOf_ofText (r : Reader) (readSpan : String → Except ReadError Node) {t : String}
    (h : '\\' ∉ t.toList) {pieces : List Piece} {parts : List Part}
    (hparts : r.partsOf readSpan pieces = .ok parts) :
    r.partsOf readSpan (Piece.ofText t ++ pieces) = .ok (Part.ofText t ++ parts) := by
  rw [Piece.ofText, Part.ofText]
  split
  · exact hparts
  · rw [List.singleton_append, partsOf, hparts, r.plain_of_no_slash h]
    rfl

theorem plainText?_node (front back : List Part) (n : Node) :
    plainText? (front ++ .node n :: back) = none := by
  induction front with
  | nil => rfl
  | cons p front ih =>
    cases p with
    | text s => rw [List.cons_append, plainText?, ih]; rfl
    | node m => rfl

section Strings

variable {r : Reader} {readSpan : String → Except ReadError Node} {raw : String} {parts : List Part}

theorem stringNode_interpolated (hparts : r.partsOf readSpan (Piece.split raw) = .ok parts)
    (hplain : plainText? parts = none) :
    r.stringNode readSpan raw = .ok (.interpolated parts) := by
  simp only [stringNode, hparts, bind, Except.bind, hplain]
  rfl

theorem stringNode_literal {s : String}
    (hparts : r.partsOf readSpan (Piece.split raw) = .ok parts)
    (hplain : plainText? parts = some s) :
    r.stringNode readSpan raw = .ok (.literal (.string s)) := by
  simp only [stringNode, hparts, bind, Except.bind, hplain]
  rfl

end Strings

theorem toList_quoted (raw : String) :
    ("\"" ++ raw ++ "\"").toList = '"' :: (raw.toList ++ ['"']) := by
  simp

/-- The text of an expression, with no blanks around it, has the tree of the expression. -/
theorem expressionTree_of_exprText {r : Reader} {source : String} {e : Expr}
    (h : ExprText source.toList e) (hname : e.startsName = false)
    (hpeak : Gauge.start.peak source.toList ≤ r.maxNesting) :
    r.expressionTree source = .ok (.expr e) := by
  have hlone := LoneText.mk blanks_nil (.expr h hname) blanks_nil
  rw [List.nil_append, List.append_nil] at hlone
  exact expressionTree_eq_ok_iff.mpr ⟨(firstExcess_eq_none_iff _ _).mpr hpeak, hlone⟩

/-- A word in quotes is an expression. -/
theorem expressionTree_quoted {r : Reader} {raw : String} (hquote : '"' ∉ raw.toList)
    (hpeak : Gauge.start.peak raw.toList ≤ r.maxNesting) :
    r.expressionTree ("\"" ++ raw ++ "\"") = .ok (.expr (.quoted raw)) := by
  have hword : ExprText ('"' :: (raw.toList ++ ['"'])) (.quoted (String.ofList raw.toList)) :=
    .quoted (fun c hc => bne_iff_ne.mpr (fun heq => hquote (heq ▸ hc)))
  rw [String.ofList_toList, ← toList_quoted] at hword
  refine expressionTree_of_exprText hword rfl ?_
  rwa [toList_quoted, Gauge.peak_quoted]

theorem exists_tree_of_expression {r : Reader} {source : String} {n : Node}
    (h : r.expression source = .ok n) : ∃ b, r.expressionTree source = .ok b := by
  cases hb : r.expressionTree source with
  | error e =>
    rw [expression, expressionWithin_of_error hb] at h
    cases h
  | ok b => exact ⟨b, rfl⟩

/-- What can be read and stands in brackets is a substitution with an end of its own. -/
theorem enclosed_of_expression {r : Reader} {e : String} {n : Node}
    (hread : r.expression e = .ok n) (hquote : '"' ∉ e.toList)
    (hbrackets : (∃ name, e = "$\x7b" ++ name ++ "\x7d") ∨
      "$(".toList <+: e.toList ∧ ")".toList <:+ e.toList) : Enclosed e.toList := by
  obtain ⟨b, hb⟩ := exists_tree_of_expression hread
  have hlone := (expressionTree_eq_ok_iff.mp hb).2
  obtain ⟨first, u, last, htext, hends⟩ : ∃ first u last, e.toList = '$' :: first :: (u ++ [last]) ∧
      (first = '\x7b' ∧ last = '\x7d' ∨ first = '(' ∧ last = ')') := by
    rcases hbrackets with ⟨name, rfl⟩ | ⟨⟨w, hw⟩, ⟨v, hv⟩⟩
    · exact ⟨_, name.toList, _, by simp, .inl ⟨rfl, rfl⟩⟩
    · rw [← hw] at hv
      -- the opening bracket and the closing one do not overlap
      rcases v with _ | ⟨c, _ | ⟨d, v⟩⟩
      · cases hv
      · cases hv
      · cases hv
        exact ⟨_, v, _, hw.symm, .inr ⟨rfl, rfl⟩⟩
  rw [htext] at hlone hquote ⊢
  refine hlone.enclosed (fun hmem => hquote ?_) hends
  simp [hmem]

/-- A substitution in braces or parentheses means the same inside and outside of a string: between
two texts that stand for themselves it is read as the node that it is read as alone. -/
theorem expression_embedded (r : Reader) {e t₁ t₂ : String} {n : Node}
    (hquote : '"' ∉ e.toList)
    (hbrackets : (∃ name, e = "$\x7b" ++ name ++ "\x7d") ∨
      "$(".toList <+: e.toList ∧ ")".toList <:+ e.toList)
    (hread : r.expression e = .ok n) (h₁ : Piece.Verbatim t₁) (h₂ : Piece.Verbatim t₂) :
    r.expression ("\"" ++ t₁ ++ e ++ t₂ ++ "\"") =
      .ok (.interpolated (Part.ofText t₁ ++ .node n :: Part.ofText t₂)) := by
  have he := enclosed_of_expression hread hquote hbrackets
  obtain ⟨b, hb⟩ := exists_tree_of_expression hread
  have hpeak := (firstExcess_eq_none_iff _ _).mp (expressionTree_eq_ok_iff.mp hb).1
  have htree : r.expressionTree ("\"" ++ (t₁ ++ e ++ t₂) ++ "\"") =
      .ok (.expr (.quoted (t₁ ++ e ++ t₂))) := by
    refine expressionTree_quoted (by simp [h₁.quote, hquote, h₂.quote]) ?_
    -- the scan comes to the substitution and leaves it as if it stood alone
    rw [String.toList_append, String.toList_append, List.append_assoc, Gauge.peak_append,
      Gauge.peak_of_no_dollar h₁.dollar, Gauge.after_of_no_dollar h₁.dollar, Gauge.peak_append,
      he.after_start, Gauge.peak_of_no_dollar h₂.dollar, Nat.max_zero, Nat.zero_max]
    exact hpeak
  have hparts : r.partsOf r.expression (Piece.split (t₁ ++ e ++ t₂)) =
      .ok (Part.ofText t₁ ++ .node n :: Part.ofText t₂) := by
    have hend : r.partsOf r.expression [] = .ok [] := rfl
    have hback := r.partsOf_ofText r.expression h₂.slash hend
    rw [List.append_nil, List.append_nil] at hback
    rw [Piece.split_enclosed he h₁ h₂]
    refine r.partsOf_ofText r.expression h₁.slash ?_
    rw [partsOf, hread, hback]
    rfl
  have hsource : "\"" ++ t₁ ++ e ++ t₂ ++ "\"" = "\"" ++ (t₁ ++ e ++ t₂) ++ "\"" := by
    simp only [String.append_assoc]
  rw [hsource, expression_of_tree htree, nodeOf, exprNode]
  exact stringNode_interpolated hparts (plainText?_node _ _ n)

/-- Parentheses of the text around a substitution are not counted, those inside it are paired. -/
theorem expression_embedded_parentheses :
    Reader.expression { maxNesting := 2 } "$( a $(b -c) $\x7bd\x7d )" =
        .ok (.command "a" [.command "b" [] [.written "c" false], .variable "d"] []) ∧
      Reader.expression { maxNesting := 2 }
        ("\"" ++ ") (" ++ "$( a $(b -c) $\x7bd\x7d )" ++ ") #" ++ "\"") =
        .ok (.interpolated [.text ") (",
          .node (.command "a" [.command "b" [] [.written "c" false], .variable "d"] []),
          .text ") #"]) := by
  have hread : Reader.expression { maxNesting := 2 } "$( a $(b -c) $\x7bd\x7d )" =
      .ok (.command "a" [.command "b" [] [.written "c" false], .variable "d"] []) :=
    expression_of_tree (b := .expr (.substitution (.command "a"
      [.expr (.substitution (.command "b" [.flag "c" false])), .expr (.variable "d")]))) rfl
  exact ⟨hread, expression_embedded _ (by decide) (.inr (by decide)) hread
    ⟨by decide, by decide, by decide⟩ ⟨by decide, by decide, by decide⟩⟩

end Reader

end CommandShell
