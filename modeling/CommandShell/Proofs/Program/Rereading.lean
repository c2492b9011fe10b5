/-
# CommandShell.Proofs.Program.Rereading -- reading the substitutions of strings

A string is cut at its substitutions, and each of them is read as an expression of its own, whose
strings may hold substitutions again. The reader counts these levels down from the length of the
text. A substitution stands between quotes and is shorter than the text around it, so the count
never runs out: any count that covers the length gives the same (`expressionWithin_congr`), and
without it reading is the recursion that it is meant to be (`expression_of_tree`).
-/
import CommandShell.Proofs.Program.StringLiteral

namespace CommandShell

open Grammar

/-! ## The substitutions of a string -/

namespace Piece

theorem span_mem_prependText {raw u : List Char} {cuts : List Cut} :
    Cut.span u ∈ prependText raw cuts ↔ Cut.span u ∈ cuts := by
  rcases cuts with _ | ⟨more | more, rest⟩ <;> simp [prependText]

/-- A substitution is no longer than the text it stands in. -/
theorem length_le_of_span_mem {skip : Nat} {text u : List Char}
    (h : Cut.span u ∈ cutFrom skip text) : u.length ≤ text.length := by
  fun_induction cutFrom skip text with
  | case1 => cases h
  | case2 skip c rest ih =>
    have hrest := ih h
    rw [List.length_cons]
    omega
  | case3 d rest ih =>
    have hrest := ih (span_mem_prependText.mp h)
    rw [List.length_cons, List.length_cons]
    omega
  | case4 c rest _ n _ ih =>
    rcases List.mem_cons.mp h with heq | h
    · cases heq
      exact List.length_take_le' n (c :: rest)
    · have hrest := ih h
      rw [List.length_cons]
      omega
  | case5 c rest _ _ ih =>
    have hrest := ih (span_mem_prependText.mp h)
    rw [List.length_cons]
    omega

/-- Where there is no dollar sign there is no substitution. -/
theorem span_not_mem_of_no_dollar {skip : Nat} {text u : List Char} (h : '$' ∉ text) :
    Cut.span u ∉ cutFrom skip text := by
  fun_induction cutFrom skip text with
  | case1 => exact List.not_mem_nil
  | case2 skip c rest ih => exact ih (fun hmem => h (List.mem_cons_of_mem _ hmem))
  | case3 d rest ih =>
    rw [span_mem_prependText]
    exact ih (fun hmem => h (List.mem_cons_of_mem _ (List.mem_cons_of_mem _ hmem)))
  | case4 c rest _ n hspan ih =>
    rw [spanLength?_of_ne (fun heq => h (heq ▸ List.mem_cons_self))] at hspan
    cases hspan
  | case5 c rest _ _ ih =>
    rw [span_mem_prependText]
    exact ih (fun hmem => h (List.mem_cons_of_mem _ hmem))

theorem span_mem_split {raw span : String} :
    Piece.span span ∈ split raw ↔ Cut.span span.toList ∈ cut raw.toList := by
  constructor
  · intro h
    obtain ⟨piece, hpiece, heq⟩ := List.mem_map.mp h
    cases piece with
    | text u => cases heq
    | span u =>
      cases heq
      rwa [String.toList_ofList]
  · intro h
    refine List.mem_map.mpr ⟨_, h, ?_⟩
    rw [ofCut, String.ofList_toList]

end Piece

/-! ## The strings of a text -/

namespace Grammar

/-- How a string stands in a text: as an unquoted word, or between quotes. -/
inductive StandsIn (text : List Char) (w : String) : Prop
  | bare : BareText w.toList → StandsIn text w
  | quoted : '"' ∉ w.toList → '"' :: (w.toList ++ ['"']) <:+: text → StandsIn text w

theorem StandsIn.mono {u v : List Char} {w : String} (h : StandsIn u w) (huv : u <:+: v) :
    StandsIn v w := by
  cases h with
  | bare hw => exact .bare hw
  | quoted hw hu => exact .quoted hw (hu.trans huv)

/-- A run has no character outside of its two classes. -/
theorem Run.not_mem {first more : Char → Bool} {u : List Char} (hu : Run first more u) {c : Char}
    (hfirst : first c = false) (hmore : more c = false) : c ∉ u := by
  obtain ⟨hhead, htail⟩ := hu
  intro hmem
  rcases List.mem_cons.mp hmem with rfl | hmem
  · rw [hhead] at hfirst
    cases hfirst
  · rw [htail _ hmem] at hmore
    cases hmore

mutual

theorem BodyText.strings_standIn {u : List Char} {b : Body} :
    BodyText u b → ∀ w ∈ b.strings, StandsIn u w
  | .command _ hv, w, hw => (hv.strings_standIn w hw).mono (List.suffix_append _ _).isInfix
  | .expr hu _, w, hw => hu.strings_standIn w hw

theorem WordsText.strings_standIn {v : List Char} {words : List Argument} :
    WordsText v words → ∀ w ∈ Argument.stringsOf words, StandsIn v w
  | .nil, w, hw => by cases hw
  | .cons _ _ hu hv, w, hw => by
      rw [Argument.stringsOf] at hw
      rcases List.mem_append.mp hw with hw | hw
      · exact (hu.strings_standIn w hw).mono (List.infix_append _ _ _)
      · exact (hv.strings_standIn w hw).mono (List.suffix_append _ _).isInfix

theorem WordText.strings_standIn {u : List Char} {a : Argument} :
    WordText u a → ∀ w ∈ a.strings, StandsIn u w
  | .long _, w, hw => by cases hw
  | .short _, w, hw => by cases hw
  | .expr hu, w, hw => hu.strings_standIn w hw

theorem ExprText.strings_standIn {u : List Char} {e : Expr} :
    ExprText u e → ∀ w ∈ e.strings, StandsIn u w
  | .substitution (a := a) (b := b) _ hu _, w, hw => by
      refine (hu.strings_standIn w hw).mono ⟨'$' :: '(' :: a, b ++ [')'], ?_⟩
      simp
  | .quoted hu, w, hw => by
      rw [List.mem_singleton.mp hw]
      refine .quoted ?_ ?_
      · rw [String.toList_ofList]
        intro hquote
        cases hu _ hquote
      · exact ⟨[], [], by simp⟩
  | .bare hu, w, hw => by
      rw [List.mem_singleton.mp hw]
      exact .bare (by rwa [String.toList_ofList])
  | .braced _, w, hw => by cases hw
  | .named _, w, hw => by cases hw
  | .integer _ _ _, w, hw => by cases hw
  | .float _ _, w, hw => by cases hw

end

theorem LoneText.strings_standIn {u : List Char} {b : Body} (h : LoneText u b) :
    ∀ w ∈ b.strings, StandsIn u w := by
  obtain ⟨-, hu, -⟩ := h
  exact fun w hw => (hu.strings_standIn w hw).mono (List.infix_append _ _ _)

end Grammar

namespace Reader

/-! ## What reading depends on -/

section Congruence

variable {f g : String → Except ReadError Node}

mutual

/-- The node of a body depends on how its own strings are read. -/
theorem nodeOf_congr : ∀ b : Body, (∀ w ∈ b.strings, f w = g w) → nodeOf f b = nodeOf g b
  | .command name arguments, h => by
      rw [nodeOf, nodeOf, wordsOf_congr arguments h]
  | .expr e, h => by
      rw [nodeOf, nodeOf]
      exact exprNode_congr e h

theorem wordsOf_congr : ∀ words : List Argument, (∀ w ∈ Argument.stringsOf words, f w = g w) →
    wordsOf f words = wordsOf g words
  | [], _ => rfl
  | a :: rest, h => by
      rw [Argument.stringsOf] at h
      rw [wordsOf, wordsOf, wordNode_congr a (fun w hw => h w (List.mem_append_left _ hw)),
        wordsOf_congr rest (fun w hw => h w (List.mem_append_right _ hw))]

theorem wordNode_congr : ∀ a : Argument, (∀ w ∈ a.strings, f w = g w) →
    wordNode f a = wordNode g a
  | .flag _ _, _ => rfl
  | .expr e, h => by
      rw [wordNode, wordNode]
      exact exprNode_congr e h

theorem exprNode_congr : ∀ e : Expr, (∀ w ∈ e.strings, f w = g w) → exprNode f e = exprNode g e
  | .variable _, _ => rfl
  | .substitution inner, h => by
      rw [exprNode, exprNode]
      exact nodeOf_congr inner h
  | .quoted raw, h => h raw (List.mem_singleton_self raw)
  | .bare raw, h => h raw (List.mem_singleton_self raw)
  | .integer _, _ => rfl
  | .float _, _ => rfl

end

theorem partsOf_congr (r : Reader) {pieces : List Piece}
    (h : ∀ span, Piece.span span ∈ pieces → f span = g span) :
    r.partsOf f pieces = r.partsOf g pieces := by
  induction pieces with
  | nil => rfl
  | cons piece rest ih =>
    have hrest := ih (fun span hspan => h span (List.mem_cons_of_mem _ hspan))
    cases piece with
    | text raw => rw [partsOf, partsOf, hrest]
    | span raw => rw [partsOf, partsOf, hrest, h raw List.mem_cons_self]

/-- The node of a string depends on how its own substitutions are read. -/
theorem stringNode_congr (r : Reader) {w : String}
    (h : ∀ span, Piece.span span ∈ Piece.split w → f span = g span) :
    r.stringNode f w = r.stringNode g w := by
  rw [stringNode, stringNode, r.partsOf_congr h]

/-- What a text is read as depends on how the substitutions of its strings are read, and these are
shorter than the text. -/
theorem nodeOf_stringNode_congr (r : Reader) {source : String} {b : Body}
    (hb : r.expressionTree source = .ok b)
    (h : ∀ span : String, span.length < source.length → f span = g span) :
    nodeOf (r.stringNode f) b = nodeOf (r.stringNode g) b := by
  have htext := (expressionTree_eq_ok_iff.mp hb).2
  refine nodeOf_congr b (fun w hw => r.stringNode_congr (fun span hspan => ?_))
  rw [Piece.span_mem_split] at hspan
  cases htext.strings_standIn w hw with
  | bare hw => exact absurd hspan (Piece.span_not_mem_of_no_dollar (hw.not_mem rfl rfl))
  | quoted _ hquoted =>
    -- the quotes make the string, and so its substitutions, shorter than the text
    have hspan := Piece.length_le_of_span_mem hspan
    have hlength := hquoted.length_le
    simp only [List.length_cons, List.length_append, List.length_nil, String.length_toList]
      at hspan hlength
    exact h span (by omega)

end Congruence

/-! ## The count of levels -/

theorem expressionTree_empty (r : Reader) : ∃ e, r.expressionTree "" = .error e := ⟨_, rfl⟩

theorem expressionWithin_of_error {r : Reader} {source : String} {e : ReadError}
    (h : r.expressionTree source = .error e) (levels : Nat) :
    r.expressionWithin levels source = .error e := by
  cases levels <;> rw [expressionWithin, h] <;> rfl

theorem expressionWithin_succ {r : Reader} {source : String} {b : Body}
    (h : r.expressionTree source = .ok b) (levels : Nat) :
    r.expressionWithin (levels + 1) source =
      nodeOf (r.stringNode (r.expressionWithin levels)) b := by
  rw [expressionWithin, h]
  rfl

/-- Two counts that cover the length of a text give the same, by induction on the counts: one less
is enough for what is shorter. -/
theorem expressionWithin_congr (r : Reader) {k m : Nat} {source : String}
    (hk : source.length ≤ k) (hm : source.length ≤ m) :
    r.expressionWithin k source = r.expressionWithin m source := by
  induction k generalizing m source with
  | zero =>
    obtain rfl : source = "" := String.length_eq_zero_iff.mp (Nat.le_zero.mp hk)
    obtain ⟨e, he⟩ := r.expressionTree_empty
    rw [expressionWithin_of_error he, expressionWithin_of_error he]
  | succ k ih =>
    cases hb : r.expressionTree source with
    | error e => rw [expressionWithin_of_error hb, expressionWithin_of_error hb]
    | ok b =>
      cases m with
      | zero =>
        obtain rfl : source = "" := String.length_eq_zero_iff.mp (Nat.le_zero.mp hm)
        obtain ⟨e, he⟩ := r.expressionTree_empty
        rw [he] at hb
        cases hb
      | succ m =>
        rw [expressionWithin_succ hb, expressionWithin_succ hb]
        exact r.nodeOf_stringNode_congr hb (fun span hspan => ih (by omega) (by omega))

/-- An expression is read from its tree, and the substitutions of its strings as expressions. -/
theorem expression_of_tree {r : Reader} {source : String} {b : Body}
    (hb : r.expressionTree source = .ok b) :
    r.expression source = nodeOf (r.stringNode r.expression) b := by
  rw [expression, r.expressionWithin_congr (m := source.length + 1) (Nat.le_refl _) (Nat.le_succ _),
    expressionWithin_succ hb]
  exact r.nodeOf_stringNode_congr hb (fun span hspan =>
    r.expressionWithin_congr (Nat.le_of_lt hspan) (Nat.le_refl _))

end Reader

end CommandShell
