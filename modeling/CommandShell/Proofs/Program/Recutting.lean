/-
# CommandShell.Proofs.Program.Recutting -- strings whose substitutions are written anew

If the substitutions of a string are replaced by others that end with a bracket, and its text is
left as it is, then the new string is cut at the same places. What has to be shown is that no text
turns into a substitution: a dollar sign that started none in the old string starts none in the new
one. Whether it does depends on what follows, a name and a closing brace or a closing parenthesis,
and these are looked for in the same text: a name ends in front of a substitution, and parentheses
inside a substitution come in pairs (`Alike`).
-/
import CommandShell.Proofs.Program.Spans

namespace CommandShell.Piece

open Grammar

/-! ## Texts that differ in their substitutions -/

/-- Two texts that are the same up to stretches with paired parentheses, from a dollar sign on. -/
inductive Alike : List Char → List Char → Prop
  | nil : Alike [] []
  | cons (c : Char) {u v : List Char} : Alike u v → Alike (c :: u) (c :: v)
  | span {s t u v : List Char} : Nested ('$' :: s) → Nested ('$' :: t) → Alike u v →
      Alike ('$' :: s ++ u) ('$' :: t ++ v)

namespace Alike

variable {u v : List Char}

theorem head?_eq (h : Alike u v) : u.head? = v.head? := by
  cases h <;> rfl

/-- What a class without the dollar sign takes stands in front of the first difference. -/
theorem takeWhile_eq (h : Alike u v) {p : Char → Bool} (hp : p '$' = false) :
    u.takeWhile p = v.takeWhile p := by
  induction h with
  | nil => rfl
  | cons c _ ih => rw [List.takeWhile_cons, List.takeWhile_cons, ih]
  | span _ _ _ _ => simp [hp]

/-- And the same character stands behind it. -/
theorem head?_behind (h : Alike u v) {p : Char → Bool} (hp : p '$' = false) :
    (u.drop (u.takeWhile p).length).head? = (v.drop (v.takeWhile p).length).head? := by
  induction h with
  | nil => rfl
  | cons c _ ih =>
    by_cases hc : p c = true
    · rw [List.takeWhile_cons_of_pos hc, List.takeWhile_cons_of_pos hc]
      exact ih
    · rw [List.takeWhile_cons_of_neg hc, List.takeWhile_cons_of_neg hc]
      rfl
  | span _ _ _ _ => simp [hp]

/-- A closing parenthesis is found in both texts or in neither. -/
theorem closing?_isSome (h : Alike u v) (depth : Nat) :
    (closing? depth u).isSome = (closing? depth v).isSome := by
  induction h generalizing depth with
  | nil => rfl
  | cons c _ ih =>
    by_cases hopen : c = '('
    · rw [hopen, closing?, closing?, Option.isSome_map, Option.isSome_map, ih]
    by_cases hclose : c = ')'
    · rw [hclose]
      cases depth with
      | zero => rfl
      | succ depth => rw [closing?, closing?, Option.isSome_map, Option.isSome_map, ih]
    · rw [closing?_cons hopen hclose, closing?_cons hopen hclose, Option.isSome_map,
        Option.isSome_map, ih]
  | span hs ht _ ih =>
    rw [closing?_nested hs, closing?_nested ht, Option.isSome_map, Option.isSome_map, ih]

theorem nameLength?_eq (h : Alike u v) : nameLength? u = nameLength? v := by
  cases h with
  | nil => rfl
  | cons c h => rw [nameLength?, nameLength?, h.takeWhile_eq rfl]
  | span _ _ _ => rfl

theorem bracedLength?_eq (h : Alike u v) : bracedLength? u = bracedLength? v := by
  cases h with
  | nil => rfl
  | span _ _ _ => rfl
  | cons c h =>
    by_cases hc : isNameStart c = true
    · simp only [bracedLength?, nameLength?, if_pos hc, List.drop_succ_cons,
        h.takeWhile_eq (p := isNameRest) rfl]
      have hbehind := h.head?_behind (p := isNameRest) rfl
      rw [h.takeWhile_eq (p := isNameRest) rfl] at hbehind
      rw [hbehind]
    · simp only [bracedLength?, nameLength?, if_neg hc]

/-- A dollar sign starts a substitution in both texts or in neither. -/
theorem spanLength?_isSome (h : Alike u v) :
    (spanLength? ('$' :: u)).isSome = (spanLength? ('$' :: v)).isSome := by
  cases h with
  | nil => rfl
  | span _ _ _ => rfl
  | @cons c u v h =>
    by_cases hopen : c = '('
    · rw [hopen, spanLength?, spanLength?, Option.isSome_map, Option.isSome_map, h.closing?_isSome]
    by_cases hbrace : c = '\x7b'
    · rw [hbrace, spanLength?, spanLength?, h.bracedLength?_eq]
    · have hname : ∀ w : List Char,
          spanLength? ('$' :: c :: w) = (nameLength? (c :: w)).map (· + 1) := by
        intro w
        rw [spanLength?]
        · exact fun _ heq => hopen (List.cons.inj heq).1
        · exact fun _ heq => hbrace (List.cons.inj heq).1
      rw [hname, hname, (Alike.cons c h).nameLength?_eq]

end Alike

/-! ## Cutting anew -/

/-- A piece that is written anew: text stays, and a substitution is replaced by one that ends with a
bracket. -/
inductive Rewritten : Cut → Cut → Prop
  | text (u : List Char) : Rewritten (.text u) (.text u)
  | span {u v : List Char} : Nested u → Enclosed v → Rewritten (.span u) (.span v)

theorem rewritten_prependText {w : List Char} {cuts new : List Cut}
    (h : List.Forall₂ Rewritten (prependText w cuts) new) :
    ∃ more, List.Forall₂ Rewritten cuts more ∧ new = prependText w more := by
  rcases cuts with _ | ⟨u | u, rest⟩
  · obtain ⟨_, _, htext, hrest, rfl⟩ := List.forall₂_cons_left_iff.mp h
    cases htext
    cases hrest
    exact ⟨[], .nil, rfl⟩
  · obtain ⟨_, more, htext, hrest, rfl⟩ := List.forall₂_cons_left_iff.mp h
    cases htext
    exact ⟨.text u :: more, .cons (.text u) hrest, rfl⟩
  · obtain ⟨_, more, htext, hrest, rfl⟩ := List.forall₂_cons_left_iff.mp h
    cases htext
    -- the text stays apart from what follows it, which is a substitution again
    obtain ⟨_, _, hspan, -, rfl⟩ := List.forall₂_cons_left_iff.mp hrest
    refine ⟨_, hrest, ?_⟩
    cases hspan
    rfl

/-- A text whose substitutions are written anew is cut at the same places. -/
theorem cutFrom_rewritten {skip : Nat} {text : List Char} {new : List Cut}
    (h : List.Forall₂ Rewritten (cutFrom skip text) new) :
    cutFrom 0 (joined new) = new ∧ Alike (text.drop skip) (joined new) := by
  fun_induction cutFrom skip text generalizing new with
  | case1 skip =>
    cases h
    rw [List.drop_nil]
    exact ⟨rfl, .nil⟩
  | case2 skip c rest ih => exact ih h
  | case3 d rest ih =>
    obtain ⟨more, hmore, rfl⟩ := rewritten_prependText h
    obtain ⟨hcut, halike⟩ := ih hmore
    rw [joined_prependText]
    refine ⟨?_, .cons _ (.cons _ halike)⟩
    show cutFrom 0 ('\\' :: d :: joined more) = _
    rw [cutFrom, hcut]
  | case4 c rest _ n hspan ih =>
    obtain ⟨_, more, hpiece, hmore, rfl⟩ := List.forall₂_cons_left_iff.mp h
    obtain ⟨hcut, halike⟩ := ih hmore
    obtain ⟨_, htext, hn⟩ := of_spanLength? hspan
    cases htext
    obtain ⟨n, rfl⟩ : ∃ m, n = m + 1 := ⟨n - 1, by omega⟩
    rw [List.take_succ_cons] at hpiece
    cases hpiece with
    | @span _ v hold hnew =>
      rw [joined_cons, Cut.raw, cutFrom_enclosed hnew, hcut]
      obtain ⟨t, rfl⟩ := hnew.exists_cons
      refine ⟨rfl, ?_⟩
      have hspans := Alike.span hold hnew.nested_text halike
      rwa [List.cons_append, Nat.add_sub_cancel, List.take_append_drop] at hspans
  | case5 c rest hslash hspan ih =>
    obtain ⟨more, hmore, rfl⟩ := rewritten_prependText h
    obtain ⟨hcut, halike⟩ := ih hmore
    rw [joined_prependText]
    refine ⟨?_, .cons _ halike⟩
    have hnone : spanLength? (c :: joined more) = none := by
      by_cases hdollar : c = '$'
      · rw [hdollar] at hspan ⊢
        have hboth := halike.spanLength?_isSome
        rw [List.drop_zero, hspan] at hboth
        exact Option.not_isSome_iff_eq_none.mp (by simp [← hboth])
      · exact spanLength?_of_ne hdollar _
    show cutFrom 0 (c :: joined more) = _
    rw [cutFrom, hnone, hcut]
    -- a backslash is the last character of both texts
    intro d back hc hback
    rw [hback] at halike
    have hhead := halike.head?_eq
    cases rest with
    | nil => cases hhead
    | cons d' back' => exact hslash d' back' hc rfl

end CommandShell.Piece
