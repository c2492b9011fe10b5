/-
# CommandShell.Proofs.Program.StringLiteral -- every string has a literal

A string is written between double quotes with three characters escaped: the backslash, the double
quote and the dollar sign. Without a dollar sign the scan for nesting finds no level to open, and no
piece of the string is a substitution; without a double quote the quoted word ends where it should.
What is left is that the escapes decode to what they were made from. Nothing else in the string
matters, neither line breaks nor parentheses nor text that looks like an escape.
-/
import CommandShell.Proofs.Grammar.Lines

namespace CommandShell

/-! ## Writing -/

namespace Escape

/-- How a character is written in a string literal. -/
def encodeChar (c : Char) : List Char :=
  if c = '\\' then ['\\', '\\']
  else if c = '"' then ['\\', 'x', '2', '2']
  else if c = '$' then ['\\', 'x', '2', '4']
  else [c]

/-- How characters are written in a string literal. -/
def encodeChars (cs : List Char) : List Char := cs.flatMap encodeChar

/-- How a string is written in a string literal, without the quotes around it. -/
def encode (s : String) : String := String.ofList (encodeChars s.toList)

example : encode "a\\$(b \"c\")\n" = "a\\\\\\x24(b \\x22c\\x22)\n" := by decide

theorem encodeChars_cons (c : Char) (cs : List Char) :
    encodeChars (c :: cs) = encodeChar c ++ encodeChars cs :=
  List.flatMap_cons

/-- The four ways in which a character is written. -/
@[elab_as_elim]
theorem encodeChar_cases {motive : Char → List Char → Prop} (slash : motive '\\' ['\\', '\\'])
    (quote : motive '"' ['\\', 'x', '2', '2']) (dollar : motive '$' ['\\', 'x', '2', '4'])
    (other : ∀ c, c ≠ '\\' → c ≠ '"' → c ≠ '$' → motive c [c]) (c : Char) :
    motive c (encodeChar c) := by
  unfold encodeChar
  split
  · next h => exact h ▸ slash
  split
  · next h => exact h ▸ quote
  split
  · next h => exact h ▸ dollar
  · next hslash hquote hdollar => exact other c hslash hquote hdollar

/-- What only an escape can stand for does not occur in a written string. -/
theorem not_mem_encodeChars {d : Char} (hd : d = '"' ∨ d = '$') (cs : List Char) :
    d ∉ encodeChars cs := by
  intro hmem
  obtain ⟨c, -, hc⟩ := List.mem_flatMap.mp hmem
  revert hc
  refine encodeChar_cases (motive := fun _ u => d ∉ u) ?_ ?_ ?_ ?_ c
  · rcases hd with rfl | rfl <;> decide
  · rcases hd with rfl | rfl <;> decide
  · rcases hd with rfl | rfl <;> decide
  · intro c _ hquote hdollar hc
    rw [List.mem_singleton.mp hc] at hd
    exact hd.elim hquote hdollar

/-! ## Decoding -/

theorem decodeFrom_encodeChar (c : Char) (rest : List Char) :
    decodeFrom 0 (encodeChar c ++ rest) = c :: decodeFrom 0 rest := by
  refine encodeChar_cases (motive := fun c u => decodeFrom 0 (u ++ rest) = c :: decodeFrom 0 rest)
    rfl rfl rfl ?_ c
  intro c hslash _ _
  rw [List.singleton_append, decodeFrom, if_neg hslash]

theorem decodeFrom_encodeChars (cs : List Char) : decodeFrom 0 (encodeChars cs) = cs := by
  induction cs with
  | nil => rfl
  | cons c cs ih => rw [encodeChars_cons, decodeFrom_encodeChar, ih]

theorem unescape_encode (s : String) : unescape (encode s) = s := by
  rw [unescape, encode, String.toList_ofList, decodeFrom_encodeChars, String.ofList_toList]

end Escape

/-! ## Cutting -/

namespace Piece

open Escape

theorem prependText_append (u v : List Char) (cuts : List Cut) :
    prependText u (prependText v cuts) = prependText (u ++ v) cuts := by
  rcases cuts with _ | ⟨more | raw, rest⟩
  · rfl
  · simp [prependText]
  · rfl

theorem spanLength?_of_ne {c : Char} (hdollar : c ≠ '$') (rest : List Char) :
    spanLength? (c :: rest) = none := by
  unfold spanLength?
  split <;> simp_all

theorem cutFrom_of_ne {c : Char} (hslash : c ≠ '\\') (hdollar : c ≠ '$') (rest : List Char) :
    cutFrom 0 (c :: rest) = prependText [c] (cutFrom 0 rest) := by
  rw [cutFrom, spanLength?_of_ne hdollar]
  intro d more hslash' _
  exact hslash hslash'

/-- An escape is cut as text: its backslash with the character behind it, and the digits. -/
theorem cutFrom_encodeChar (c : Char) (rest : List Char) :
    cutFrom 0 (encodeChar c ++ rest) = prependText (encodeChar c) (cutFrom 0 rest) := by
  -- behind the backslash and its `x` the two digits are cut one by one
  have hcode : ∀ d : Char, d ≠ '\\' → d ≠ '$' →
      cutFrom 0 ('\\' :: 'x' :: '2' :: d :: rest) =
        prependText ['\\', 'x', '2', d] (cutFrom 0 rest) := by
    intro d hslash hdollar
    rw [cutFrom, cutFrom_of_ne (by decide) (by decide), cutFrom_of_ne hslash hdollar,
      prependText_append, prependText_append]
    rfl
  refine encodeChar_cases
    (motive := fun _ u => cutFrom 0 (u ++ rest) = prependText u (cutFrom 0 rest)) rfl
    (hcode '2' (by decide) (by decide)) (hcode '4' (by decide) (by decide)) ?_ c
  intro c hslash _ hdollar
  exact cutFrom_of_ne hslash hdollar rest

/-- A written string that is not empty is one piece of text: it has no substitutions. -/
theorem cut_encodeChars (c : Char) (cs : List Char) :
    cut (encodeChars (c :: cs)) = [.text (encodeChars (c :: cs))] := by
  induction cs generalizing c with
  | nil =>
    rw [cut, encodeChars_cons, cutFrom_encodeChar, show encodeChars [] = [] from rfl,
      List.append_nil]
    rfl
  | cons d cs ih =>
    rw [cut, encodeChars_cons, cutFrom_encodeChar]
    show prependText (encodeChar c) (cut (encodeChars (d :: cs))) = _
    rw [ih]
    rfl

end Piece

/-! ## Reading -/

namespace Grammar

open Nesting

/-- Where there is no dollar sign there is no level for a parenthesis to open. -/
theorem Nesting.Gauge.peak_of_no_dollar {u : List Char} (h : '$' ∉ u) : start.peak u = 0 := by
  induction u with
  | nil => rfl
  | cons c u ih =>
    have hc : c ≠ '$' := fun heq => h (heq ▸ List.mem_cons_self)
    have hstep : start.step c = start := by
      simp [step, start, hc]
    rw [peak, hstep, ih (fun hmem => h (List.mem_cons_of_mem c hmem))]
    rfl

/-- A word in quotes is a program of one statement. -/
theorem programText_quoted {u : List Char} (hu : '"' ∉ u) :
    ProgramText ('"' :: (u ++ ['"'])) [⟨some (.expr (.quoted (String.ofList u))), none⟩] := by
  have hword : ExprText ('"' :: (u ++ ['"'])) (.quoted (String.ofList u)) :=
    .quoted (fun c hc => bne_iff_ne.mpr (fun heq => hu (heq ▸ hc)))
  exact (BodyText.expr hword rfl).programText

end Grammar

namespace Reader

open Grammar

/-- A written string is read as a literal. -/
theorem stringNode_encode {r : Reader} (hr : r.unescapes = true)
    (readSpan : String → Except ReadError Node) (s : String) :
    r.stringNode readSpan (Escape.encode s) = .ok (.literal (.string s)) := by
  cases hs : s.toList with
  | nil =>
    have hempty : s = "" := String.toList_inj.mp hs
    subst hempty
    rfl
  | cons c cs =>
    have hraw : Escape.encode s = String.ofList (Escape.encodeChars (c :: cs)) := by
      rw [Escape.encode, hs]
    have hsplit : Piece.split (Escape.encode s) = [.text (Escape.encode s)] := by
      rw [Piece.split, hraw, String.toList_ofList, Piece.cut_encodeChars]
      rfl
    have hplain : r.plain (Escape.encode s) = s := by
      rw [plain, if_pos hr, Escape.unescape_encode]
    show (r.partsOf readSpan (Piece.split (Escape.encode s)) >>= fun parts => _) = _
    rw [hsplit, partsOf, hplain]
    show (Except.ok (.literal (.string (s ++ ""))) : Except ReadError Node) = _
    rw [String.append_empty]

/-- Every string has a literal: between quotes, and with its backslashes, double quotes and dollar
signs escaped, it is read back as itself, whatever nesting is allowed. -/
theorem program_encode (maxNesting : Nat) (s : String) :
    Reader.program { unescapes := true, maxNesting := maxNesting }
      ("\"" ++ Escape.encode s ++ "\"") = .ok ⟨[.literal (.string s)]⟩ := by
  have hquote := Escape.not_mem_encodeChars (.inl rfl) s.toList
  have hdollar := Escape.not_mem_encodeChars (.inr rfl) s.toList
  have hsource : ("\"" ++ Escape.encode s ++ "\"").toList =
      '"' :: (Escape.encodeChars s.toList ++ ['"']) := by
    simp [Escape.encode]
  refine program_eq_ok_iff.mpr ⟨[⟨some (.expr (.quoted (Escape.encode s))), none⟩],
    programTree_eq_ok_iff.mpr ⟨?_, ?_⟩, ?_⟩
  -- the scan for nesting stays at level zero, which no limit excludes
  · rw [hsource, Nesting.firstExcess_eq_none_iff, Nesting.Gauge.peak_of_no_dollar]
    · exact Nat.zero_le _
    · simpa using hdollar
  -- the grammar knows the text as one quoted word
  · rw [hsource]
    exact programText_quoted hquote
  -- and the word is read as the string
  · show (stringNode _ _ (Escape.encode s) >>= fun node => _) = _
    rw [stringNode_encode rfl]
    rfl

end Reader

end CommandShell
