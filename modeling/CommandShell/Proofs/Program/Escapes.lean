/-
# CommandShell.Proofs.Program.Escapes -- what the escapes of a text stand for

The documented escapes are listed here once more, without the decoder: a letter of a short list, two
digits behind `x`, or up to six digits in braces behind `u`. A text is decoded from left to right;
a backslash that starts no escape is kept, and decoding goes on with the very next character. No
escape is the beginning of another one, so there is exactly one such decoding of a text.

The decoder also takes a plus sign for the first digit of a pair, which is not documented. It gives
the documented decoding of a text exactly when no such pair is met on the way.
-/
import CommandShell.Program.Escape
import Mathlib.Data.List.Forall2
import Mathlib.Data.List.TakeWhile
import Mathlib.Data.Nat.Digits.Defs

namespace CommandShell.Escape

/-! ## Digits in base sixteen -/

/-- A digit in base sixteen and its value, in either case. -/
def HexDigit (c : Char) (n : Nat) : Prop :=
  n < 16 ∧ (c = Nat.digitChar n ∨ c = (Nat.digitChar n).toUpper)

/-- A run of digits in base sixteen and the number that it names. -/
def Names (digits : List Char) (n : Nat) : Prop :=
  ∃ values, List.Forall₂ HexDigit digits values ∧ n = Nat.ofDigits 16 values.reverse

theorem hexValue?_of_hexDigit {c : Char} {n : Nat} (h : HexDigit c n) : hexValue? c = some n := by
  obtain ⟨hn, hc⟩ := h
  rcases hc with rfl | rfl
  · revert n
    decide
  · revert n
    decide

/-- A character of a range of digits is the digit that its distance from the first one names. -/
theorem digit_of_range {a b c : Char} {f : Nat → Char} {m : Nat} (h : (a ≤ c && c ≤ b) = true)
    (hb : b.toNat < a.toNat + m) (hf : ∀ n < m, Char.ofNat (a.toNat + n) = f n) :
    c.toNat - a.toNat < m ∧ c = f (c.toNat - a.toNat) := by
  obtain ⟨hlow, hhigh⟩ : a.toNat ≤ c.toNat ∧ c.toNat ≤ b.toNat := by
    simpa [Char.le_def, UInt32.le_iff_toNat_le] using h
  refine ⟨by omega, ?_⟩
  rw [← hf _ (by omega), Nat.add_sub_cancel' hlow, Char.ofNat_toNat]

theorem hexDigit_of_hexValue? {c : Char} {n : Nat} (h : hexValue? c = some n) : HexDigit c n := by
  unfold hexValue? at h
  split at h
  · next hrange =>
    obtain ⟨hlt, hc⟩ := digit_of_range (f := Nat.digitChar) (m := 10) hrange
      (by decide) (by decide)
    obtain rfl := Option.some.inj h
    exact ⟨Nat.lt_of_lt_of_le hlt (by decide), .inl hc⟩
  split at h
  · next hrange =>
    obtain ⟨hlt, hc⟩ := digit_of_range (f := fun n => Nat.digitChar (n + 10)) (m := 6) hrange
      (by decide) (by decide)
    obtain rfl := Option.some.inj h
    exact ⟨Nat.add_lt_add_right hlt 10, .inl hc⟩
  split at h
  · next hrange =>
    obtain ⟨hlt, hc⟩ := digit_of_range (f := fun n => (Nat.digitChar (n + 10)).toUpper) (m := 6)
      hrange (by decide) (by decide)
    obtain rfl := Option.some.inj h
    exact ⟨Nat.add_lt_add_right hlt 10, .inr hc⟩
  · cases h

theorem foldl_hexValue?_none (digits : List Char) :
    digits.foldl (fun n c => do return 16 * (← n) + (← hexValue? c)) (none : Option Nat) =
      none := by
  induction digits with
  | nil => rfl
  | cons c digits ih => exact ih

/-- Reading digits behind a number that is read already. -/
theorem foldl_hexValue? (digits : List Char) (a n : Nat) :
    digits.foldl (fun n c => do return 16 * (← n) + (← hexValue? c)) (some a) = some n ↔
      ∃ values, List.Forall₂ HexDigit digits values ∧
        n = values.foldl (fun n v => 16 * n + v) a := by
  induction digits generalizing a with
  | nil =>
    constructor
    · intro h
      exact ⟨[], .nil, (Option.some.inj h).symm⟩
    · rintro ⟨_, ⟨⟩, rfl⟩
      rfl
  | cons c digits ih =>
    rw [List.foldl_cons]
    constructor
    · intro h
      cases hc : hexValue? c with
      | none =>
        rw [hc] at h
        exact absurd ((foldl_hexValue?_none digits).symm.trans h) (by simp)
      | some v =>
        rw [hc] at h
        obtain ⟨values, hvalues, hn⟩ := (ih (16 * a + v)).mp h
        exact ⟨v :: values, .cons (hexDigit_of_hexValue? hc) hvalues, hn⟩
    · rintro ⟨_, _ | ⟨hc, hvalues⟩, hn⟩
      rw [hexValue?_of_hexDigit hc]
      exact (ih _).mpr ⟨_, hvalues, hn⟩

theorem hexNumber?_eq_some_iff {digits : List Char} {n : Nat} :
    hexNumber? digits = some n ↔ Names digits n := by
  have hfold : ∀ values : List Nat,
      values.foldl (fun n v => 16 * n + v) 0 = Nat.ofDigits 16 values.reverse := by
    intro values
    rw [Nat.ofDigits_eq_foldr, List.foldr_reverse]
    simp [Nat.add_comm]
  unfold hexNumber? Names
  rw [foldl_hexValue?]
  simp only [hfold]

theorem Names.hexDigits {digits : List Char} {n : Nat} (h : Names digits n) :
    ∀ c ∈ digits, (hexValue? c).isSome := by
  obtain ⟨values, hvalues, -⟩ := h
  induction hvalues with
  | nil => exact fun _ hc => (List.not_mem_nil hc).elim
  | cons hd _ ih =>
    intro c hc
    rcases List.mem_cons.mp hc with rfl | hc
    · rw [hexValue?_of_hexDigit hd]
      rfl
    · exact ih c hc

/-- A code in braces: up to six digits that name a scalar value, and the closing brace. -/
theorem ofBraced?_eq_some_iff {text : List Char} {d : Char} {k : Nat} :
    ofBraced? text = some (d, k) ↔ ∃ digits rest n, text = digits ++ '\x7d' :: rest ∧
      1 ≤ digits.length ∧ digits.length ≤ 6 ∧ Names digits n ∧ n.isValidChar ∧
        d = Char.ofNat n ∧ k = digits.length + 1 := by
  constructor
  · intro h
    unfold ofBraced? at h
    obtain ⟨digits, hdigits⟩ : ∃ digits, text.takeWhile (fun c => (hexValue? c).isSome) = digits :=
      ⟨_, rfl⟩
    simp only [hdigits] at h
    split at h
    · cases h
    · next hshape =>
      simp only [Bool.or_eq_true, List.isEmpty_iff, decide_eq_true_eq, bne_iff_ne, not_or,
        not_not, Nat.not_lt] at hshape
      obtain ⟨⟨hpos, hmax⟩, hclosing⟩ := hshape
      obtain ⟨rest, hrest⟩ := List.head?_eq_some_iff.mp hclosing
      obtain ⟨n, hn, hcode⟩ := Option.bind_eq_some_iff.mp h
      obtain ⟨e, he, hresult⟩ := Option.bind_eq_some_iff.mp hcode
      obtain ⟨rfl, rfl⟩ := Prod.mk.inj (Option.some.inj hresult)
      obtain ⟨hvalid, he⟩ : n.isValidChar ∧ Char.ofNat n = e := by
        unfold ofCode? at he
        split at he
        · next hvalid => exact ⟨hvalid, Option.some.inj he⟩
        · cases he
      have htext : text = digits ++ text.drop digits.length := by
        rw [← hdigits]
        exact (List.prefix_iff_eq_append.mp (List.takeWhile_prefix _)).symm
      refine ⟨digits, rest, n, hrest ▸ htext, List.length_pos_iff.mpr hpos, hmax,
        hexNumber?_eq_some_iff.mp hn, hvalid, he.symm, rfl⟩
  · rintro ⟨digits, rest, n, rfl, hpos, hmax, hn, hvalid, rfl, rfl⟩
    have htake : (digits ++ '\x7d' :: rest).takeWhile (fun c => (hexValue? c).isSome) = digits := by
      rw [List.takeWhile_append_of_pos hn.hexDigits]
      exact List.append_nil digits
    have hshape : ¬(digits.isEmpty || 6 < digits.length ||
        ('\x7d' :: rest).head? != some '\x7d') = true := by
      simp [List.length_pos_iff.mp hpos, hmax]
    unfold ofBraced?
    simp only [htake, List.drop_left]
    rw [if_neg hshape, hexNumber?_eq_some_iff.mpr hn]
    show (ofCode? n).bind _ = _
    rw [ofCode?, if_pos hvalid]
    rfl

/-! ## Escapes -/

/-- The letters that stand for a character, without the backslash in front of them. -/
def letters : List (Char × Char) :=
  [('n', '\n'), ('t', '\t'), ('r', '\r'), ('0', '\x00'), ('\\', '\\'), ('$', '$'), ('"', '"')]

/-- The documented escapes, without their backslash, and what they stand for. -/
inductive Documented : List Char → Char → Prop
  /-- A letter that stands for a character. -/
  | letter {c d : Char} : (c, d) ∈ letters → Documented [c] d
  /-- Two digits. -/
  | pair {digits : List Char} {n : Nat} : digits.length = 2 → Names digits n →
      Documented ('x' :: digits) (Char.ofNat n)
  /-- Up to six digits in braces, that name a scalar value. -/
  | braced {digits : List Char} {n : Nat} : 1 ≤ digits.length → digits.length ≤ 6 →
      Names digits n → n.isValidChar →
      Documented ('u' :: '\x7b' :: (digits ++ ['\x7d'])) (Char.ofNat n)

/-- A pair whose first digit is a plus sign, without the backslash in front of it. -/
inductive Signed : List Char → Char → Prop
  | mk {c : Char} {n : Nat} : HexDigit c n → Signed ['x', '+', c] (Char.ofNat n)

/-- What the decoder takes for an escape. -/
def Understood (body : List Char) (d : Char) : Prop := Documented body d ∨ Signed body d

theorem Documented.understood {body : List Char} {d : Char} (h : Documented body d) :
    Understood body d := .inl h

/-- The decoder finds every escape that it understands, whatever comes behind. -/
theorem decode?_of_understood {body : List Char} {d : Char} (h : Understood body d)
    (rest : List Char) : decode? (body ++ rest) = some (d, body.length) := by
  rcases h with h | h
  · cases h with
    | letter h =>
      simp only [letters, List.mem_cons, List.not_mem_nil, or_false, Prod.mk.injEq] at h
      rcases h with ⟨rfl, rfl⟩ | ⟨rfl, rfl⟩ | ⟨rfl, rfl⟩ | ⟨rfl, rfl⟩ | ⟨rfl, rfl⟩ | ⟨rfl, rfl⟩ |
        ⟨rfl, rfl⟩ <;> rfl
    | @pair digits n hlength hn =>
      obtain ⟨a, b, rfl⟩ := List.length_eq_two.mp hlength
      have hplus : a ≠ '+' := by
        rintro rfl
        exact absurd (hn.hexDigits '+' List.mem_cons_self) (by decide)
      show (ofPair? a b).map (·, 3) = _
      rw [ofPair?, hexNumber?_eq_some_iff.mpr hn]
      · rfl
      · exact hplus
    | @braced digits n hpos hmax hn hvalid =>
      have hbraced : ofBraced? (digits ++ '\x7d' :: rest) =
          some (Char.ofNat n, digits.length + 1) :=
        ofBraced?_eq_some_iff.mpr ⟨digits, rest, n, rfl, hpos, hmax, hn, hvalid, rfl, rfl⟩
      show decode? ('u' :: '\x7b' :: ((digits ++ ['\x7d']) ++ rest)) = _
      rw [List.append_assoc]
      show (ofBraced? (digits ++ '\x7d' :: rest)).map _ = _
      rw [hbraced]
      simp
  · cases h with
    | mk hc =>
      show (ofPair? '+' _).map (·, 3) = _
      rw [ofPair?, hexValue?_of_hexDigit hc]
      rfl

/-- What the decoder takes for an escape is one that it understands. -/
theorem understood_of_decode? {text : List Char} {d : Char} {k : Nat}
    (h : decode? text = some (d, k)) :
    ∃ body rest, text = body ++ rest ∧ body.length = k ∧ Understood body d := by
  have hletter : ∀ {c e : Char} {rest : List Char}, (c, e) ∈ letters → some (e, 1) = some (d, k) →
      ∃ body rest', c :: rest = body ++ rest' ∧ body.length = k ∧ Understood body d := by
    rintro c e rest hc heq
    obtain ⟨rfl, rfl⟩ := Prod.mk.inj (Option.some.inj heq)
    exact ⟨[c], rest, rfl, rfl, .inl (.letter hc)⟩
  unfold decode? at h
  split at h
  · exact hletter (by decide) h
  · exact hletter (by decide) h
  · exact hletter (by decide) h
  · exact hletter (by decide) h
  · exact hletter (by decide) h
  · exact hletter (by decide) h
  · exact hletter (by decide) h
  · next a b rest =>
    obtain ⟨e, he, hresult⟩ := Option.map_eq_some_iff.mp h
    obtain ⟨rfl, rfl⟩ := Prod.mk.inj hresult
    refine ⟨['x', a, b], rest, rfl, rfl, ?_⟩
    unfold ofPair? at he
    split at he
    · obtain ⟨n, hn, rfl⟩ := Option.map_eq_some_iff.mp he
      exact .inr (.mk (hexDigit_of_hexValue? hn))
    · obtain ⟨n, hn, rfl⟩ := Option.map_eq_some_iff.mp he
      exact .inl (.pair rfl (hexNumber?_eq_some_iff.mp hn))
  · next rest =>
    obtain ⟨⟨e, m⟩, he, hresult⟩ := Option.map_eq_some_iff.mp h
    obtain ⟨rfl, rfl⟩ := Prod.mk.inj hresult
    obtain ⟨digits, rest', n, rfl, hpos, hmax, hn, hvalid, rfl, rfl⟩ :=
      ofBraced?_eq_some_iff.mp he
    refine ⟨'u' :: '\x7b' :: (digits ++ ['\x7d']), rest', ?_, ?_,
      .inl (.braced hpos hmax hn hvalid)⟩
    · simp
    · simp
  · cases h

/-! ## Decoding from left to right -/

/-- Whether an escape is at the beginning of a text. -/
def Starts (escape : List Char → Char → Prop) (text : List Char) : Prop :=
  ∃ body d, escape body d ∧ body <+: text

/-- The decoding of a text from left to right, by the given escapes. -/
inductive Decodes (escape : List Char → Char → Prop) : List Char → List Char → Prop
  | nil : Decodes escape [] []
  /-- A character that is no backslash stands for itself. -/
  | plain {c : Char} {text out : List Char} : c ≠ '\\' → Decodes escape text out →
      Decodes escape (c :: text) (c :: out)
  /-- A backslash with an escape behind it stands for its character. -/
  | escaped {body text out : List Char} {d : Char} : escape body d → Decodes escape text out →
      Decodes escape ('\\' :: (body ++ text)) (d :: out)
  /-- A backslash without one is kept. -/
  | kept {text out : List Char} : ¬ Starts escape text → Decodes escape text out →
      Decodes escape ('\\' :: text) ('\\' :: out)

/-- Escapes of which none is the beginning of another. -/
def Separate (escape : List Char → Char → Prop) : Prop :=
  ∀ ⦃body other rest rest' : List Char⦄ ⦃d e : Char⦄, escape body d → escape other e →
    body ++ rest = other ++ rest' → body = other ∧ d = e

theorem separate_understood : Separate Understood := by
  intro body other rest rest' d e hbody hother heq
  have hsame := decode?_of_understood hbody rest
  rw [heq, decode?_of_understood hother rest'] at hsame
  obtain ⟨rfl, hlength⟩ := Prod.mk.inj (Option.some.inj hsame)
  exact ⟨(List.append_inj heq hlength.symm).1, rfl⟩

theorem separate_documented : Separate Documented := fun _ _ _ _ _ _ hbody hother =>
  separate_understood hbody.understood hother.understood

namespace Decodes

variable {escape : List Char → Char → Prop}

/-- There is not more than one decoding, by induction on the first. -/
theorem unique (hseparate : Separate escape) {text out other : List Char}
    (h : Decodes escape text out) (h' : Decodes escape text other) : out = other := by
  induction h generalizing other with
  | nil =>
    cases h'
    rfl
  | plain hc _ ih =>
    cases h' with
    | plain _ h' => rw [ih h']
    | escaped _ _ => exact absurd rfl hc
    | kept _ _ => exact absurd rfl hc
  | @escaped body text out d hd _ ih =>
    generalize hwhole : '\\' :: (body ++ text) = whole at h'
    cases h' with
    | nil => cases hwhole
    | plain hc _ => exact absurd (List.cons.inj hwhole).1.symm hc
    | escaped he h' =>
      have htail := (List.cons.inj hwhole).2
      obtain ⟨rfl, rfl⟩ := hseparate hd he htail
      rw [List.append_cancel_left htail] at ih
      rw [ih h']
    | kept hnone _ =>
      exact absurd ⟨body, d, hd, text, (List.cons.inj hwhole).2⟩ hnone
  | kept hnone _ ih =>
    cases h' with
    | plain hc _ => exact absurd rfl hc
    | @escaped body text out d hd _ => exact absurd ⟨body, d, hd, List.prefix_append _ _⟩ hnone
    | kept _ h' => rw [ih h']

/-- There is a decoding of every text, by induction on its length. -/
theorem exists_decodes (text : List Char) : ∃ out, Decodes escape text out := by
  induction hlength : text.length using Nat.strongRecOn generalizing text with
  | ind n ih =>
    cases text with
    | nil => exact ⟨[], .nil⟩
    | cons c text =>
      by_cases hc : c = '\\'
      · subst hc
        by_cases hstarts : Starts escape text
        · obtain ⟨body, d, hd, rest, rfl⟩ := hstarts
          obtain ⟨out, hout⟩ := ih rest.length (by simp at hlength; omega) rest rfl
          exact ⟨d :: out, .escaped hd hout⟩
        · obtain ⟨out, hout⟩ := ih text.length (by simp at hlength; omega) text rfl
          exact ⟨_, .kept hstarts hout⟩
      · obtain ⟨out, hout⟩ := ih text.length (by simp at hlength; omega) text rfl
        exact ⟨_, .plain hc hout⟩

end Decodes

/-! ## The decoder -/

theorem decodeFrom_skip (body text : List Char) :
    decodeFrom body.length (body ++ text) = decodeFrom 0 text := by
  induction body with
  | nil => rfl
  | cons c body ih => exact ih

theorem decodeFrom_plain {c : Char} (hc : c ≠ '\\') (text : List Char) :
    decodeFrom 0 (c :: text) = c :: decodeFrom 0 text := by
  rw [decodeFrom, if_neg hc]

theorem decodeFrom_escaped {body : List Char} {d : Char} (h : Understood body d)
    (text : List Char) : decodeFrom 0 ('\\' :: (body ++ text)) = d :: decodeFrom 0 text := by
  rw [decodeFrom, if_pos rfl, decode?_of_understood h]
  exact congrArg (d :: ·) (decodeFrom_skip body text)

theorem decodeFrom_kept {text : List Char} (h : ¬ Starts Understood text) :
    decodeFrom 0 ('\\' :: text) = '\\' :: decodeFrom 0 text := by
  have hnone : decode? text = none := by
    rw [Option.eq_none_iff_forall_not_mem]
    rintro ⟨d, k⟩ hd
    obtain ⟨body, rest, rfl, -, hbody⟩ := understood_of_decode? hd
    exact h ⟨body, d, hbody, List.prefix_append _ _⟩
  rw [decodeFrom, if_pos rfl, hnone]

/-- The decoder decodes by the escapes that it understands. -/
theorem decodeFrom_of_decodes {text out : List Char} (h : Decodes Understood text out) :
    decodeFrom 0 text = out := by
  induction h with
  | nil => rfl
  | plain hc _ ih => rw [decodeFrom_plain hc, ih]
  | escaped hd _ ih => rw [decodeFrom_escaped hd, ih]
  | kept hnone _ ih => rw [decodeFrom_kept hnone, ih]

/-! ## Signed pairs -/

/-- Decoding by the documented escapes comes to a signed pair: a backslash that starts none of
them, with such a pair behind it. -/
inductive MeetsSigned : List Char → Prop
  | here {body text : List Char} {d : Char} : Signed body d → MeetsSigned ('\\' :: (body ++ text))
  | plain {c : Char} {text : List Char} : c ≠ '\\' → MeetsSigned text → MeetsSigned (c :: text)
  | escaped {body text : List Char} {d : Char} : Documented body d → MeetsSigned text →
      MeetsSigned ('\\' :: (body ++ text))
  | kept {text : List Char} : ¬ Starts Documented text → MeetsSigned text →
      MeetsSigned ('\\' :: text)

/-- No text starts with a documented escape and a signed pair as well. -/
theorem not_documented_of_signed {body other rest rest' : List Char} {d e : Char}
    (hsigned : Signed body d) (heq : body ++ rest = other ++ rest') : ¬ Documented other e := by
  intro hdocumented
  obtain ⟨rfl, -⟩ := separate_understood (.inr hsigned) hdocumented.understood heq
  cases hsigned with
  | mk _ =>
    cases hdocumented with
    | pair _ hn => exact absurd (hn.hexDigits '+' List.mem_cons_self) (by decide)

theorem meetsSigned_plain {c : Char} (hc : c ≠ '\\') {text : List Char} :
    MeetsSigned (c :: text) ↔ MeetsSigned text := by
  refine ⟨fun h => ?_, .plain hc⟩
  cases h with
  | plain _ h => exact h
  | _ => exact absurd rfl hc

theorem meetsSigned_escaped {body : List Char} {d : Char} (hd : Documented body d)
    {text : List Char} : MeetsSigned ('\\' :: (body ++ text)) ↔ MeetsSigned text := by
  refine ⟨fun h => ?_, .escaped hd⟩
  generalize hwhole : '\\' :: (body ++ text) = whole at h
  cases h with
  | here hsigned =>
    exact absurd hd (not_documented_of_signed hsigned (List.cons.inj hwhole).2.symm)
  | plain hc _ => exact absurd (List.cons.inj hwhole).1.symm hc
  | escaped he h =>
    have htail := (List.cons.inj hwhole).2
    obtain ⟨rfl, -⟩ := separate_documented hd he htail
    rwa [List.append_cancel_left htail]
  | kept hnone _ => exact absurd ⟨body, d, hd, text, (List.cons.inj hwhole).2⟩ hnone

theorem meetsSigned_kept {text : List Char} (hnone : ¬ Starts Understood text) :
    MeetsSigned ('\\' :: text) ↔ MeetsSigned text := by
  have hdocumented : ¬ Starts Documented text :=
    fun ⟨body, d, hd, hbody⟩ => hnone ⟨body, d, hd.understood, hbody⟩
  refine ⟨fun h => ?_, .kept hdocumented⟩
  cases h with
  | here hsigned => exact absurd ⟨_, _, .inr hsigned, List.prefix_append _ _⟩ hnone
  | plain hc _ => exact absurd rfl hc
  | escaped hd _ => exact absurd ⟨_, _, hd, List.prefix_append _ _⟩ hdocumented
  | kept _ h => exact h

/-- The decoder gives the documented decoding of a text exactly when that comes to no signed pair:
by induction on the decoding, of which the two agree up to the first such pair. -/
theorem decodeFrom_eq_iff {text out : List Char} (h : Decodes Documented text out) :
    decodeFrom 0 text = out ↔ ¬ MeetsSigned text := by
  induction h with
  | nil => exact ⟨fun _ => nofun, fun _ => rfl⟩
  | plain hc _ ih =>
    rw [decodeFrom_plain hc, meetsSigned_plain hc, List.cons.injEq, ← ih]
    simp
  | escaped hd _ ih =>
    rw [decodeFrom_escaped hd.understood, meetsSigned_escaped hd, List.cons.injEq, ← ih]
    simp
  | @kept text out hnone _ ih =>
    by_cases hsigned : Starts Signed text
    · obtain ⟨body, d, hd, rest, rfl⟩ := hsigned
      rw [decodeFrom_escaped (.inr hd)]
      refine ⟨fun heq => ?_, fun hmeets => absurd (.here hd) hmeets⟩
      -- a signed pair stands for one of the first sixteen characters, where a backslash is kept
      have hslash : ∀ n < 16, Char.ofNat n ≠ '\\' := by decide
      cases hd with
      | mk hc => exact absurd (List.cons.inj heq).1 (hslash _ hc.1)
    · have hunderstood : ¬ Starts Understood text := by
        rintro ⟨body, d, hd | hd, hbody⟩
        · exact hnone ⟨body, d, hd, hbody⟩
        · exact hsigned ⟨body, d, hd, hbody⟩
      rw [decodeFrom_kept hunderstood, meetsSigned_kept hunderstood, List.cons.injEq, ← ih]
      simp

/-- There is exactly one decoding of a text by the documented escapes, and it is what the decoder
gives exactly when decoding comes to no signed pair. In any case the decoder gives the one decoding
by the documented escapes and the signed pairs. -/
theorem unescape_documented_iff (s : String) :
    (∃! out, Decodes Documented s.toList out) ∧
    (Decodes Documented s.toList (unescape s).toList ↔ ¬ MeetsSigned s.toList) ∧
    ∀ out, Decodes Understood s.toList out ↔ out = (unescape s).toList := by
  have hdecoder : (unescape s).toList = decodeFrom 0 s.toList := String.toList_ofList
  obtain ⟨out, hout⟩ := @Decodes.exists_decodes Documented s.toList
  obtain ⟨full, hfull⟩ := @Decodes.exists_decodes Understood s.toList
  refine ⟨⟨out, hout, fun other hother => hother.unique separate_documented hout⟩, ?_, ?_⟩
  · rw [hdecoder, ← decodeFrom_eq_iff hout]
    constructor
    · exact fun h => h.unique separate_documented hout
    · exact fun h => h ▸ hout
  · intro other
    rw [hdecoder, decodeFrom_of_decodes hfull]
    constructor
    · exact fun h => h.unique separate_understood hfull
    · exact fun h => h ▸ hfull

/-- A plus sign and a digit behind `x` are no documented escape, but are decoded to a character. -/
theorem unescape_signed :
    Decodes Documented "\\x+4".toList "\\x+4".toList ∧ unescape "\\x+4" = "\x04" ∧
      ¬ Decodes Documented "\\x+4".toList (unescape "\\x+4").toList := by
  have hsigned : Signed ['x', '+', '4'] (Char.ofNat 4) := .mk ⟨by decide, .inl rfl⟩
  have hnone : ¬ Starts Documented ['x', '+', '4'] := by
    rintro ⟨body, d, hd, rest, heq⟩
    have htext : ['x', '+', '4'] ++ [] = body ++ rest := heq.symm
    exact not_documented_of_signed hsigned htext hd
  have hkept : Decodes Documented "\\x+4".toList "\\x+4".toList :=
    .kept hnone (.plain (by decide) (.plain (by decide) (.plain (by decide) .nil)))
  have hdecoded : unescape "\\x+4" = "\x04" := by decide
  refine ⟨hkept, hdecoded, fun h => ?_⟩
  have hsame := h.unique separate_documented hkept
  rw [hdecoded] at hsame
  exact absurd hsame (by decide)

end CommandShell.Escape
