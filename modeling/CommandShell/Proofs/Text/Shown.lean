/-
# CommandShell.Proofs.Text.Shown -- a text is shown as it is

Bytes of the file system are shown with replacements where they are no text. The bytes of a text
are all shown as its characters, so a text comes back from what is shown; other bytes never do.
-/
import CommandShell.Text.Raw
import Mathlib.Data.List.Forall2

namespace CommandShell.RawText

/-! ## One character -/

/-- A byte that can come. -/
def Span.Holds (span : Span) (b : UInt8) : Prop := span.least ≤ b.toNat ∧ b.toNat ≤ span.greatest

/-- The number that further bytes make up. -/
def numberFrom (n : Nat) (bs : List UInt8) : Nat :=
  bs.foldl (fun n b => n * 0x40 + b.toNat % 0x40) n

/-- Bytes that go on with a character as they should complete it. -/
theorem shownFrom_coming {spans : List Span} {bs : List UInt8}
    (h : List.Forall₂ Span.Holds spans bs) (hne : spans ≠ []) (n : Nat) (rest : List UInt8) :
    shownFrom ⟨n, spans⟩ (bs ++ rest) =
      Char.ofNat (numberFrom n bs) :: shownFrom .nothing rest := by
  induction h generalizing n with
  | nil => exact absurd rfl hne
  | @cons span b spans bs hb hbs ih =>
    have htake : Begun.take ⟨n, span :: spans⟩ b.toNat =
        Begun.settle ⟨n * 0x40 + b.toNat % 0x40, spans⟩ := if_pos hb
    rw [List.cons_append, shownFrom, htake]
    cases hbs with
    | nil => rfl
    | cons hnext hbs => exact ih (List.cons_ne_nil _ _) _

theorem shownFrom_begun {b : UInt8} {n : Nat} {spans : List Span} {bs : List UInt8}
    (hbegin : begin? b.toNat = some ⟨n, spans⟩) (hbs : List.Forall₂ Span.Holds spans bs)
    (rest : List UInt8) :
    shownFrom .nothing (b :: bs ++ rest) =
      Char.ofNat (numberFrom n bs) :: shownFrom .nothing rest := by
  have htake : Begun.nothing.take b.toNat = Begun.settle ⟨n, spans⟩ := by
    show takeFirst b.toNat = _
    rw [takeFirst, hbegin]
  rw [List.cons_append, shownFrom, htake]
  cases hbs with
  | nil => rfl
  | cons hnext hbs => exact shownFrom_coming (.cons hnext hbs) (List.cons_ne_nil _ _) n rest

/-- A byte that goes on carries six digits. -/
theorem toNat_tail (m : Nat) : (UInt8.ofNat (m % 64 + 128)).toNat = m % 64 + 128 :=
  UInt8.toNat_ofNat_of_lt' (show m % 64 + 128 < 0x100 by omega)

theorem holds_tail (m : Nat) : Span.tail.Holds (UInt8.ofNat (m % 64 + 128)) := by
  rw [Span.Holds, toNat_tail]
  simp only [Span.tail]
  omega

theorem numberFrom_tail (n m : Nat) (bs : List UInt8) :
    numberFrom n (UInt8.ofNat (m % 64 + 128) :: bs) = numberFrom (n * 64 + m % 64) bs := by
  have hdigits : (m % 64 + 128) % 64 = m % 64 := by omega
  rw [numberFrom, List.foldl_cons, toNat_tail, hdigits]
  rfl

theorem begin?_one {n : Nat} (hn : n < 0x80) : begin? (UInt8.ofNat n).toNat = some ⟨n, []⟩ := by
  rw [UInt8.toNat_ofNat_of_lt' (Nat.lt_trans hn (by decide))]
  exact if_pos hn

theorem begin?_two {n : Nat} (hleast : 0xC2 ≤ n) (hn : n < 0xE0) :
    begin? (UInt8.ofNat n).toNat = some ⟨n % 0x20, [.tail]⟩ := by
  rw [UInt8.toNat_ofNat_of_lt' (Nat.lt_trans hn (by decide)), begin?, if_neg (by omega),
    if_neg (by omega), if_pos hn]

theorem begin?_three {n : Nat} (hleast : 0xE0 ≤ n) (hn : n < 0xF0) :
    begin? (UInt8.ofNat n).toNat = some ⟨n % 0x10, [.second n, .tail]⟩ := by
  rw [UInt8.toNat_ofNat_of_lt' (Nat.lt_trans hn (by decide)), begin?, if_neg (by omega),
    if_neg (by omega), if_neg (by omega), if_pos hn]

theorem begin?_four {n : Nat} (hleast : 0xF0 ≤ n) (hn : n < 0xF5) :
    begin? (UInt8.ofNat n).toNat = some ⟨n % 0x08, [.second n, .tail, .tail]⟩ := by
  rw [UInt8.toNat_ofNat_of_lt' (Nat.lt_trans hn (by decide)), begin?, if_neg (by omega),
    if_neg (by omega), if_neg (by omega), if_neg (by omega), if_pos hn]

/-- How the bytes of a character are read: what the first one begins, and what the others are. -/
theorem begun_of_utf8EncodeChar (c : Char) : ∃ b bs n spans,
    String.utf8EncodeChar c = b :: bs ∧ begin? b.toNat = some ⟨n, spans⟩ ∧
      List.Forall₂ Span.Holds spans bs ∧ Char.ofNat (numberFrom n bs) = c := by
  have hvalid : c.val.toNat < 0xD800 ∨ 0xDFFF < c.val.toNat ∧ c.val.toNat < 0x110000 := c.valid
  have hchar : Char.ofNat c.val.toNat = c := Char.ofNat_toNat c
  unfold String.utf8EncodeChar
  generalize c.val.toNat = m at hvalid hchar ⊢
  -- one case for each number of bytes
  dsimp only
  split_ifs with hone htwo hthree
  · exact ⟨_, _, _, _, rfl, begin?_one (by omega), .nil, hchar⟩
  · refine ⟨_, _, _, _, rfl, begin?_two (by omega) (by omega), .cons (holds_tail m) .nil, ?_⟩
    have hnumber : (m / 64 % 32 + 192) % 0x20 * 64 + m % 64 = m := by omega
    rw [numberFrom_tail, hnumber]
    exact hchar
  · refine ⟨_, _, _, _, rfl, begin?_three (by omega) (by omega),
      .cons ?_ (.cons (holds_tail m) .nil), ?_⟩
    · rw [Span.Holds, toNat_tail, Span.second, Span.tail]
      split_ifs <;> simp only <;> omega
    · have hnumber : ((m / 4096 % 16 + 224) % 0x10 * 64 + m / 64 % 64) * 64 + m % 64 = m := by omega
      rw [numberFrom_tail, numberFrom_tail, hnumber]
      exact hchar
  · refine ⟨_, _, _, _, rfl, begin?_four (by omega) (by omega),
      .cons ?_ (.cons (holds_tail (m / 64)) (.cons (holds_tail m) .nil)), ?_⟩
    · rw [Span.Holds, toNat_tail, Span.second, Span.tail]
      split_ifs <;> simp only <;> omega
    · have hnumber : (((m / 262144 % 8 + 240) % 0x08 * 64 + m / 4096 % 64) * 64 +
          m / 64 % 64) * 64 + m % 64 = m := by
        omega
      rw [numberFrom_tail, numberFrom_tail, numberFrom_tail, hnumber]
      exact hchar

/-- The bytes of a character are shown as this character. -/
theorem shownFrom_utf8EncodeChar (c : Char) (rest : List UInt8) :
    shownFrom .nothing (String.utf8EncodeChar c ++ rest) = c :: shownFrom .nothing rest := by
  obtain ⟨b, bs, n, spans, hencode, hbegin, hbs, hchar⟩ := begun_of_utf8EncodeChar c
  rw [hencode, shownFrom_begun hbegin hbs, hchar]

/-! ## Texts -/

theorem shownFrom_encode (u : List Char) :
    shownFrom .nothing (u.flatMap String.utf8EncodeChar) = u := by
  induction u with
  | nil => rfl
  | cons c u ih => rw [List.flatMap_cons, shownFrom_utf8EncodeChar, ih]

/-- The bytes of a text are shown as this text. -/
theorem shown_ofText (s : String) : (ofText s).shown = s := by
  rw [shown, ofText, shownFrom_encode, String.ofList_toList]

/-- Whether the bytes are those of a text. -/
def IsText (r : RawText) : Prop := ∃ s, r = ofText s

theorem isText_iff {r : RawText} : r.IsText ↔ ofText r.shown = r := by
  constructor
  · rintro ⟨s, rfl⟩
    rw [shown_ofText]
  · intro h
    exact ⟨r.shown, h.symm⟩

end CommandShell.RawText
