/-
# CommandShell.Proofs.Text.ByteOrder -- the order of texts is the order of their bytes

Texts are compared character by character. Their bytes are in the same order: a character of few
bytes starts with a smaller one than a character of more, and of two characters with as many bytes
these are the digits of their numbers, the highest first.
-/
import CommandShell.Proofs.Session.InputLines

namespace CommandShell.Text

open Input (encode toUTF8_ofList)

/-- The bytes of a text. -/
def bytes (s : String) : List UInt8 := s.toUTF8.data.toList

theorem bytes_eq_encode (s : String) : bytes s = encode s.toList := by
  rw [bytes, ← toUTF8_ofList, String.ofList_toList]

/-- The bytes of a smaller character come first, whatever follows. -/
theorem utf8EncodeChar_append_lt {c d : Char} (h : c < d) (u v : List UInt8) :
    String.utf8EncodeChar c ++ u < String.utf8EncodeChar d ++ v := by
  have hlt : c.val.toNat < d.val.toNat := h
  have hlast : d.val.toNat < 0x110000 := by
    rcases d.valid with hlow | ⟨-, hhigh⟩
    · exact Nat.lt_trans hlow (by decide)
    · exact hhigh
  simp only [String.utf8EncodeChar]
  generalize c.val.toNat = m at hlt
  generalize d.val.toNat = n at hlt hlast
  -- one case for each two numbers of bytes
  split_ifs
  all_goals
    simp only [List.cons_append, List.nil_append, List.cons_lt_cons_iff, UInt8.lt_iff_toNat_lt,
      ← UInt8.toNat_inj, UInt8.toNat_ofNat']
    -- no digit overflows its byte
    simp (disch := omega) only [Nat.mod_eq_of_lt]
    omega

theorem encode_lt {u v : List Char} (h : u < v) : encode u < encode v := by
  induction u generalizing v with
  | nil =>
    cases v with
    | nil => exact absurd h (List.lt_irrefl [])
    | cons d v =>
      obtain ⟨b, bs, hd⟩ := List.exists_cons_of_ne_nil (String.utf8EncodeChar_ne_nil (c := d))
      show [] < String.utf8EncodeChar d ++ encode v
      rw [hd]
      exact List.nil_lt_cons _ _
  | cons c u ih =>
    cases v with
    | nil => exact absurd h (List.not_lt_nil _)
    | cons d v =>
      show String.utf8EncodeChar c ++ encode u < String.utf8EncodeChar d ++ encode v
      rcases List.cons_lt_cons_iff.mp h with hlt | ⟨rfl, hrest⟩
      · exact utf8EncodeChar_append_lt hlt _ _
      · exact List.append_left_lt (ih hrest)

theorem bytes_lt {a b : String} (h : a < b) : bytes a < bytes b := by
  rw [bytes_eq_encode, bytes_eq_encode]
  exact encode_lt (h)

end CommandShell.Text
