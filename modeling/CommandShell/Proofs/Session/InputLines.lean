/-
# CommandShell.Proofs.Session.InputLines -- a text comes back as its lines

A session takes input as bytes, cuts it behind the line feeds and drops every line ending. For the
bytes of a text this gives the lines of the text, but for carriage returns that stand at the end of
a line in excess; and a line that can be read has none there, because nothing in the grammar ends in
one. A blank line that can be read, in turn, has no statements.
-/
import CommandShell.Proofs.Grammar.Lines
import CommandShell.Session.Input

namespace CommandShell

/-! ## How texts of the language end -/

namespace Grammar

open Decimal (isDigit)

/-- The text does not end in a carriage return. -/
def EndsClean (u : List Char) : Prop := u.getLast? ≠ some '\r'

theorem endsClean_nil : EndsClean [] := by
  simp [EndsClean]

theorem EndsClean.append {u v : List Char} (hu : EndsClean u) (hv : EndsClean v) :
    EndsClean (u ++ v) := by
  unfold EndsClean at *
  rw [List.getLast?_append]
  cases hlast : v.getLast? with
  | none => simpa using hu
  | some c => simpa [hlast] using hv

theorem endsClean_concat (u : List Char) {c : Char} (hc : c ≠ '\r') : EndsClean (u ++ [c]) := by
  simp [EndsClean, hc]

theorem endsClean_of_class {p : Char → Bool} (hp : p '\r' = false) {u : List Char}
    (hu : ∀ c ∈ u, p c = true) : EndsClean u := by
  intro hlast
  have hreturn := hu '\r' (List.mem_of_getLast? hlast)
  rw [hp] at hreturn
  cases hreturn

theorem Run.endsClean {first more : Char → Bool} (hfirst : first '\r' = false)
    (hmore : more '\r' = false) {u : List Char} (hu : Run first more u) : EndsClean u := by
  obtain ⟨hc, hrest⟩ := hu
  refine EndsClean.append (u := [_]) ?_ (endsClean_of_class hmore hrest)
  exact endsClean_of_class hfirst (by simpa using hc)

theorem Blanks.endsClean {u : List Char} (hu : Blanks u) : EndsClean u := endsClean_of_class rfl hu

theorem NameText.endsClean {u : List Char} (hu : NameText u) : EndsClean u :=
  Run.endsClean rfl rfl hu

theorem DigitsText.endsClean {u : List Char} (hu : DigitsText u) : EndsClean u :=
  Run.endsClean rfl rfl hu

theorem SignText.endsClean {u : List Char} {negative : Bool} (hu : SignText u negative) :
    EndsClean u := by
  cases hu <;> simp [EndsClean]

theorem PowerText.endsClean {u : List Char} (hu : PowerText u) : EndsClean u := by
  obtain ⟨hmark, hsign, hdigits⟩ := hu
  refine EndsClean.append (u := [_]) ?_ (hsign.endsClean.append hdigits.endsClean)
  exact endsClean_of_class (p := isPowerMark) rfl (by simpa using hmark)

theorem FloatText.endsClean {u : List Char} (hu : FloatText u) : EndsClean u := by
  obtain ⟨hsign, hwhole, hfraction, hpower⟩ := hu
  refine hsign.endsClean.append (hwhole.endsClean.append ?_)
  refine EndsClean.append (u := ['.']) (endsClean_concat [] (by decide)) ?_
  refine hfraction.endsClean.append ?_
  rcases hpower with rfl | hpower
  · exact endsClean_nil
  · exact hpower.endsClean

theorem ExprText.endsClean {u : List Char} {e : Expr} (h : ExprText u e) : EndsClean u := by
  cases h with
  | braced => exact endsClean_concat (_ :: _ :: _) (by decide)
  | named hu => exact (endsClean_concat [] (by decide)).append (u := ['$']) hu.endsClean
  | substitution => exact endsClean_concat (_ :: _ :: _) (by decide)
  | quoted => exact endsClean_concat (_ :: _) (by decide)
  | bare hu => exact Run.endsClean rfl rfl hu
  | integer hs hds => exact hs.endsClean.append hds.endsClean
  | float hu => exact hu.endsClean

theorem WordText.endsClean {u : List Char} {a : Argument} (h : WordText u a) : EndsClean u := by
  have hdash : EndsClean ['-'] := endsClean_concat [] (by decide)
  cases h with
  | long hu => exact hdash.append (hdash.append hu.endsClean)
  | short hu => exact hdash.append hu.endsClean
  | expr hu => exact hu.endsClean

theorem WordsText.endsClean {v : List Char} {words : List Argument} (h : WordsText v words) :
    EndsClean v := by
  cases h with
  | nil => exact endsClean_nil
  | cons hb _ hu hv => exact (hb.endsClean.append hu.endsClean).append hv.endsClean

theorem BodyText.endsClean {u : List Char} {b : Body} (h : BodyText u b) : EndsClean u := by
  cases h with
  | command hu hv => exact hu.endsClean.append hv.endsClean
  | expr hu => exact hu.endsClean

theorem Optionally.endsClean {α : Type} {P : List Char → α → Prop} {u : List Char} {a : Option α}
    (h : Optionally P u a) (hP : ∀ {u a}, P u a → EndsClean u) : EndsClean u := by
  cases h with
  | absent => exact endsClean_nil
  | present hu => exact hP hu

theorem CommentText.endsClean {u : List Char} {note : String} (h : CommentText u note) :
    EndsClean u := by
  obtain ⟨hu⟩ := h
  exact (endsClean_concat [] (by decide)).append (u := ['#']) (endsClean_of_class rfl hu)

theorem StatementText.endsClean {follow u : List Char} {s : Statement}
    (h : StatementText follow u s) : EndsClean u := by
  obtain ⟨ha, hu, hb, hv, hc, -⟩ := h
  refine EndsClean.append ?_ hc.endsClean
  refine EndsClean.append ?_ (hv.endsClean CommentText.endsClean)
  exact (ha.endsClean.append (hu.endsClean BodyText.endsClean)).append hb.endsClean

theorem SeparatorText.endsClean {u : List Char} (h : SeparatorText u) : EndsClean u := by
  cases h <;> simp [EndsClean]

theorem ProgramText.endsClean {u : List Char} {t : List Statement} (h : ProgramText u t) :
    EndsClean u := by
  induction h with
  | last hu => exact hu.endsClean
  | next hu hsep _ ih => exact hu.endsClean.append (hsep.endsClean.append ih)

/-! ## Blank texts of the language -/

theorem isBlank_of_isBodyStart {c : Char} (h : isBodyStart c = true) : Text.isBlank c = false := by
  have hrange : 33 ≤ c.toNat ∧ c.toNat ≤ 126 := by
    simp [isBodyStart, isBareStart, isNameStart, isDigit, isSign, Char.ext_iff, ← UInt32.toNat_inj,
      Char.le_def, UInt32.le_iff_toNat_le] at h
    omega
  simp only [Text.isBlank, Bool.or_eq_false_iff, Bool.and_eq_false_iff, decide_eq_false_iff_not,
    beq_eq_false_iff_ne]
  omega

theorem StatementText.body_of_blank {follow u : List Char} {s : Statement}
    (h : StatementText follow u s) (hblank : ∀ c ∈ u, Text.isBlank c = true) : s.body = none := by
  obtain ⟨-, hu, -, -, -, -⟩ := h
  cases hu with
  | absent => rfl
  | present hu =>
    obtain ⟨c, more, rfl, hc⟩ := hu.head
    have hshows := isBlank_of_isBodyStart hc
    rw [hblank c (by simp)] at hshows
    cases hshows

theorem ProgramText.bodies_of_blank {u : List Char} {t : List Statement} (h : ProgramText u t)
    (hblank : ∀ c ∈ u, Text.isBlank c = true) : ∀ s ∈ t, s.body = none := by
  induction h with
  | last hu => simpa using hu.body_of_blank hblank
  | next hu hsep _ ih =>
    rw [List.forall_mem_cons]
    refine ⟨hu.body_of_blank (fun c hc => hblank c (by simp [hc])), ?_⟩
    exact ih (fun c hc => hblank c (by simp [hc]))

end Grammar

namespace Reader

open Grammar

theorem statementNodes_of_bodies {readString : String → Except ReadError Node}
    {t : List Statement} (h : ∀ s ∈ t, s.body = none) : statementNodes readString t = .ok [] := by
  induction t with
  | nil => rfl
  | cons s rest ih =>
    obtain ⟨hs, hrest⟩ := List.forall_mem_cons.mp h
    obtain ⟨body, note⟩ := s
    obtain rfl : body = none := hs
    exact ih hrest

/-- A blank text that can be read has no statements. -/
theorem statements_of_blank {r : Reader} {source : String} {p : Program}
    (h : r.program source = .ok p) (hblank : Text.isAllBlank source = true) :
    p.statements = [] := by
  obtain ⟨t, ht, hnodes⟩ := program_eq_ok_iff.mp h
  have hbodies := (programTree_eq_ok_iff.mp ht).2.bodies_of_blank (List.all_eq_true.mp hblank)
  rw [statementNodes_of_bodies hbodies] at hnodes
  exact (Except.ok.inj hnodes).symm

/-- A text that can be read does not end in a carriage return. -/
theorem endsClean_of_program {r : Reader} {source : String} {p : Program}
    (h : r.program source = .ok p) : EndsClean source.toList := by
  obtain ⟨t, ht, -⟩ := program_eq_ok_iff.mp h
  exact (programTree_eq_ok_iff.mp ht).2.endsClean

end Reader

/-! ## Lines of characters -/

theorem Text.lineFeed_not_mem (text : List Char) : ∀ line ∈ splitLines text, '\n' ∉ line := by
  fun_induction splitLines text with
  | case1 => simp
  | case2 rest ih => simpa using ih
  | case3 rest ih => simpa using ih
  | case4 c rest hfeed hreturn hnone ih => simpa using Ne.symm hfeed
  | case5 c rest hfeed hreturn line more hsome ih =>
    rw [hsome, List.forall_mem_cons] at ih
    rw [List.forall_mem_cons]
    refine ⟨?_, ih.2⟩
    simpa using ⟨Ne.symm hfeed, ih.1⟩

namespace Input

open Grammar (EndsClean)

/-- Cuts a text behind each line feed; what follows the last one counts if it is not empty. -/
def cuts : List Char → List (List Char)
  | [] => []
  | c :: rest =>
    if c = '\n' then [c] :: cuts rest
    else match cuts rest with
      | [] => [[c]]
      | cut :: more => (c :: cut) :: more

/-- What is dropped at the end does not depend on what stands before. -/
theorem trimEnding_cons {u v : List Char} (c : Char) (h : trimEnding u = trimEnding v) :
    trimEnding (c :: u) = trimEnding (c :: v) := by
  unfold trimEnding at *
  rw [List.reverse_inj] at *
  rw [List.reverse_cons, List.reverse_cons, List.dropWhile_append, List.dropWhile_append, h]

theorem trimEnding_eq_self {u : List Char} (hfeed : '\n' ∉ u) (hclean : EndsClean u) :
    trimEnding u = u := by
  have hlast : Grammar.Avoids (fun c => c == '\n' || c == '\r') u.reverse := by
    intro c hc
    rw [List.head?_reverse] at hc
    have hfeed' : c ≠ '\n' := fun h => hfeed (h ▸ List.mem_of_getLast? hc)
    have hreturn : c ≠ '\r' := fun h => hclean (h ▸ hc)
    simp [hfeed', hreturn]
  rw [trimEnding, Grammar.dropWhile_eq_of_avoids hlast, List.reverse_reverse]

theorem cuts_cons {c : Char} (hc : c ≠ '\n') (rest : List Char) :
    cuts (c :: rest) = match cuts rest with
      | [] => [[c]]
      | cut :: more => (c :: cut) :: more := by
  rw [cuts, if_neg hc]

/-- Cut behind its line feeds, a text gives its lines, but for what is dropped at their ends. -/
theorem map_trimEnding_cuts (text : List Char) :
    (cuts text).map trimEnding = (Text.splitLines text).map trimEnding := by
  fun_induction Text.splitLines text with
  | case1 => rfl
  | case2 rest ih =>
    rw [cuts, if_pos rfl, List.map_cons, List.map_cons, ih]
    rfl
  | case3 rest ih =>
    rw [cuts_cons (by decide), cuts, if_pos rfl]
    simp only [List.map_cons, ih]
    rfl
  | case4 c rest hfeed hreturn hnone ih =>
    have hcuts : cuts rest = [] := by simpa [hnone] using ih
    rw [cuts_cons hfeed, hcuts]
  | case5 c rest hfeed hreturn line more hsome ih =>
    rw [hsome, List.map_cons, List.map_eq_cons_iff] at ih
    obtain ⟨cut, cs, hcuts, hcut, hcs⟩ := ih
    rw [cuts_cons hfeed, hcuts]
    simp only [List.map_cons, hcs, trimEnding_cons c hcut]

/-! ## Lines of bytes -/

/-- The bytes of characters. -/
def encode (text : List Char) : List UInt8 := text.flatMap String.utf8EncodeChar

theorem toUTF8_ofList (text : List Char) :
    (String.ofList text).toUTF8.data.toList = encode text := by
  rw [String.toUTF8_eq_toByteArray, String.toByteArray_ofList, List.utf8Encode]
  simp [encode]

/-- A byte of a character is the character itself, or above those that are a character by
themselves. -/
theorem toNat_of_mem_encode {c : Char} {b : UInt8} (hb : b ∈ String.utf8EncodeChar c) :
    b.toNat = c.val.toNat ∨ 128 ≤ b.toNat := by
  simp only [String.utf8EncodeChar] at hb
  split at hb
  · rw [List.mem_singleton.mp hb, UInt8.toNat_ofNat']
    omega
  · right
    split at hb
    · simp only [List.mem_cons, List.not_mem_nil, or_false] at hb
      rcases hb with rfl | rfl <;> rw [UInt8.toNat_ofNat'] <;> omega
    · split at hb
      · simp only [List.mem_cons, List.not_mem_nil, or_false] at hb
        rcases hb with rfl | rfl | rfl <;> rw [UInt8.toNat_ofNat'] <;> omega
      · simp only [List.mem_cons, List.not_mem_nil, or_false] at hb
        rcases hb with rfl | rfl | rfl | rfl <;> rw [UInt8.toNat_ofNat'] <;> omega

/-- The byte of a line feed is in no other character. -/
theorem lineFeed_not_mem_encode {c : Char} (hc : c ≠ '\n') :
    ∀ b ∈ String.utf8EncodeChar c, b ≠ lineFeed := by
  rintro b hb rfl
  have hfeed : lineFeed.toNat = 10 := rfl
  rcases toNat_of_mem_encode hb with hsame | habove
  · exact hc (Char.ext (UInt32.toNat_inj.mp hsame.symm))
  · omega

/-- Bytes without a line feed go in front of the next cut. -/
theorem chunks_append {bs : List UInt8} (h : ∀ b ∈ bs, b ≠ lineFeed) (hne : bs ≠ [])
    (rest : List UInt8) :
    chunks (bs ++ rest) = match chunks rest with
      | [] => [bs]
      | chunk :: more => (bs ++ chunk) :: more := by
  induction bs with
  | nil => exact absurd rfl hne
  | cons b bs ih =>
    obtain ⟨hb, hbs⟩ := List.forall_mem_cons.mp h
    rw [List.cons_append, chunks, if_neg hb]
    by_cases hnil : bs = []
    · subst hnil
      simp only [List.nil_append]
      cases chunks rest <;> rfl
    · rw [ih hbs hnil]
      cases chunks rest <;> rfl

theorem chunks_encode (text : List Char) : chunks (encode text) = (cuts text).map encode := by
  induction text with
  | nil => rfl
  | cons c rest ih =>
    by_cases hc : c = '\n'
    · subst hc
      rw [cuts, if_pos rfl, List.map_cons, ← ih]
      rfl
    · rw [cuts_cons hc, encode, List.flatMap_cons,
        chunks_append (lineFeed_not_mem_encode hc) String.utf8EncodeChar_ne_nil]
      change (match chunks (encode rest) with | [] => _ | _ :: _ => _) = _
      rw [ih]
      cases cuts rest with
      | nil => simp [encode]
      | cons cut more => simp [encode]

theorem decode?_encode (text : List Char) :
    decode? (encode text) = some (String.ofList (trimEnding text)) := by
  have hbytes : (⟨(encode text).toArray⟩ : ByteArray) = (String.ofList text).toByteArray := by
    rw [String.toByteArray_ofList, List.utf8Encode]
    apply ByteArray.ext
    simp [encode]
  have hread : String.fromUTF8? (String.ofList text).toByteArray = some (String.ofList text) := by
    rw [String.fromUTF8?, dif_pos (String.ofList text).isValidUTF8]
    rfl
  rw [decode?, hbytes, hread, Option.map_some, String.toList_ofList]

/-- The bytes of a text are taken as its lines, but for what is dropped at their ends. -/
theorem lines_toUTF8 (text : String) :
    lines text.toUTF8.data.toList =
      (Text.splitLines text.toList).map (fun line => some (String.ofList (trimEnding line))) := by
  have hbytes : text.toUTF8.data.toList = encode text.toList := by
    rw [← toUTF8_ofList, String.ofList_toList]
  rw [hbytes, lines, chunks_encode, List.map_map]
  have hdecode : decode? ∘ encode = (fun line => some (String.ofList line)) ∘ trimEnding := by
    funext line
    exact decode?_encode line
  rw [hdecode, ← List.map_map, map_trimEnding_cuts, List.map_map]
  rfl

/-- The bytes of a text whose lines can be read are taken as these lines. -/
theorem lines_of_readable {r : Reader} {text : String}
    (hlines : ∀ line ∈ Text.lines text, ∃ p, r.program line = .ok p) :
    lines text.toUTF8.data.toList = (Text.lines text).map some := by
  rw [lines_toUTF8, Text.lines, List.map_map]
  apply List.map_congr_left
  intro line hline
  obtain ⟨p, hp⟩ := hlines (String.ofList line) (List.mem_map_of_mem hline)
  have hclean := Reader.endsClean_of_program hp
  rw [String.toList_ofList] at hclean
  rw [trimEnding_eq_self (Text.lineFeed_not_mem text.toList line hline) hclean]
  rfl

end Input

end CommandShell
