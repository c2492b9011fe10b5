/-
# CommandShell.Proofs.Grammar.Numerals -- number literals, read and derived

The rule for numbers tries a fraction before an integer, and each run of digits takes all it can.
Here both literals are tied to their texts: whatever `number` takes is a numeral with the right
value, and a numeral before a delimiter is taken as a whole. The value of a floating-point literal
is the one that `Binary64.ofText?` reads from the same characters.
-/
import CommandShell.Proofs.Grammar.Matching

namespace CommandShell.Grammar

open Rule
open Decimal (isDigit)

/-! ## Delimiters -/

/-- What can stand right behind a word. -/
def delimiters : List Char := [' ', '\t', '#', '\n', '\r', ';', ')']

/-- No word goes on here. -/
def Delimited (rest : List Char) : Prop := ∀ c ∈ rest.head?, c ∈ delimiters

theorem Delimited.avoids {p : Char → Bool} {rest : List Char} (h : Delimited rest)
    (hp : delimiters.any p = false) : Avoids p rest :=
  avoids_of_mem h hp

/-! ## Classes that do not meet -/

theorem isSign_iff {c : Char} : isSign c = true ↔ c = '+' ∨ c = '-' := by
  simp [isSign]

theorem isPowerMark_iff {c : Char} : isPowerMark c = true ↔ c = 'e' ∨ c = 'E' := by
  simp [isPowerMark]

theorem isSign_of_isDigit {c : Char} (h : isDigit c = true) : isSign c = false := by
  cases hs : isSign c with
  | false => rfl
  | true => rcases isSign_iff.mp hs with rfl | rfl <;> simp [isDigit] at h

theorem DigitsText.avoids_sign {ds : List Char} (h : DigitsText ds) (rest : List Char) :
    Avoids isSign (ds ++ rest) := by
  obtain ⟨hc, _⟩ := h
  exact avoids_cons.mpr (isSign_of_isDigit hc)

theorem DigitsText.all_digits {ds : List Char} (h : DigitsText ds) :
    ∀ c ∈ ds, isDigit c = true := by
  obtain ⟨hc, hmore⟩ := h
  intro c hmem
  rcases List.mem_cons.mp hmem with rfl | hmem
  · exact hc
  · exact hmore c hmem

theorem DigitsText.ne_nil {ds : List Char} (h : DigitsText ds) : ds ≠ [] := by
  obtain ⟨_, _⟩ := h
  exact List.cons_ne_nil _ _

/-! ## What `Binary64.ofText?` reads -/

theorem takeSign_append {s : List Char} {negative : Bool} {rest : List Char}
    (hs : SignText s negative) (hrest : Avoids isSign rest) :
    Decimal.takeSign (s ++ rest) = (negative, rest) := by
  cases hs with
  | plus => rfl
  | minus => rfl
  | absent =>
    cases rest with
    | nil => rfl
    | cons c more =>
      have hc := avoids_cons.mp hrest
      have hplus : c ≠ '+' := by rintro rfl; cases hc
      have hminus : c ≠ '-' := by rintro rfl; cases hc
      show Decimal.takeSign (c :: more) = _
      unfold Decimal.takeSign
      split
      · next heq => exact absurd (List.cons.inj heq).1 hminus
      · next heq => exact absurd (List.cons.inj heq).1 hplus
      · rfl

/-- The power of ten that a text names, as the rule for powers computes it. -/
inductive PowerValue : List Char → Int → Prop
  | mk {c : Char} {s ds : List Char} {negative : Bool} :
      isPowerMark c = true → SignText s negative → DigitsText ds →
      PowerValue (c :: (s ++ ds)) (signed negative (Decimal.powerOf ds))

theorem PowerValue.text {u : List Char} {x : Int} (h : PowerValue u x) : PowerText u := by
  obtain ⟨hc, hs, hds⟩ := h
  exact .mk hc hs hds

theorem PowerText.value {u : List Char} (h : PowerText u) : ∃ x, PowerValue u x := by
  obtain ⟨hc, hs, hds⟩ := h
  exact ⟨_, .mk hc hs hds⟩

theorem readPower?_of_powerValue {u : List Char} {x : Int} (h : PowerValue u x) :
    Decimal.readPower? u = some x := by
  obtain @⟨c, s, ds, negative, hc, hs, hds⟩ := h
  have hmark : (c == 'e' || c == 'E') = true := hc
  have hall : ds.all isDigit = true := List.all_eq_true.mpr hds.all_digits
  have hne : ds.isEmpty = false := by simpa using hds.ne_nil
  have htake : Decimal.takeSign (s ++ ds) = (negative, ds) := by
    have h := takeSign_append hs (hds.avoids_sign [])
    rwa [List.append_nil] at h
  simp only [Decimal.readPower?, htake, hmark, hall, hne, signed]
  rfl

/-- The optional power of a numeral: nothing counts as the power zero. -/
inductive OptionalPower : List Char → Option Int → Prop
  | absent : OptionalPower [] none
  | present {u : List Char} {x : Int} : PowerValue u x → OptionalPower u (some x)

theorem OptionalPower.avoids_digit {u : List Char} {x : Option Int} (h : OptionalPower u x) :
    Avoids isDigit u := by
  cases h with
  | absent => exact avoids_nil _
  | present h =>
    obtain ⟨hc, _, _⟩ := h
    rcases isPowerMark_iff.mp hc with rfl | rfl <;> exact avoids_cons.mpr (by decide)

theorem OptionalPower.readPower? {u : List Char} {x : Option Int} (h : OptionalPower u x) :
    Decimal.readPower? u = some (x.getD 0) := by
  cases h with
  | absent => rfl
  | present h => exact readPower?_of_powerValue h

theorem readUnsigned?_numeral {whole fraction power : List Char} {x : Option Int}
    (negative : Bool) (hwhole : DigitsText whole) (hfraction : DigitsText fraction)
    (hpower : OptionalPower power x) :
    Decimal.readUnsigned? negative (whole ++ '.' :: (fraction ++ power)) =
      some (Decimal.ofParts negative whole fraction (x.getD 0)) := by
  have hpoint : Avoids isDigit ('.' :: (fraction ++ power)) := avoids_cons.mpr (by decide)
  have hne : whole.isEmpty = false := by simpa using hwhole.ne_nil
  unfold Decimal.readUnsigned?
  rw [takeWhile_append_of_avoids hwhole.all_digits hpoint,
    dropWhile_append_of_avoids hwhole.all_digits hpoint]
  simp only [takeWhile_append_of_avoids hfraction.all_digits hpower.avoids_digit,
    dropWhile_append_of_avoids hfraction.all_digits hpower.avoids_digit, hne, Bool.false_and,
    hpower.readPower?]
  rfl

/-- A numeral with a point is read as its parts say. -/
theorem ofText?_numeral {s whole fraction power : List Char} {negative : Bool} {x : Option Int}
    (hs : SignText s negative) (hwhole : DigitsText whole) (hfraction : DigitsText fraction)
    (hpower : OptionalPower power x) :
    Binary64.ofText? (String.ofList (s ++ (whole ++ '.' :: (fraction ++ power)))) =
      some (Decimal.ofParts negative whole fraction (x.getD 0)).toBinary64 := by
  have hfirst := hwhole
  obtain @⟨c, more, hc, hmore⟩ := hfirst
  -- neither `NaN` nor `inf` starts with a digit
  have hnan : s ++ (c :: more ++ '.' :: (fraction ++ power)) ≠ ['N', 'a', 'N'] := by
    intro heq
    cases hs with
    | absent => rw [(List.cons.inj heq).1] at hc; cases hc
    | plus => cases heq
    | minus => cases heq
  have hinf : c :: more ++ '.' :: (fraction ++ power) ≠ "inf".toList := by
    intro heq
    rw [show c = 'i' from (List.cons.inj heq).1] at hc
    cases hc
  have htake : Decimal.takeSign (s ++ (c :: more ++ '.' :: (fraction ++ power))) =
      (negative, c :: more ++ '.' :: (fraction ++ power)) :=
    takeSign_append hs (hwhole.avoids_sign _)
  unfold Binary64.ofText?
  have hname : String.ofList (s ++ (c :: more ++ '.' :: (fraction ++ power))) ≠ "NaN" := by
    intro heq
    have hlist := congrArg String.toList heq
    rw [String.toList_ofList] at hlist
    exact hnan hlist
  rw [if_neg hname, String.toList_ofList]
  simp only [htake]
  rw [if_neg hinf, readUnsigned?_numeral negative hwhole hfraction hpower]
  rfl

/-! ## Soundness -/

theorem sound_sign : Sound sign (fun u negative _ => SignText u negative) := by
  intro c negative next h
  obtain ⟨s, mid, hs, h⟩ := bind_eq_some.mp h
  obtain ⟨rfl, rfl⟩ := pure_eq_some.mp h
  obtain ⟨u, hc, hu⟩ := (sound_oneOf isSign .sign).optional.taken hs
  refine ⟨u, hc, ?_⟩
  cases hu with
  | absent => exact .absent
  | present hp =>
    obtain ⟨rfl, hp⟩ := hp
    rcases isSign_iff.mp hp with rfl | rfl
    · exact .plus
    · exact .minus

theorem sound_digits : Sound digits (fun u ds _ => ds = u ∧ DigitsText u) :=
  (sound_run1 isDigit .digit).mono (fun _ _ _ h => ⟨h.1, h.2.1⟩)

theorem sound_power : Sound power (fun u x _ => PowerValue u x) := by
  intro c x next h
  obtain ⟨m, c₁, hm, h⟩ := bind_eq_some.mp h
  obtain ⟨negative, c₂, hs, h⟩ := bind_eq_some.mp h
  obtain ⟨ds, c₃, hds, h⟩ := bind_eq_some.mp h
  obtain ⟨rfl, rfl⟩ := pure_eq_some.mp h
  obtain ⟨u₁, hc₁, rfl, hmark⟩ := (sound_oneOf _ _).taken hm
  obtain ⟨u₂, hc₂, hsign⟩ := sound_sign.taken hs
  obtain ⟨u₃, hc₃, rfl, hdigits⟩ := sound_digits.taken hds
  exact ⟨m :: (u₂ ++ ds), by rw [hc₁, hc₂, hc₃]; simp, .mk hmark hsign hdigits⟩

theorem sound_float : Sound float (fun u x _ => ExprText u (.float x)) := by
  intro c x next h
  obtain ⟨negative, c₁, hs, h⟩ := bind_eq_some.mp h
  obtain ⟨whole, c₂, hw, h⟩ := bind_eq_some.mp h
  obtain ⟨⟨⟩, c₃, hpoint, h⟩ := bind_eq_some.mp h
  obtain ⟨fraction, c₄, hf, h⟩ := bind_eq_some.mp h
  obtain ⟨exponent, c₅, hp, h⟩ := bind_eq_some.mp h
  obtain ⟨rfl, rfl⟩ := pure_eq_some.mp h
  obtain ⟨s, hc₁, hsign⟩ := sound_sign.taken hs
  obtain ⟨_, hc₂, rfl, hwhole⟩ := sound_digits.taken hw
  have hc₃ := mark_eq_some hpoint
  obtain ⟨_, hc₄, rfl, hfraction⟩ := sound_digits.taken hf
  obtain ⟨power, hc₅, hopt⟩ := sound_power.optional.taken hp
  have hpower : OptionalPower power exponent := by
    cases hopt with
    | absent => exact .absent
    | present hvalue => exact .present hvalue
  refine ⟨s ++ (whole ++ '.' :: (fraction ++ power)), ?_, .float ?_ ?_⟩
  · rw [hc₁, hc₂, hc₃, hc₄, hc₅]
    simp [Mark.chars]
  · refine .mk hsign hwhole hfraction ?_
    cases hpower with
    | absent => exact .inl rfl
    | present hvalue => exact .inr hvalue.text
  · exact ofText?_numeral hsign hwhole hfraction hpower

theorem int64?_eq_some_iff {x : Int} {value : Int64} :
    int64? x = some value ↔ value.toInt = x := by
  have hsmall := Int64.minValue_le_toInt value
  have hlarge := Int64.toInt_le value
  unfold int64?
  constructor
  · intro h
    split at h
    · next hfits =>
      cases h
      exact Int64.toInt_ofInt_of_le hfits.1 (Int.lt_add_one_of_le hfits.2)
    · cases h
  · rintro rfl
    rw [if_pos ⟨hsmall, hlarge⟩, Int64.ofInt_toInt]

theorem sound_integer : Sound integer (fun u x _ => ExprText u (.integer x)) := by
  intro c x next h
  obtain ⟨negative, c₁, hs, h⟩ := bind_eq_some.mp h
  obtain ⟨ds, c₂, hds, h⟩ := bind_eq_some.mp h
  obtain ⟨s, hc₁, hsign⟩ := sound_sign.taken hs
  obtain ⟨_, hc₂, rfl, hdigits⟩ := sound_digits.taken hds
  cases hfits : int64? (signed negative (Decimal.valueOf ds)) with
  | none =>
    simp only [hfits] at h
    cases h
  | some value =>
    simp only [hfits] at h
    obtain ⟨rfl, rfl⟩ := pure_eq_some.mp h
    refine ⟨s ++ ds, by rw [hc₁, hc₂, List.append_assoc], .integer hsign hdigits ?_⟩
    rw [← Decimal.valueOf_eq_foldl]
    exact int64?_eq_some_iff.mp hfits

theorem sound_number : Sound number (fun u e _ => ExprText u e) :=
  Sound.orElse (Sound.map sound_float) (Sound.map sound_integer)

/-! ## Completeness -/

theorem reads_sign {s : List Char} {negative : Bool} {rest : List Char}
    (hs : SignText s negative) (hrest : Avoids isSign rest) : Reads sign s negative rest := by
  cases hs with
  | absent => exact Reads.bind_pure (Refuses.optional (refuses_oneOf hrest _)) rfl
  | plus => exact Reads.bind_pure (Reads.optional (reads_oneOf rfl _ _)) rfl
  | minus => exact Reads.bind_pure (Reads.optional (reads_oneOf rfl _ _)) rfl

theorem reads_digits {ds rest : List Char} (h : DigitsText ds) (hrest : Avoids isDigit rest) :
    Reads digits ds ds rest :=
  reads_run1 h hrest _

theorem reads_power {u rest : List Char} {x : Int} (h : PowerValue u x)
    (hrest : Avoids isDigit rest) : Reads power u x rest := by
  obtain ⟨hc, hs, hds⟩ := h
  exact Reads.bind (reads_oneOf hc _ _)
    (Reads.bind (reads_sign hs (hds.avoids_sign rest))
      (Reads.bind_pure (reads_digits hds hrest) rfl))

theorem reads_optional_power {u rest : List Char} {x : Option Int} (h : OptionalPower u x)
    (hrest : Delimited rest) : Reads (optional power) u x rest := by
  cases h with
  | absent =>
    exact Refuses.optional (Refuses.bind (refuses_oneOf (hrest.avoids rfl) _))
  | present h => exact Reads.optional (reads_power h (hrest.avoids rfl))

theorem reads_float {s whole fraction power rest : List Char} {negative : Bool} {x : Option Int}
    (hs : SignText s negative) (hwhole : DigitsText whole) (hfraction : DigitsText fraction)
    (hpower : OptionalPower power x) (hrest : Delimited rest) :
    Reads float (s ++ (whole ++ '.' :: (fraction ++ power)))
      (Decimal.ofParts negative whole fraction (x.getD 0)).toBinary64 rest := by
  have hpoint : Avoids isDigit ('.' :: (fraction ++ power) ++ rest) := avoids_cons.mpr (by decide)
  have hstop : Avoids isDigit (power ++ rest) := by
    cases hpower with
    | absent => exact hrest.avoids rfl
    | present h =>
      obtain ⟨hc, _, _⟩ := h
      rcases isPowerMark_iff.mp hc with rfl | rfl <;> exact avoids_cons.mpr (by decide)
  refine Reads.bind (reads_sign hs ?_) (Reads.bind (reads_digits hwhole hpoint)
    (Reads.bind (u := ['.']) (reads_mark .point _) (Reads.bind (reads_digits hfraction hstop)
      (Reads.bind_pure (reads_optional_power hpower hrest) rfl))))
  rw [List.append_assoc]
  exact hwhole.avoids_sign _

/-- A run of digits without a point is no fraction. -/
theorem refuses_float {s ds rest : List Char} {negative : Bool} (hs : SignText s negative)
    (hds : DigitsText ds) (hrest : Delimited rest) : Refuses float (s ++ ds ++ rest) := by
  have hpoint : Refuses (mark .point) rest :=
    refuses_mark_of_avoids rfl (hrest.avoids rfl)
  rw [List.append_assoc]
  exact Reads.refuses_bind (reads_sign hs (hds.avoids_sign rest))
    (Reads.refuses_bind (reads_digits hds (hrest.avoids rfl)) (Refuses.bind hpoint))

theorem reads_integer {s ds rest : List Char} {negative : Bool} {value : Int64}
    (hs : SignText s negative) (hds : DigitsText ds)
    (hvalue : value.toInt = signed negative (ds.foldl Decimal.putDigit 0))
    (hrest : Delimited rest) : Reads integer (s ++ ds) value rest := by
  have hfits : int64? (signed negative (Decimal.valueOf ds)) = some value := by
    rw [Decimal.valueOf_eq_foldl]
    exact int64?_eq_some_iff.mpr hvalue
  refine Reads.bind (reads_sign hs (hds.avoids_sign rest))
    (Reads.bind_pure (reads_digits hds (hrest.avoids rfl)) ?_)
  simp only [hfits]

theorem reads_number_integer {s ds rest : List Char} {negative : Bool} {value : Int64}
    (hs : SignText s negative) (hds : DigitsText ds)
    (hvalue : value.toInt = signed negative (ds.foldl Decimal.putDigit 0))
    (hrest : Delimited rest) : Reads number (s ++ ds) (.integer value) rest :=
  Reads.orElse_right (Refuses.map (refuses_float hs hds hrest))
    (Reads.map (reads_integer hs hds hvalue hrest))

theorem exists_optionalPower {power : List Char} (h : power = [] ∨ PowerText power) :
    ∃ x, OptionalPower power x := by
  rcases h with rfl | h
  · exact ⟨none, .absent⟩
  · obtain ⟨x, hx⟩ := h.value
    exact ⟨some x, .present hx⟩

/-- The value of a floating-point literal is there for every text of one. -/
theorem FloatText.exists_value {u : List Char} (h : FloatText u) :
    ∃ value, Binary64.ofText? (String.ofList u) = some value := by
  obtain ⟨hs, hwhole, hfraction, hpower⟩ := h
  obtain ⟨x, hx⟩ := exists_optionalPower hpower
  exact ⟨_, ofText?_numeral hs hwhole hfraction hx⟩

theorem reads_number_float {u rest : List Char} {value : Binary64} (hu : FloatText u)
    (hvalue : Binary64.ofText? (String.ofList u) = some value) (hrest : Delimited rest) :
    Reads number u (.float value) rest := by
  obtain ⟨hs, hwhole, hfraction, hpower⟩ := hu
  obtain ⟨x, hx⟩ := exists_optionalPower hpower
  rw [ofText?_numeral hs hwhole hfraction hx] at hvalue
  cases hvalue
  exact Reads.orElse_left (Reads.map (reads_float hs hwhole hfraction hx hrest))

end CommandShell.Grammar
