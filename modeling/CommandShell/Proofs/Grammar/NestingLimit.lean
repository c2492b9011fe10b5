/-
# CommandShell.Proofs.Grammar.NestingLimit -- what the scan for nesting bounds

The scan of `CommandShell.Grammar.Nesting` runs over the characters of a text, the grammar over its
structure. Here the scan is a gauge that moves up and down, a text is admitted when the peak of its
gauge is within the limit, and the derivations of the grammar say how the gauge moves.

Outside of strings the gauge is never below the level that the grammar has reached. A string is
text to the grammar and not to the scan: one that lies inside a substitution may close levels that
the grammar still has open, and what follows it is then counted too low. The strings that do not
lower the gauge are exactly those under which the limit holds for every text.
-/
import CommandShell.Proofs.Grammar.Completeness

namespace CommandShell.Grammar

namespace Nesting

/-! ## The gauge of the scan -/

/-- The depth of the scan, and whether the last character was a dollar sign. -/
structure Gauge where
  depth : Nat
  dollar : Bool

namespace Gauge

/-- Where the scan starts. -/
def start : Gauge := ⟨0, false⟩

/-- How a character moves the gauge. -/
def step (g : Gauge) (c : Char) : Gauge :=
  if c = '(' then ⟨if g.dollar = true ∨ 0 < g.depth then g.depth + 1 else g.depth, false⟩
  else if c = ')' then ⟨g.depth - 1, false⟩
  else ⟨g.depth, c == '$'⟩

/-- The gauge behind a text. -/
def after (g : Gauge) (u : List Char) : Gauge := u.foldl step g

/-- The greatest depth along a text. -/
def peak : Gauge → List Char → Nat
  | g, [] => g.depth
  | g, c :: u => max g.depth ((g.step c).peak u)

theorem after_append (g : Gauge) (u v : List Char) : g.after (u ++ v) = (g.after u).after v :=
  List.foldl_append

theorem depth_le_peak (g : Gauge) (u : List Char) : g.depth ≤ g.peak u := by
  cases u with
  | nil => exact le_refl _
  | cons c u => exact le_max_left _ _

theorem peak_append (g : Gauge) (u v : List Char) :
    g.peak (u ++ v) = max (g.peak u) ((g.after u).peak v) := by
  induction u generalizing g with
  | nil =>
    show g.peak v = max g.depth (g.peak v)
    exact (max_eq_right (g.depth_le_peak v)).symm
  | cons c u ih =>
    show max g.depth ((g.step c).peak (u ++ v)) = _
    rw [ih, ← max_assoc]
    rfl

theorem after_depth_le_peak (g : Gauge) (u : List Char) : (g.after u).depth ≤ g.peak u := by
  have hpeak := g.peak_append u []
  rw [List.append_nil] at hpeak
  rw [hpeak]
  exact le_max_right _ _

theorem peak_le_peak_append (g : Gauge) (u v : List Char) : g.peak u ≤ g.peak (u ++ v) := by
  rw [peak_append]
  exact le_max_left _ _

theorem after_peak_le_peak_append (g : Gauge) (u v : List Char) :
    (g.after u).peak v ≤ g.peak (u ++ v) := by
  rw [peak_append]
  exact le_max_right _ _

theorem step_open {d : Nat} : (⟨d, true⟩ : Gauge).step '(' = ⟨d + 1, false⟩ := by
  simp [step]

theorem step_close (g : Gauge) : g.step ')' = ⟨g.depth - 1, false⟩ := by
  simp [step]

theorem peak_substitution (d : Nat) (u : List Char) :
    (⟨d, false⟩ : Gauge).peak ('$' :: '(' :: u) = max d ((⟨d + 1, false⟩ : Gauge).peak u) := by
  show max d (max d (((⟨d, true⟩ : Gauge).step '(').peak u)) = _
  rw [step_open, ← max_assoc, max_self]

theorem peak_paren_inside {d : Nat} (hd : 0 < d) (u : List Char) :
    (⟨d, false⟩ : Gauge).peak ('(' :: u) = max d ((⟨d + 1, false⟩ : Gauge).peak u) := by
  simp [peak, step, hd]

theorem peak_paren_outside (u : List Char) :
    (⟨0, false⟩ : Gauge).peak ('(' :: u) = (⟨0, false⟩ : Gauge).peak u := by
  simp [peak, step]

theorem peak_close (d : Nat) (u : List Char) :
    (⟨d, false⟩ : Gauge).peak (')' :: u) = max d ((⟨d - 1, false⟩ : Gauge).peak u) := by
  simp [peak, step]

theorem step_depth_of_ne (g : Gauge) {c : Char} (hopen : c ≠ '(') (hclose : c ≠ ')') :
    (g.step c).depth = g.depth := by
  simp [step, hopen, hclose]

/-- A dollar sign matters only to an opening right behind it. -/
theorem peak_dollar (d : Nat) {u : List Char} (hu : Avoids (· == '(') u) :
    (⟨d, true⟩ : Gauge).peak u = (⟨d, false⟩ : Gauge).peak u := by
  cases u with
  | nil => rfl
  | cons c u =>
    have hc : c ≠ '(' := by
      have hc := avoids_cons.mp hu
      rwa [beq_eq_false_iff_ne] at hc
    have hstep : (⟨d, true⟩ : Gauge).step c = (⟨d, false⟩ : Gauge).step c := by
      simp [step, hc]
    show max d (((⟨d, true⟩ : Gauge).step c).peak u) = max d (((⟨d, false⟩ : Gauge).step c).peak u)
    rw [hstep]

end Gauge

theorem scan_eq_none_iff (limit depth : Nat) (p : Text.Position) (text : List Char)
    (hdepth : depth ≤ limit) :
    scan limit depth p text = none ↔ (⟨depth, false⟩ : Gauge).peak text ≤ limit := by
  -- the scan takes `$(` in one step and the gauge in two, with the dollar sign in between
  fun_induction scan limit depth p text with
  | case1 depth p => exact iff_of_true rfl hdepth
  | case2 depth p rest hlt ih =>
    rw [ih hlt, Gauge.peak_substitution]
    omega
  | case3 depth p rest hlt =>
    have hpeak := Gauge.depth_le_peak ⟨depth + 1, false⟩ rest
    rw [Gauge.peak_substitution]
    simp only [reduceCtorEq, false_iff] at hpeak ⊢
    omega
  | case4 p rest ih =>
    rw [ih hdepth, Gauge.peak_paren_outside]
  | case5 depth p rest hpos hlt ih =>
    rw [ih hlt, Gauge.peak_paren_inside (Nat.pos_of_ne_zero hpos)]
    omega
  | case6 depth p rest hpos hlt =>
    have hpeak := Gauge.depth_le_peak ⟨depth + 1, false⟩ rest
    rw [Gauge.peak_paren_inside (Nat.pos_of_ne_zero hpos)]
    simp only [reduceCtorEq, false_iff] at hpeak ⊢
    omega
  | case7 depth p rest ih =>
    rw [ih (by omega), Gauge.peak_close]
    omega
  | case8 depth p c rest hdollar hopen hclose ih =>
    -- a dollar sign that opens nothing is forgotten
    have hrest : (⟨depth, c == '$'⟩ : Gauge).peak rest = (⟨depth, false⟩ : Gauge).peak rest := by
      by_cases hc : c = '$'
      · rw [beq_iff_eq.mpr hc]
        refine Gauge.peak_dollar depth ?_
        intro d hd
        rw [beq_eq_false_iff_ne]
        rintro rfl
        obtain ⟨more, hmore⟩ := List.head?_eq_some_iff.mp hd
        exact hdollar more hc hmore
      · rw [beq_eq_false_iff_ne.mpr hc]
    have hstep : (⟨depth, false⟩ : Gauge).step c = ⟨depth, c == '$'⟩ := by
      rw [Gauge.step, if_neg hopen, if_neg hclose]
    rw [ih hdepth, Gauge.peak, hstep, hrest]
    have hpeak := Gauge.depth_le_peak ⟨depth, false⟩ rest
    omega

/-- A text is admitted when its peak is within the limit. -/
theorem firstExcess_eq_none_iff (limit : Nat) (source : List Char) :
    firstExcess limit source = none ↔ Gauge.start.peak source ≤ limit :=
  scan_eq_none_iff limit 0 .start source (Nat.zero_le limit)

/-! ## Texts that do not lower the gauge -/

/-- A string that, inside a substitution, does not lower the gauge. -/
def Keeps (w : List Char) : Prop := ∀ d, 0 < d → d ≤ ((⟨d, false⟩ : Gauge).after w).depth

/-- A string that does not lower the gauge, or could not stand between quotes. -/
def Harmless (w : String) : Prop := '"' ∉ w.toList → Keeps w.toList

/-- A text that leaves the gauge where it is or above, and takes it at least the given number of
levels up on the way. -/
structure Climbs (g : Gauge) (u : List Char) (n : Nat) : Prop where
  keeps : g.depth ≤ (g.after u).depth
  reaches : g.depth + n ≤ g.peak u

theorem Climbs.append {g : Gauge} {u v : List Char} {m n : Nat} (hu : Climbs g u m)
    (hv : Climbs (g.after u) v n) : Climbs g (u ++ v) (max m n) := by
  obtain ⟨hkeeps, hreaches⟩ := hu
  obtain ⟨hkeeps', hreaches'⟩ := hv
  constructor
  · rw [Gauge.after_append]
    omega
  · rw [Gauge.peak_append]
    omega

/-- A text without parentheses. -/
def Flat (u : List Char) : Prop := ∀ c ∈ u, c ≠ '(' ∧ c ≠ ')'

instance : DecidablePred Flat := fun u => List.decidableBAll (fun c => c ≠ '(' ∧ c ≠ ')') u

theorem Flat.append {u v : List Char} (hu : Flat u) (hv : Flat v) : Flat (u ++ v) := by
  intro c hc
  rcases List.mem_append.mp hc with hc | hc
  · exact hu c hc
  · exact hv c hc

theorem flat_cons {c : Char} {u : List Char} (hc : c ≠ '(' ∧ c ≠ ')') (hu : Flat u) :
    Flat (c :: u) := by
  intro d hd
  rcases List.mem_cons.mp hd with rfl | hd
  · exact hc
  · exact hu d hd

theorem Flat.after_depth {u : List Char} (hu : Flat u) (g : Gauge) :
    (g.after u).depth = g.depth := by
  induction u generalizing g with
  | nil => rfl
  | cons c u ih =>
    obtain ⟨hopen, hclose⟩ := hu c List.mem_cons_self
    show ((g.step c).after u).depth = g.depth
    rw [ih (fun d hd => hu d (List.mem_cons_of_mem _ hd)), g.step_depth_of_ne hopen hclose]

theorem Flat.peak_eq {u : List Char} (hu : Flat u) (g : Gauge) : g.peak u = g.depth := by
  induction u generalizing g with
  | nil => rfl
  | cons c u ih =>
    obtain ⟨hopen, hclose⟩ := hu c List.mem_cons_self
    show max g.depth ((g.step c).peak u) = g.depth
    rw [ih (fun d hd => hu d (List.mem_cons_of_mem _ hd)), g.step_depth_of_ne hopen hclose]
    exact max_self _

theorem Flat.climbs {u : List Char} (hu : Flat u) (g : Gauge) : Climbs g u 0 :=
  ⟨(hu.after_depth g).ge, g.depth_le_peak u⟩

section Classes

variable {p q : Char → Bool}

theorem flat_of_class (hopen : p '(' = false) (hclose : p ')' = false) {u : List Char}
    (hu : ∀ c ∈ u, p c = true) : Flat u := by
  intro c hc
  exact ⟨ne_of_class (hu c hc) hopen, ne_of_class (hu c hc) hclose⟩

theorem flat_of_run (hfirst : p '(' = false ∧ p ')' = false)
    (hmore : q '(' = false ∧ q ')' = false) {u : List Char} (hu : Run p q u) : Flat u := by
  obtain @⟨c, u, hc, hu⟩ := hu
  have hhead : Flat [c] :=
    flat_of_class hfirst.1 hfirst.2 (fun d hd => by rwa [List.mem_singleton.mp hd])
  exact hhead.append (flat_of_class hmore.1 hmore.2 hu)

end Classes

end Nesting

open Nesting

theorem Blanks.flat {u : List Char} (hu : Blanks u) : Flat u := flat_of_class rfl rfl hu

theorem NameText.flat {u : List Char} (hu : NameText u) : Flat u :=
  flat_of_run (by decide) (by decide) hu

theorem BareText.flat {u : List Char} (hu : BareText u) : Flat u :=
  flat_of_run (by decide) (by decide) hu

theorem DigitsText.flat {u : List Char} (hu : DigitsText u) : Flat u :=
  flat_of_run (by decide) (by decide) hu

theorem SignText.flat {u : List Char} {negative : Bool} (hu : SignText u negative) : Flat u := by
  cases hu <;> decide

theorem PowerText.flat {u : List Char} (hu : PowerText u) : Flat u := by
  obtain ⟨hmark, hs, hds⟩ := hu
  refine flat_cons ?_ (hs.flat.append hds.flat)
  rcases isPowerMark_iff.mp hmark with rfl | rfl <;> decide

theorem FloatText.flat {u : List Char} (hu : FloatText u) : Flat u := by
  obtain ⟨hs, hwhole, hfraction, hpower⟩ := hu
  refine hs.flat.append (hwhole.flat.append (flat_cons (by decide) (hfraction.flat.append ?_)))
  rcases hpower with rfl | hpower
  · decide
  · exact hpower.flat

/-! ## Inside a substitution -/

theorem climbs_quoted {g : Gauge} {w : List Char} (hg : 0 < g.depth) (hw : Keeps w) :
    Climbs g ('"' :: (w ++ ['"'])) 0 := by
  refine ⟨?_, g.depth_le_peak _⟩
  have hlast : Flat ['"'] := by decide
  show g.depth ≤ (Gauge.after ⟨g.depth, false⟩ (w ++ ['"'])).depth
  rw [Gauge.after_append, hlast.after_depth]
  exact hw g.depth hg

/-- A substitution opens a level and closes it again. -/
theorem climbs_substitution (g : Gauge) {a u b : List Char} {n : Nat} (ha : Blanks a)
    (hb : Blanks b) (hu : ∀ g : Gauge, 0 < g.depth → Climbs g u n) :
    Climbs g ('$' :: '(' :: (a ++ u ++ b ++ [')'])) (n + 1) := by
  have hopen : (g.step '$').step '(' = ⟨g.depth + 1, false⟩ := Gauge.step_open
  -- inside, the gauge stands above zero whatever it was before: this is where strings matter
  have hinside : Climbs ⟨g.depth + 1, false⟩ (a ++ u ++ b) (max (max 0 n) 0) := by
    refine Climbs.append (Climbs.append (ha.flat.climbs _) (hu _ ?_)) (hb.flat.climbs _)
    rw [ha.flat.after_depth]
    exact Nat.succ_pos _
  obtain ⟨hkeeps, hreaches⟩ := hinside
  constructor
  · show g.depth ≤ (((g.step '$').step '(').after (a ++ u ++ b ++ [')'])).depth
    rw [hopen, Gauge.after_append]
    show g.depth ≤ ((Gauge.after ⟨g.depth + 1, false⟩ (a ++ u ++ b)).step ')').depth
    rw [Gauge.step_close]
    simp only at hkeeps ⊢
    omega
  · show g.depth + (n + 1) ≤
      max g.depth (max (g.step '$').depth (((g.step '$').step '(').peak (a ++ u ++ b ++ [')'])))
    rw [hopen, Gauge.peak_append]
    simp only at hreaches
    omega

mutual

/-- Inside a substitution the gauge keeps its level along a body and climbs as high as the body
nests, provided that the strings do not lower it. -/
theorem BodyText.climbs {u : List Char} {b : Body} :
    BodyText u b → (∀ w ∈ b.strings, Harmless w) → ∀ g : Gauge, 0 < g.depth →
      Climbs g u b.depth
  | .command hu hv, hstrings, g, hg => by
      have hwords := hv.climbs hstrings (g.after _) (by rwa [hu.flat.after_depth])
      simpa [Body.depth] using (hu.flat.climbs g).append hwords
  | .expr hu _, hstrings, g, hg => by
      rw [Body.depth]
      exact hu.climbs hstrings g hg

theorem WordsText.climbs {v : List Char} {words : List Argument} :
    WordsText v words → (∀ w ∈ Argument.stringsOf words, Harmless w) →
      ∀ g : Gauge, 0 < g.depth → Climbs g v (Argument.depthOf words)
  | .nil, _, g, _ => by
      rw [Argument.depthOf]
      exact ⟨le_refl _, le_refl _⟩
  | .cons hb _ hu hv, hstrings, g, hg => by
      rw [Argument.stringsOf] at hstrings
      have hblanks := hb.flat.climbs g
      have hpos : 0 < (g.after _).depth := Nat.lt_of_lt_of_le hg hblanks.keeps
      have hword := hblanks.append
        (hu.climbs (fun w hw => hstrings w (List.mem_append_left _ hw)) _ hpos)
      have hwords := hv.climbs (fun w hw => hstrings w (List.mem_append_right _ hw)) _
        (Nat.lt_of_lt_of_le hg hword.keeps)
      rw [Argument.depthOf]
      simpa using hword.append hwords

theorem WordText.climbs {u : List Char} {a : Argument} :
    WordText u a → (∀ w ∈ a.strings, Harmless w) → ∀ g : Gauge, 0 < g.depth →
      Climbs g u a.depth
  | .long hu, _, g, _ => (flat_cons (by decide) (flat_cons (by decide) hu.flat)).climbs g
  | .short hu, _, g, _ => (flat_cons (by decide) hu.flat).climbs g
  | .expr hu, hstrings, g, hg => by
      rw [Argument.depth]
      exact hu.climbs hstrings g hg

theorem ExprText.climbs {u : List Char} {e : Expr} :
    ExprText u e → (∀ w ∈ e.strings, Harmless w) → ∀ g : Gauge, 0 < g.depth →
      Climbs g u e.depth
  | .substitution ha hu hb, hstrings, g, _ => climbs_substitution g ha hb (hu.climbs hstrings)
  | .quoted hu, hstrings, g, hg => by
      have hkeeps := hstrings _ (List.mem_singleton_self _)
      rw [Harmless, String.toList_ofList] at hkeeps
      exact climbs_quoted hg (hkeeps (fun hquote => by cases hu _ hquote))
  | .braced hu, _, g, _ =>
      (flat_cons (by decide) (flat_cons (by decide) (hu.flat.append (by decide)))).climbs g
  | .named hu, _, g, _ => (flat_cons (by decide) hu.flat).climbs g
  | .bare hu, _, g, _ => hu.flat.climbs g
  | .integer hs hds _, _, g, _ => (hs.flat.append hds.flat).climbs g
  | .float hu _, _, g, _ => hu.flat.climbs g

end

/-! ## Whole texts -/

mutual

/-- The raw strings of a body that lie inside a substitution. -/
def Body.innerStrings : Body → List String
  | .command _ arguments => Argument.innerStringsOf arguments
  | .expr e => e.innerStrings

/-- The raw strings of a list of words that lie inside a substitution. -/
def Argument.innerStringsOf : List Argument → List String
  | [] => []
  | a :: rest => a.innerStrings ++ Argument.innerStringsOf rest

/-- The raw strings of a word that lie inside a substitution. -/
def Argument.innerStrings : Argument → List String
  | .flag _ _ => []
  | .expr e => e.innerStrings

/-- The raw strings of an expression that lie inside a substitution. -/
def Expr.innerStrings : Expr → List String
  | .substitution inner => inner.strings
  | .variable _ | .quoted _ | .bare _ | .integer _ | .float _ => []

end

/-- The gauge climbs to the given level along a text, wherever it starts. -/
def Peaks (u : List Char) (n : Nat) : Prop := ∀ g : Gauge, n ≤ g.peak u

theorem Peaks.append_left {u : List Char} {n : Nat} (hu : Peaks u n) (v : List Char) :
    Peaks (u ++ v) n :=
  fun g => le_trans (hu g) (g.peak_le_peak_append u v)

theorem Peaks.append_right {v : List Char} {n : Nat} (hv : Peaks v n) (u : List Char) :
    Peaks (u ++ v) n :=
  fun g => le_trans (hv (g.after u)) (g.after_peak_le_peak_append u v)

theorem ExprText.peaks {u : List Char} {e : Expr} (h : ExprText u e)
    (hstrings : ∀ w ∈ e.innerStrings, Harmless w) : Peaks u e.depth := by
  intro g
  cases h with
  | substitution ha hu hb =>
    have hreaches := (climbs_substitution g ha hb (hu.climbs hstrings)).reaches
    rw [Expr.depth]
    omega
  | _ => exact Nat.zero_le _

theorem WordText.peaks {u : List Char} {a : Argument} (h : WordText u a)
    (hstrings : ∀ w ∈ a.innerStrings, Harmless w) : Peaks u a.depth := by
  cases h with
  | expr hu => exact hu.peaks hstrings
  | _ => exact fun _ => Nat.zero_le _

theorem WordsText.peaks {v : List Char} {words : List Argument} (h : WordsText v words)
    (hstrings : ∀ w ∈ Argument.innerStringsOf words, Harmless w) :
    Peaks v (Argument.depthOf words) := by
  match h with
  | .nil => exact fun _ => Nat.zero_le _
  | .cons _ _ hu hv =>
    rw [Argument.innerStringsOf] at hstrings
    have hword := hu.peaks (fun w hw => hstrings w (List.mem_append_left _ hw))
    have hwords := hv.peaks (fun w hw => hstrings w (List.mem_append_right _ hw))
    intro g
    rw [Argument.depthOf]
    exact max_le ((hword.append_right _).append_left _ g) (hwords.append_right _ g)

/-- Wherever the gauge stands at the start of a body, it climbs as high as the body nests. -/
theorem BodyText.peaks {u : List Char} {b : Body} (h : BodyText u b)
    (hstrings : ∀ w ∈ b.innerStrings, Harmless w) : Peaks u b.depth := by
  cases h with
  | command _ hv =>
    rw [Body.depth]
    exact (hv.peaks hstrings).append_right _
  | expr hu _ => exact hu.peaks hstrings

theorem StatementText.peaks {follow u : List Char} {s : Statement} (h : StatementText follow u s)
    {b : Body} (hb : b ∈ s.body) (hstrings : ∀ w ∈ b.innerStrings, Harmless w) :
    Peaks u b.depth := by
  obtain ⟨-, hu, -, -, -, -⟩ := h
  cases hu with
  | absent => cases hb
  | present hu =>
    cases hb
    exact ((((hu.peaks hstrings).append_right _).append_left _).append_left _).append_left _

theorem ProgramText.peaks {u : List Char} {t : List Statement} (h : ProgramText u t) :
    ∀ s ∈ t, ∀ b ∈ s.body, (∀ w ∈ b.innerStrings, Harmless w) → Peaks u b.depth := by
  induction h with
  | last hu =>
    intro s hs b hb hstrings
    rw [List.mem_singleton.mp hs] at hb
    exact hu.peaks hb hstrings
  | next hu _ _ ih =>
    intro s hs b hb hstrings
    rcases List.mem_cons.mp hs with rfl | hs
    · exact (hu.peaks hb hstrings).append_left _
    · exact ((ih s hs b hb hstrings).append_right _).append_right _

theorem LoneText.peaks {u : List Char} {b : Body} (h : LoneText u b)
    (hstrings : ∀ w ∈ b.innerStrings, Harmless w) : Peaks u b.depth := by
  obtain ⟨-, hu, -⟩ := h
  exact ((hu.peaks hstrings).append_right _).append_left _

/-! ## Strings that lower the gauge -/

/-- A text inside the given number of substitutions. -/
def nestText : Nat → List Char → List Char
  | 0, u => u
  | n + 1, u => '$' :: '(' :: (nestText n u ++ [')'])

/-- A body inside the given number of substitutions. -/
def nestBody : Nat → Body → Body
  | 0, b => b
  | n + 1, b => .expr (.substitution (nestBody n b))

theorem exprText_nest {u : List Char} {b : Body} (h : BodyText u b) :
    ExprText ('$' :: '(' :: (u ++ [')'])) (.substitution b) := by
  have hexpr := ExprText.substitution blanks_nil h blanks_nil
  rwa [List.nil_append, List.append_nil] at hexpr

theorem bodyText_nest {u : List Char} {b : Body} (h : BodyText u b) (n : Nat) :
    BodyText (nestText n u) (nestBody n b) := by
  induction n with
  | zero => exact h
  | succ n ih => exact .expr (exprText_nest ih) rfl

theorem depth_nestBody (n : Nat) (b : Body) : (nestBody n b).depth = b.depth + n := by
  induction n with
  | zero => rfl
  | succ n ih =>
    show (nestBody n b).depth + 1 = b.depth + (n + 1)
    omega

theorem strings_nestBody (n : Nat) (b : Body) : (nestBody n b).strings = b.strings := by
  induction n with
  | zero => rfl
  | succ n ih => exact ih

theorem peak_nestText {u : List Char} {top : Nat} (n d : Nat)
    (hu : (⟨d + n, false⟩ : Gauge).peak u ≤ top) :
    (⟨d, false⟩ : Gauge).peak (nestText n u) ≤ top := by
  induction n generalizing d with
  | zero => exact hu
  | succ n ih =>
    have hinside := ih (d + 1) (by rwa [show d + 1 + n = d + (n + 1) by omega])
    have hfloor := Gauge.depth_le_peak ⟨d + 1, false⟩ (nestText n u)
    have hceiling := Gauge.after_depth_le_peak ⟨d + 1, false⟩ (nestText n u)
    show (⟨d, false⟩ : Gauge).peak ('$' :: '(' :: (nestText n u ++ [')'])) ≤ top
    rw [Gauge.peak_substitution, Gauge.peak_append]
    show max d (max _ (max _ ((Gauge.step _ ')').depth))) ≤ top
    rw [Gauge.step_close]
    simp only at hfloor ⊢
    omega

/-- A command with a string and, behind it, substitutions one inside the other. -/
def towerText (w : List Char) (n : Nat) : List Char :=
  ['a'] ++ ([' '] ++ ('"' :: (w ++ ['"'])) ++ ([' '] ++ nestText (n + 1) ['a'] ++ []))

/-- The body of such a text. -/
def towerBody (w : List Char) (n : Nat) : Body :=
  .command "a" [.expr (.quoted (String.ofList w)),
    .expr (.substitution (nestBody n (.command "a" [])))]

theorem bodyText_tower {w : List Char} (hw : '"' ∉ w) (n : Nat) :
    BodyText (towerText w n) (towerBody w n) := by
  have hname : NameText ['a'] := .mk rfl (fun c hc => by cases hc)
  have hquoted : ExprText ('"' :: (w ++ ['"'])) (.quoted (String.ofList w)) :=
    .quoted (fun c hc => bne_iff_ne.mpr (fun heq => hw (heq ▸ hc)))
  have hnest := exprText_nest (bodyText_nest (.command hname .nil) n)
  exact .command hname (.cons blanks_space (by decide) (.expr hquoted)
    (.cons blanks_space (by decide) (.expr hnest) .nil))

theorem depth_towerBody (w : List Char) (n : Nat) : (towerBody w n).depth = n + 1 := by
  show max 0 (max ((nestBody n (.command "a" [])).depth + 1) 0) = n + 1
  rw [depth_nestBody]
  show max 0 (max (0 + n + 1) 0) = n + 1
  omega

theorem strings_towerBody (w : List Char) (n : Nat) :
    (towerBody w n).strings = [String.ofList w] := by
  show [String.ofList w] ++ ((nestBody n (.command "a" [])).strings ++ []) = _
  rw [strings_nestBody]
  rfl

/-- The gauge climbs over the string and then from where the string has left it. -/
theorem peak_towerText (w : List Char) (n d : Nat) :
    (⟨d, false⟩ : Gauge).peak (towerText w n) ≤
      max ((⟨d, false⟩ : Gauge).peak w) (((⟨d, false⟩ : Gauge).after w).depth + (n + 1)) := by
  have htext : towerText w n =
      'a' :: ' ' :: '"' :: (w ++ ('"' :: ' ' :: nestText (n + 1) ['a'])) := by
    simp [towerText]
  generalize hend : (⟨d, false⟩ : Gauge).after w = g
  have hnest : (⟨g.depth, false⟩ : Gauge).peak (nestText (n + 1) ['a']) ≤ g.depth + (n + 1) :=
    peak_nestText (n + 1) g.depth (max_le (le_refl _) (le_refl _))
  have hstring := Gauge.depth_le_peak ⟨d, false⟩ w
  rw [htext]
  show max d (max d (max d ((⟨d, false⟩ : Gauge).peak (w ++ _)))) ≤ _
  rw [Gauge.peak_append, hend]
  show max d (max d (max d (max _ (max g.depth (max g.depth
    ((⟨g.depth, false⟩ : Gauge).peak (nestText (n + 1) ['a']))))))) ≤ _
  simp only at hstring
  omega

/-- A string that lowers the gauge lets some text through that nests more deeply than the limit:
as many levels as the string was found to lower, and behind it as many as the string itself
reaches. -/
theorem exists_excess {w : List Char} (hquote : '"' ∉ w) (hw : ¬ Keeps w) :
    ∃ u b limit, BodyText u b ∧ b.innerStrings = [String.ofList w] ∧
      Gauge.start.peak u ≤ limit ∧ limit < b.depth := by
  simp only [Keeps, Classical.not_forall, Nat.not_le] at hw
  obtain ⟨d, hd, hlow⟩ := hw
  obtain ⟨k, rfl⟩ : ∃ k, d = k + 1 := ⟨d - 1, by omega⟩
  -- the string may itself climb; the tower behind it is made higher than that
  generalize htop : (⟨k + 1, false⟩ : Gauge).peak w = top at *
  have hbody := bodyText_tower hquote top
  refine ⟨nestText (k + 1) (towerText w top), nestBody (k + 1) (towerBody w top),
    ((⟨k + 1, false⟩ : Gauge).after w).depth + (top + 1), bodyText_nest hbody (k + 1), ?_, ?_, ?_⟩
  · show (nestBody k (towerBody w top)).strings = _
    rw [strings_nestBody, strings_towerBody]
  · refine peak_nestText (k + 1) 0 ?_
    have hpeak := peak_towerText w top (k + 1)
    rw [htop] at hpeak
    rw [Nat.zero_add]
    omega
  · rw [depth_nestBody, depth_towerBody]
    omega

end CommandShell.Grammar

namespace CommandShell.Reader

open Grammar Grammar.Nesting

/-- The rules that a text can be read by. -/
inductive StartRule where
  | program
  | expression

/-- Whether a body stands in the tree that a reader returns for a text. -/
def Returns (r : Reader) : StartRule → String → Body → Prop
  | .program, source, b => ∃ t, r.programTree source = .ok t ∧ ∃ s ∈ t, b ∈ s.body
  | .expression, source, b => r.expressionTree source = .ok b

theorem Returns.peak_le {r : Reader} {rule : StartRule} {source : String} {b : Body}
    (h : r.Returns rule source b) : Gauge.start.peak source.toList ≤ r.maxNesting := by
  rw [← firstExcess_eq_none_iff]
  cases rule with
  | program =>
    obtain ⟨t, ht, -⟩ := h
    exact (programTree_eq_ok_iff.mp ht).1
  | expression => exact (expressionTree_eq_ok_iff.mp h).1

/-- What a text is read as depends on the limit only in whether the text is admitted. -/
theorem Returns.of_peak_le {r r' : Reader} {rule : StartRule} {source : String} {b : Body}
    (h : r.Returns rule source b) (hpeak : Gauge.start.peak source.toList ≤ r'.maxNesting) :
    r'.Returns rule source b := by
  have hscan := (firstExcess_eq_none_iff _ _).mpr hpeak
  cases rule with
  | program =>
    obtain ⟨t, ht, hb⟩ := h
    exact ⟨t, programTree_eq_ok_iff.mpr ⟨hscan, (programTree_eq_ok_iff.mp ht).2⟩, hb⟩
  | expression => exact expressionTree_eq_ok_iff.mpr ⟨hscan, (expressionTree_eq_ok_iff.mp h).2⟩

theorem Returns.peaks {r : Reader} {rule : StartRule} {source : String} {b : Body}
    (h : r.Returns rule source b) (hstrings : ∀ w ∈ b.innerStrings, Harmless w) :
    Peaks source.toList b.depth := by
  cases rule with
  | program =>
    obtain ⟨t, ht, s, hs, hb⟩ := h
    exact (programTree_eq_ok_iff.mp ht).2.peaks s hs b hb hstrings
  | expression => exact (expressionTree_eq_ok_iff.mp h).2.peaks hstrings

theorem returns_of_bodyText {u : List Char} {b : Body} (hu : BodyText u b) {limit : Nat}
    (hpeak : Gauge.start.peak u ≤ limit) (rule : StartRule) :
    ({ maxNesting := limit } : Reader).Returns rule (String.ofList u) b := by
  have hscan := (firstExcess_eq_none_iff _ _).mpr hpeak
  cases rule with
  | program =>
    refine ⟨[⟨some b, none⟩], programTree_eq_ok_iff.mpr ?_, _, List.mem_singleton_self _, rfl⟩
    rw [String.toList_ofList]
    exact ⟨hscan, hu.programText⟩
  | expression =>
    refine expressionTree_eq_ok_iff.mpr ?_
    rw [String.toList_ofList]
    refine ⟨hscan, ?_⟩
    simpa using LoneText.mk blanks_nil hu blanks_nil

/-- The limit holds for every reader and every text exactly when no string inside a substitution
lowers the gauge; and it holds for one text, under every limit that admits it, exactly when the
gauge of the text climbs as high as the tree is deep. -/
theorem depth_le_maxNesting_iff (rule : StartRule) :
    (∀ W : String → Prop,
      (∀ r source b, Returns r rule source b → (∀ w ∈ b.innerStrings, W w) →
        b.depth ≤ r.maxNesting) ↔
      ∀ w, W w → '"' ∉ w.toList → Keeps w.toList) ∧
    (∀ source b,
      (∀ r, Returns r rule source b → b.depth ≤ r.maxNesting) ↔
      ((∃ r, Returns r rule source b) → b.depth ≤ Gauge.start.peak source.toList)) := by
  constructor
  · intro W
    constructor
    · intro hall w hw hquote
      by_contra hkeeps
      obtain ⟨u, b, limit, hu, hstrings, hpeak, hdepth⟩ := exists_excess hquote hkeeps
      have hbound := hall _ _ b (returns_of_bodyText hu hpeak rule) (by simp [hstrings, hw])
      exact absurd hbound (Nat.not_le.mpr hdepth)
    · intro hW r source b hb hstrings
      exact le_trans (hb.peaks (fun w hw => hW w (hstrings w hw)) _) hb.peak_le
  · intro source b
    constructor
    · rintro hall ⟨r, hb⟩
      exact hall { maxNesting := Gauge.start.peak source.toList } (hb.of_peak_le (le_refl _))
    · intro hbound r hb
      exact le_trans (hbound ⟨r, hb⟩) hb.peak_le

/-- A parenthesis in a string closes the level around it: two levels pass a limit of one. -/
theorem depth_exceeds_maxNesting :
    ∃ b, Returns { maxNesting := 1 } .program "$(a \")\" $(a))" b ∧
      ¬ b.depth ≤ ({ maxNesting := 1 } : Reader).maxNesting := by
  refine ⟨.expr (.substitution (.command "a" [.expr (.quoted ")"),
    .expr (.substitution (.command "a" []))])), ⟨_, rfl, _, List.mem_singleton_self _, ?_⟩, ?_⟩
  · rfl
  · decide

end CommandShell.Reader
