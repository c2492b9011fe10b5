/-
# CommandShell.Proofs.Program.Joining -- two programs with a line break between them

The grammar reads two programs with a line break between them as the statements of the first and
then those of the second: nothing in the first takes the line break, and no comment or string of it
reaches the second. The scan for nesting is the only thing that looks across the line break. It
knows nothing of comments and strings, so the first text may leave levels open that the grammar
never entered, and the second is then scanned as if it stood inside them.

`Reader.program_join_iff` says exactly when this keeps the two from being read together.
-/
import CommandShell.Proofs.Grammar.Lines

namespace CommandShell

open Grammar Grammar.Nesting

/-! ## Levels that a text leaves open -/

namespace Grammar.Nesting

/-- How many levels the scan still counts as open behind a text. -/
def openLevels (u : List Char) : Nat := (Gauge.start.after u).depth

/-- The peak of a text that is scanned with the given number of levels open. -/
def peakInside (levels : Nat) (u : List Char) : Nat := (⟨levels, false⟩ : Gauge).peak u

/-- Behind a line break the scan goes on with the levels that are open. -/
theorem peak_join (u v : List Char) :
    Gauge.start.peak (u ++ '\n' :: v) =
      max (Gauge.start.peak u) (peakInside (openLevels u) v) := by
  have hbreak : (Gauge.start.after u).peak ('\n' :: v) =
      max (openLevels u) (peakInside (openLevels u) v) := by
    simp [Gauge.peak, Gauge.step, peakInside, openLevels]
  have hopen : openLevels u ≤ Gauge.start.peak u := Gauge.start.after_depth_le_peak u
  rw [Gauge.peak_append, hbreak]
  omega

theorem firstExcess_join_iff {limit : Nat} {u v : List Char}
    (hu : firstExcess limit u = none) :
    firstExcess limit (u ++ '\n' :: v) = none ↔ peakInside (openLevels u) v ≤ limit := by
  rw [firstExcess_eq_none_iff] at hu ⊢
  rw [peak_join]
  omega

/-- Substitutions one inside the other climb as high as there are of them, on top of the levels that
are open. -/
theorem peakInside_nest {levels : Nat} (hlevels : 0 < levels) (n : Nat) :
    levels + n ≤ peakInside levels (nestText n ['a']) := by
  have hname : NameText ['a'] := .mk rfl (fun c hc => by cases hc)
  have hstrings : ∀ w ∈ (nestBody n (.command "a" [])).strings, Harmless w := by
    rw [strings_nestBody]
    intro w hw
    cases hw
  have hclimbs := (bodyText_nest (.command hname .nil) n).climbs hstrings ⟨levels, false⟩ hlevels
  have hreaches := hclimbs.reaches
  rw [depth_nestBody] at hreaches
  simpa [peakInside, Body.depth, Argument.depthOf] using hreaches

end Grammar.Nesting

namespace Reader

variable {r : Reader} {s₁ s₂ : String} {p₁ p₂ : Program}

/-! ## Reading two texts together -/

theorem toList_join (s₁ s₂ : String) :
    (s₁ ++ "\n" ++ s₂).toList = s₁.toList ++ '\n' :: s₂.toList := by
  simp [String.toList_append]

theorem firstExcess_of_program {source : String} {p : Program} (h : r.program source = .ok p) :
    firstExcess r.maxNesting source.toList = none := by
  obtain ⟨t, ht, -⟩ := program_eq_ok_iff.mp h
  exact (programTree_eq_ok_iff.mp ht).1

theorem program_of_excess {source : String} {place : Text.Position}
    (h : firstExcess r.maxNesting source.toList = some place) :
    r.program source = .error (.tooDeep place r.maxNesting) := by
  unfold program programTree match?
  rw [h]
  rfl

/-- The grammar and the nodes compose: only the scan can stand in the way. -/
theorem program_join (h₁ : r.program s₁ = .ok p₁) (h₂ : r.program s₂ = .ok p₂)
    (hscan : firstExcess r.maxNesting (s₁ ++ "\n" ++ s₂).toList = none) :
    r.program (s₁ ++ "\n" ++ s₂) = .ok ⟨p₁.statements ++ p₂.statements⟩ := by
  obtain ⟨t₁, ht₁, hnodes₁⟩ := program_eq_ok_iff.mp h₁
  obtain ⟨t₂, ht₂, hnodes₂⟩ := program_eq_ok_iff.mp h₂
  have htext := (programTree_eq_ok_iff.mp ht₁).2.append_line .lineFeed
    (programTree_eq_ok_iff.mp ht₂).2
  apply program_eq_ok_iff.mpr
  refine ⟨t₁ ++ t₂, programTree_eq_ok_iff.mpr ⟨hscan, ?_⟩, statementNodes_append hnodes₁ hnodes₂⟩
  rw [toList_join]
  exact htext

/-! ## Texts that nest as deeply as they may -/

theorem nodeOf_nestBody (readString : String → Except ReadError Node) (n : Nat) :
    nodeOf readString (nestBody n (.command "a" [])) = .ok (.command "a" [] []) := by
  induction n with
  | zero => rfl
  | succ n ih => simpa [nestBody, nodeOf, exprNode] using ih

/-- Substitutions up to the limit, one inside the other, can be read. -/
theorem program_nestText (r : Reader) :
    r.program (String.ofList (nestText r.maxNesting ['a'])) = .ok ⟨[.command "a" [] []]⟩ := by
  have hname : NameText ['a'] := .mk rfl (fun c hc => by cases hc)
  have hpeak : Gauge.start.peak (nestText r.maxNesting ['a']) ≤ r.maxNesting := by
    apply peak_nestText r.maxNesting 0
    simp [Gauge.peak, Gauge.step]
  have hbody := bodyText_nest (.command hname .nil) r.maxNesting
  apply program_eq_ok_iff.mpr
  refine ⟨[⟨some (nestBody r.maxNesting (.command "a" [])), none⟩], ?_, ?_⟩
  · rw [programTree_eq_ok_iff, String.toList_ofList, firstExcess_eq_none_iff]
    exact ⟨hpeak, hbody.programText⟩
  · rw [statementNodes, nodeOf_nestBody]
    rfl

/-- A text that leaves levels open keeps some other text from being read behind it. -/
theorem exists_program_join_ne (h₁ : r.program s₁ = .ok p₁) (hopen : 0 < openLevels s₁.toList) :
    ∃ s₂ p₂, r.program s₂ = .ok p₂ ∧
      r.program (s₁ ++ "\n" ++ s₂) ≠ .ok ⟨p₁.statements ++ p₂.statements⟩ := by
  refine ⟨_, _, program_nestText r, fun hjoin => ?_⟩
  have hscan := firstExcess_of_program hjoin
  rw [toList_join, firstExcess_join_iff (firstExcess_of_program h₁), String.toList_ofList] at hscan
  have hclimb := peakInside_nest hopen r.maxNesting
  omega

/-- Two texts that can be read by themselves are read together, as their statements one after the
other, exactly when the second keeps to the limit inside the levels that the first leaves open to
the scan; otherwise they are refused for their nesting and for nothing else. A text goes together
with all others exactly when it leaves no level open. -/
theorem program_join_iff (r : Reader) {s₁ : String} {p₁ : Program} (h₁ : r.program s₁ = .ok p₁) :
    (∀ s₂ p₂, r.program s₂ = .ok p₂ →
      (r.program (s₁ ++ "\n" ++ s₂) = .ok ⟨p₁.statements ++ p₂.statements⟩ ↔
        peakInside (openLevels s₁.toList) s₂.toList ≤ r.maxNesting) ∧
      (r.maxNesting < peakInside (openLevels s₁.toList) s₂.toList →
        ∃ place, r.program (s₁ ++ "\n" ++ s₂) = .error (.tooDeep place r.maxNesting))) ∧
    ((∀ s₂ p₂, r.program s₂ = .ok p₂ →
        r.program (s₁ ++ "\n" ++ s₂) = .ok ⟨p₁.statements ++ p₂.statements⟩) ↔
      openLevels s₁.toList = 0) := by
  have hseam : ∀ s₂ : String, firstExcess r.maxNesting (s₁ ++ "\n" ++ s₂).toList = none ↔
      peakInside (openLevels s₁.toList) s₂.toList ≤ r.maxNesting := by
    intro s₂
    rw [toList_join]
    exact firstExcess_join_iff (firstExcess_of_program h₁)
  refine ⟨fun s₂ p₂ h₂ => ⟨⟨fun hjoin => ?_, fun hpeak => ?_⟩, fun hpeak => ?_⟩, ⟨?_, ?_⟩⟩
  · exact (hseam s₂).mp (firstExcess_of_program hjoin)
  · exact program_join h₁ h₂ ((hseam s₂).mpr hpeak)
  · cases hscan : firstExcess r.maxNesting (s₁ ++ "\n" ++ s₂).toList with
    | none =>
      have hwithin := (hseam s₂).mp hscan
      omega
    | some place => exact ⟨place, program_of_excess hscan⟩
  · intro hall
    by_contra hopen
    obtain ⟨s₂, p₂, h₂, hne⟩ := exists_program_join_ne h₁ (Nat.pos_of_ne_zero hopen)
    exact hne (hall s₂ p₂ h₂)
  · intro hclosed s₂ p₂ h₂
    apply program_join h₁ h₂
    rw [hseam, hclosed]
    exact (firstExcess_eq_none_iff _ _).mp (firstExcess_of_program h₂)

/-- With one level to spare, an opening in a comment does no harm to the line behind it. -/
theorem program_join_spare :
    ({ maxNesting := 2 } : Reader).program "# $(" = .ok ⟨[]⟩ ∧
    ({ maxNesting := 2 } : Reader).program "echo $(a)" =
      .ok ⟨[.command "echo" [.command "a" [] []] []]⟩ ∧
    ({ maxNesting := 2 } : Reader).program ("# $(" ++ "\n" ++ "echo $(a)") =
      .ok ⟨[.command "echo" [.command "a" [] []] []]⟩ := by
  have h₁ : ({ maxNesting := 2 } : Reader).program "# $(" = .ok ⟨[]⟩ :=
    program_eq_ok_iff.mpr ⟨[⟨none, some " $("⟩], rfl, rfl⟩
  have h₂ : ({ maxNesting := 2 } : Reader).program "echo $(a)" =
      .ok ⟨[.command "echo" [.command "a" [] []] []]⟩ :=
    program_eq_ok_iff.mpr
      ⟨[⟨some (.command "echo" [.expr (.substitution (.command "a" []))]), none⟩], rfl, rfl⟩
  exact ⟨h₁, h₂, (((program_join_iff _ h₁).1 _ _ h₂).1).mpr (by decide)⟩

/-- Without it, the opening in the comment has the line behind it refused. -/
theorem program_join_refused :
    ({ maxNesting := 1 } : Reader).program "# $(" = .ok ⟨[]⟩ ∧
    ({ maxNesting := 1 } : Reader).program "echo $(a)" =
      .ok ⟨[.command "echo" [.command "a" [] []] []]⟩ ∧
    ({ maxNesting := 1 } : Reader).program ("# $(" ++ "\n" ++ "echo $(a)") =
      .error (.tooDeep ⟨2, 6⟩ 1) := by
  refine ⟨?_, ?_, ?_⟩
  · exact program_eq_ok_iff.mpr ⟨[⟨none, some " $("⟩], rfl, rfl⟩
  · exact program_eq_ok_iff.mpr
      ⟨[⟨some (.command "echo" [.expr (.substitution (.command "a" []))]), none⟩], rfl, rfl⟩
  · apply program_of_excess
    decide

end Reader

end CommandShell
