/-
# CommandShell.Proofs.Evaluation.Handling -- running programs for any handler

The statements of a text run one after the other, and each outcome goes to a handler, which may
change the context before the next statement. Two things are said here of such runs, whatever the
handler does. A property that holds again each time an outcome was handled holds at the end. And
where neither evaluation nor the handler looks at the journal, a text whose lines can be read runs
as the statements of its lines, whichever way it is read.
-/
import CommandShell.Proofs.Evaluation.LineByLine

namespace CommandShell

open Step

variable {κ σ : Type} {reader : Reader} {evaluate : Node → Action κ (Flow Value)}
  {handle : Handler κ σ}

/-! ## What a run keeps -/

/-- A property that holds again after each outcome, and that notes do not touch. A statement that
fails is noted before its outcome is handled. -/
structure RunInvariant (evaluate : Node → Action κ (Flow Value)) (handle : Handler κ σ)
    (I : σ × Context κ → Prop) : Prop where
  note {acc : σ} {c : Context κ} (e : Event) : I (acc, c) → I (acc, c.note e)
  handled {s : σ × Context κ} (o : Outcome) : I s → I (handle o s)
  evaluated {acc : σ} {c : Context κ} (n : Node) (o : Outcome) : I (acc, c) →
    I (handle o (acc, (evaluate n c).2))
  failed {acc : σ} {c : Context κ} (n : Node) (e : Error) : I (acc, c) →
    I (handle (.failed e) (acc, (evaluate n c).2.note (.statementFailed e)))

namespace RunInvariant

variable {I : σ × Context κ → Prop} (hI : RunInvariant evaluate handle I)

include hI

theorem runStatements (ns : List Node) {s : σ × Context κ} (hs : I s) :
    I (runStatements evaluate handle ns s).2 := by
  induction ns generalizing s with
  | nil =>
    rw [CommandShell.runStatements]
    exact hs
  | cons n rest ih =>
    obtain ⟨acc, c⟩ := s
    have hvalue := fun o => hI.evaluated n o hs
    have hfail := fun e => hI.failed n e hs
    rw [CommandShell.runStatements]
    rcases hresult : evaluate n c with ⟨e | ⟨v⟩ | ⟨code⟩, next⟩ <;> rw [hresult] at hvalue hfail
    · exact ih (hfail e)
    · exact ih (hvalue (.value v))
    · exact hvalue (.exited code)

theorem runLines (reader : Reader) (lines : List String) {s : σ × Context κ} (hs : I s) :
    I (runLines reader evaluate handle lines s) := by
  induction lines generalizing s with
  | nil =>
    rw [CommandShell.runLines]
    exact hs
  | cons line rest ih =>
    obtain ⟨acc, c⟩ := s
    have hnoted := hI.note (.reading reader line) hs
    rw [CommandShell.runLines]
    cases reader.program line with
    | error e => exact ih (hI.handled _ hnoted)
    | ok p =>
      have hran := hI.runStatements p.statements hnoted
      rcases hrun : CommandShell.runStatements evaluate handle p.statements
        (acc, c.note (.reading reader line)) with ⟨_ | _, after⟩ <;> rw [hrun] at hran
      · simpa only [hrun] using ih hran
      · simpa only [hrun] using hran

/-- What each statement keeps, the run of a text keeps. -/
theorem runText (reader : Reader) (source : String) {s : σ × Context κ} (hs : I s) :
    I (runText reader evaluate handle source s) := by
  have hnoted := hI.note (.reading reader source) hs
  unfold CommandShell.runText
  cases reader.program source with
  | ok p => exact hI.runStatements p.statements hnoted
  | error e =>
    have hreported := hI.note (.unreadable e) hnoted
    simp only
    split
    · exact hI.runLines reader _ hreported
    · exact hI.handled _ hreported

end RunInvariant

/-- Settings that are there anyway, and stay, need not be put back. -/
theorem Interpreter.installed_of_kept {i : Interpreter} {body : σ × Context κ → σ × Context κ}
    {s : σ × Context κ} (hs : s.2.interpreter = i) (h : (body s).2.interpreter = i) :
    i.installed body s = body s := by
  obtain ⟨acc, c⟩ := s
  subst hs
  show ((body (acc, c)).1, { (body (acc, c)).2 with interpreter := c.interpreter }) = body (acc, c)
  rw [← h]

/-! ## Runs that do not look at the journal -/

/-- The same was gathered, and the contexts differ in their journals at most. -/
def Alike (s t : σ × Context κ) : Prop := s.1 = t.1 ∧ s.2.clearJournal = t.2.clearJournal

namespace Alike

theorem refl (s : σ × Context κ) : Alike s s := ⟨rfl, rfl⟩

theorem trans {s t u : σ × Context κ} (h : Alike s t) (h' : Alike t u) : Alike s u :=
  ⟨h.1.trans h'.1, h.2.trans h'.2⟩

theorem note (acc : σ) (c : Context κ) (e : Event) : Alike (acc, c.note e) (acc, c) := ⟨rfl, rfl⟩

end Alike

/-- A handler that does not look at the journal. -/
def Handler.Blind (handle : Handler κ σ) : Prop :=
  ∀ o s t, Alike s t → Alike (handle o s) (handle o t)

section Blind

variable (hevaluate : ∀ n, Logs Any (evaluate n)) (hhandle : handle.Blind)

include hevaluate hhandle

/-- Statements run alike from states that are alike. -/
theorem runStatements_alike (ns : List Node) {s t : σ × Context κ} (h : Alike s t) :
    (runStatements evaluate handle ns s).1 = (runStatements evaluate handle ns t).1 ∧
      Alike (runStatements evaluate handle ns s).2 (runStatements evaluate handle ns t).2 := by
  induction ns generalizing s t with
  | nil =>
    rw [runStatements, runStatements]
    exact ⟨rfl, h⟩
  | cons n rest ih =>
    obtain ⟨acc, c⟩ := s
    obtain ⟨_, d⟩ := t
    obtain ⟨rfl, hcontext⟩ := h
    obtain ⟨hresult, hnext⟩ := (hevaluate n).blind hcontext
    rw [runStatements, runStatements]
    rcases hc : evaluate n c with ⟨r, next⟩
    rcases hd : evaluate n d with ⟨r', next'⟩
    rw [hc, hd] at hresult hnext
    obtain rfl : r = r' := hresult
    rcases r with e | ⟨v⟩ | ⟨code⟩
    · exact ih (hhandle _ _ _ ⟨rfl, hnext⟩)
    · exact ih (hhandle _ _ _ ⟨rfl, hnext⟩)
    · exact ⟨rfl, hhandle _ _ _ ⟨rfl, hnext⟩⟩

omit hevaluate hhandle in
/-- Statements that follow others run from where those end, unless these ask to leave. -/
theorem runStatements_append (ns ms : List Node) (s : σ × Context κ) :
    runStatements evaluate handle (ns ++ ms) s =
      match runStatements evaluate handle ns s with
      | (true, after) => (true, after)
      | (false, after) => runStatements evaluate handle ms after := by
  induction ns generalizing s with
  | nil =>
    rw [runStatements]
    rfl
  | cons n rest ih =>
    obtain ⟨acc, c⟩ := s
    rw [List.cons_append, runStatements, runStatements]
    rcases evaluate n c with ⟨e | ⟨v⟩ | ⟨code⟩, next⟩
    · exact ih _
    · exact ih _
    · rfl

/-- A text that can be read runs as its statements. -/
theorem runText_of_program {source : String} {p : Program} (h : reader.program source = .ok p)
    (s : σ × Context κ) : Alike (runText reader evaluate handle source s)
      (runStatements evaluate handle p.statements s).2 := by
  simp only [runText, h]
  exact (runStatements_alike hevaluate hhandle _ (Alike.note s.1 s.2 _)).2

/-- Lines that can be read run as their statements. -/
theorem runLines_of_lines {lines : List String}
    (hlines : ∀ line ∈ lines, ∃ p, reader.program line = .ok p) (s : σ × Context κ) :
    Alike (runLines reader evaluate handle lines s)
      (runStatements evaluate handle (lines.flatMap reader.statements) s).2 := by
  induction lines generalizing s with
  | nil =>
    rw [runLines, List.flatMap_nil, runStatements]
    exact Alike.refl s
  | cons line rest ih =>
    obtain ⟨acc, c⟩ := s
    obtain ⟨p, hp⟩ := hlines line List.mem_cons_self
    have hrest := ih (fun l hl => hlines l (List.mem_cons_of_mem _ hl))
    rw [runLines, List.flatMap_cons, Reader.statements_eq hp, runStatements_append]
    simp only [hp]
    have hnoted := runStatements_alike hevaluate hhandle p.statements
      (Alike.note acc c (.reading reader line))
    rcases hrun : runStatements evaluate handle p.statements
      (acc, c.note (.reading reader line)) with ⟨exits, after⟩
    rcases hrun' : runStatements evaluate handle p.statements (acc, c) with ⟨exits', after'⟩
    rw [hrun, hrun'] at hnoted
    obtain ⟨rfl, halike⟩ : exits = exits' ∧ Alike after after' := hnoted
    cases exits with
    | true => exact halike
    | false =>
      exact (hrest after).trans (runStatements_alike hevaluate hhandle _ halike).2

/-- A text whose lines can be read runs as the statements of its lines, as a whole or line by
line. -/
theorem runText_of_lines {source : String}
    (hlines : ∀ line ∈ Text.lines source, ∃ p, reader.program line = .ok p) (s : σ × Context κ) :
    Alike (runText reader evaluate handle source s)
      (runStatements evaluate handle ((Text.lines source).flatMap reader.statements) s).2 := by
  rcases reader.program_of_lines hlines with hprogram | ⟨e, herror, hbreaks⟩
  · exact runText_of_program hevaluate hhandle hprogram s
  · simp only [runText, herror, if_pos hbreaks]
    refine (runLines_of_lines hevaluate hhandle hlines _).trans ?_
    exact (runStatements_alike hevaluate hhandle _
      ((Alike.note s.1 _ _).trans (Alike.note s.1 s.2 _))).2

end Blind

end CommandShell
