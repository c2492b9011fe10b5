/-
# CommandShell.Proofs.Session.Refusals -- streams that refuse lines, and what is computed

A stream may refuse any line, at any time. From then on nothing more of the run is shown, and the
errors that are reported later stay with the context; but the statements go on as before. What a
session shows and what it computes meet in the handler of outcomes alone, and that touches nothing
of a context but its records: the journal and the errors left for report (`KeepsToRecords`). As
evaluation in turn does not look at the records, two runs with different streams stay in step, and
so does the evaluation that only gathers its outcomes and writes nothing.
-/
import CommandShell.Proofs.Session.Written

namespace CommandShell

open Step

variable {κ σ ρ τ : Type}

/-! ## Equal up to the records -/

/-- The contexts differ in their records at most. -/
def Context.Matches (c d : Context κ) : Prop := ∃ j es, d = c.withRecords j es

namespace Context.Matches

variable {c d e : Context κ}

theorem refl (c : Context κ) : c.Matches c := ⟨c.journal, c.diagnostics, rfl⟩

theorem symm (h : c.Matches d) : d.Matches c := by
  obtain ⟨j, es, rfl⟩ := h
  exact ⟨c.journal, c.diagnostics, rfl⟩

theorem trans (h : c.Matches d) (h' : d.Matches e) : c.Matches e := by
  obtain ⟨j, es, rfl⟩ := h
  obtain ⟨k, fs, rfl⟩ := h'
  exact ⟨k, fs, rfl⟩

theorem note (h : c.Matches d) (e : Event) : (c.note e).Matches (d.note e) := by
  obtain ⟨j, es, rfl⟩ := h
  exact ⟨e :: j, es, rfl⟩

theorem under (h : c.Matches d) (i : Interpreter) : (c.under i).Matches (d.under i) := by
  obtain ⟨j, es, rfl⟩ := h
  exact ⟨j, es, rfl⟩

end Context.Matches

/-- A step that neither sees nor touches what was recorded before it goes the same way in contexts
that differ in their records. -/
theorem Step.matches_of_adds {x : Step κ τ} (hlogs : Logs Any x) (hadds : Adds x)
    {c d : Context κ} (h : c.Matches d) : (x c).1 = (x d).1 ∧ (x c).2.Matches (x d).2 := by
  obtain ⟨j, es, rfl⟩ := h
  -- the errors are set aside, and then it is the journals alone in which the contexts differ
  have hpending := hadds c.diagnostics c.clearDiagnostics
  have hpending' := hadds es (c.withRecords j [])
  have hjournal : c.clearDiagnostics.clearJournal = (c.withRecords j []).clearJournal := rfl
  obtain ⟨hresult, hcontext⟩ := hlogs.blind hjournal
  have hleft : (x (c.withRecords j [])).2 =
      (x c.clearDiagnostics).2.withJournal (x (c.withRecords j [])).2.journal :=
    Context.eq_withJournal hcontext
  have hrecords : (c.withRecords j []).withEarlier es = c.withRecords j es := by
    show { c with journal := j, diagnostics := es ++ [] } = _
    rw [List.append_nil]
    rfl
  rw [Context.withEarlier_clearDiagnostics] at hpending
  rw [hrecords] at hpending'
  rw [hpending, hpending', hleft]
  exact ⟨hresult, _, _, rfl⟩

/-! ## Handlers that touch the records alone -/

/-- Whatever the handler does with an outcome, of the context it changes the records at most. -/
def Handler.KeepsToRecords (handle : Handler κ σ) : Prop :=
  ∀ (o : Outcome) (s : σ × Context κ), s.2.Matches (handle o s).2

theorem keepsToRecords_collect : (collect : Handler κ (List Outcome)).KeepsToRecords :=
  fun _ s => .refl s.2

theorem matches_drainJournal (trace : Event → List String) (s : Progress × Context Builtin) :
    s.2.Matches (drainJournal trace s).2 :=
  ⟨[], s.2.diagnostics, rfl⟩

theorem matches_drainDiagnostics (s : Progress × Context Builtin) :
    s.2.Matches (drainDiagnostics s).2 :=
  ⟨s.2.journal, [], rfl⟩

/-- Showing an outcome, or leaving it unshown because of a refusal. -/
theorem keepsToRecords_present (trace : Event → List String) :
    (present trace).KeepsToRecords := by
  intro o s
  have hshown := matches_drainJournal trace s
  have hsettled := hshown.trans (matches_drainDiagnostics (drainJournal trace s))
  simp only [present]
  split
  · exact hshown
  · split
    · exact hsettled
    · exact hsettled

/-- Runs whose handlers touch the records alone stay in step, whatever each of them gathers. -/
theorem inStep_matches {evaluate : Node → Action κ (Flow Value)} {handle : Handler κ σ}
    {other : Handler κ ρ} (hlogs : ∀ n, Logs Any (evaluate n)) (hadds : ∀ n, Adds (evaluate n))
    (hhandle : handle.KeepsToRecords) (hother : other.KeepsToRecords) :
    InStep evaluate handle other (fun _ s t => s.2.Matches t.2) where
  note e h := h.note e
  evaluated n h := matches_of_adds (hlogs n) (hadds n) h
  handled o h := ((hhandle o _).symm.trans h).trans (hother o _)

namespace Session

/-! ## Runs -/

/-- However much of it was shown, the run of a text leaves what evaluating the text leaves. -/
theorem matches_evaluate (around : Surroundings) (source : String) (s : Session) :
    (s.context.interpreter.evaluate (Builtin.commandSet around.files) source s.context).2.Matches
      (evaluate around source s).2.context := by
  have hlogs := (Builtin.logging_commandSet around.files).logs_evaluateNode s.context.interpreter
    s.context
  have hadds := congruent_adds.evaluateNode (Builtin.keeps_adds around.files)
    s.context.interpreter s.context
  obtain ⟨-, hrun⟩ := (inStep_matches hlogs hadds keepsToRecords_collect
    (keepsToRecords_present around.trace)).runText s.context.interpreter.reader source
    (s := ([], s.context)) (t := ({ streams := s.streams }, s.context)) (.refl s.context)
  have hran := hrun.under s.context.interpreter
  have hshown := hran.trans (matches_drainJournal around.trace
    (s.context.interpreter.evaluateEach (Builtin.commandSet around.files) (present around.trace)
      source ({ streams := s.streams }, s.context)))
  have hsettled := hshown.trans (matches_drainDiagnostics _)
  unfold evaluate
  simp only
  split
  · exact hshown
  · split
    · exact hsettled
    · split
      · exact hsettled
      · exact hsettled

/-- What is computed does not depend on what can be written. If input is not repeated before it is
evaluated, then for any two pairs of streams, whenever these fail, a text leaves the same variables,
options, commands, working directory, depth and settings: the contexts differ in the journal and in
the errors left for report at most, and so they do from the context that evaluating the text leaves
when nothing is written at all. -/
theorem run_whatever_refused (around : Surroundings) (source : String) (s : Session)
    (hecho : s.echoes = false) (a b : Streams) :
    (∃ j es, (run around source (s.withStreams b)).2.context =
      (run around source (s.withStreams a)).2.context.withRecords j es) ∧
    (Text.isAllBlank source = false → ∃ j es, (run around source (s.withStreams a)).2.context =
      (s.context.interpreter.evaluate (Builtin.commandSet around.files) source
        s.context).2.withRecords j es) := by
  have hechoes : ∀ streams, (s.withStreams streams).echoes = false := fun _ => hecho
  cases hblank : Text.isAllBlank source with
  | true =>
    refine ⟨?_, fun h => by cases h⟩
    simp only [run, hblank]
    exact Context.Matches.refl s.context
  | false =>
    have hrun : ∀ streams, run around source (s.withStreams streams) =
        evaluate around source (s.withStreams streams) := by
      intro streams
      simp only [run, hblank, hechoes streams]
      rfl
    rw [hrun, hrun]
    have ha := matches_evaluate around source (s.withStreams a)
    have hb := matches_evaluate around source (s.withStreams b)
    exact ⟨ha.symm.trans hb, fun _ => ha⟩

/-- A value, a variable that is set behind it, an error that is reported behind both, and a request
to leave. -/
def storingText : String := "echo a\nset x 1\necho $(unheard)\nexit 3"

/-- The first stream takes nothing, so the first value already is refused, and the error that is
reported later is left; with the other streams it is written, and the request to leave answered. -/
theorem run_whatever_refused_storingText :
    (new {} "/").echoes = false ∧ Text.isAllBlank storingText = false ∧
    (run ⟨.empty, [], unseen⟩ storingText ((new {} "/").withStreams ⟨.closed "gone", {}⟩)).1 =
      .error (.stream "gone") ∧
    (run ⟨.empty, [], unseen⟩ storingText
      ((new {} "/").withStreams ⟨.closed "gone", {}⟩)).2.context.diagnostics =
        [.unknownCommand "unheard"] ∧
    (run ⟨.empty, [], unseen⟩ storingText ((new {} "/").withStreams {})).1 = .ok (some 3) ∧
    (run ⟨.empty, [], unseen⟩ storingText
      ((new {} "/").withStreams {})).2.context.diagnostics = [] ∧
    (∃ j es, (run ⟨.empty, [], unseen⟩ storingText ((new {} "/").withStreams {})).2.context =
      (run ⟨.empty, [], unseen⟩ storingText
        ((new {} "/").withStreams ⟨.closed "gone", {}⟩)).2.context.withRecords j es) ∧
    ((run ⟨.empty, [], unseen⟩ storingText
      ((new {} "/").withStreams ⟨.closed "gone", {}⟩)).2.context.valueOf? "x").map Value.text =
        some "1" := by
  have hecho : (new {} "/").echoes = false := by decide +kernel
  have hsource : Text.isAllBlank storingText = false := by decide +kernel
  obtain ⟨hsame, -⟩ := run_whatever_refused ⟨.empty, [], unseen⟩ storingText (new {} "/") hecho
    ⟨.closed "gone", {}⟩ {}
  exact ⟨hecho, hsource, by decide +kernel, by decide +kernel, by decide +kernel, by decide +kernel,
    hsame, by decide +kernel⟩

end Session

end CommandShell
