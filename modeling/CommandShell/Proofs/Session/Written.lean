/-
# CommandShell.Proofs.Session.Written -- what a session writes follows from the outcomes

While a text runs, a session writes: values to one stream, errors to the other, each outcome as soon
as it is known. Here it is shown that all of this, and the answer of the session, can be read off
the outcomes that evaluating the text has, each with the errors reported on the way to it. The run
of the session and the evaluation that gathers these are followed side by side (`Shown`); they
differ in what they keep, not in what they evaluate.
-/
import CommandShell.Proofs.Evaluation.Streaming
import CommandShell.Proofs.Session.Drivers

namespace CommandShell

open Step

/-! ## What is written -/

/-- Lines as they stand in a stream, each with its end. -/
def Writer.ended (lines : List String) : String := String.join (lines.map (· ++ "\n"))

theorem Writer.ended_append (ls ms : List String) : ended (ls ++ ms) = ended ls ++ ended ms := by
  rw [ended, List.map_append, String.join_append]
  rfl

/-- A writer that takes every line has all of them at the end. -/
theorem Writer.Reliable.written_offerAll {w : Writer} (h : w.Reliable) (lines : List String) :
    (w.offerAll lines).2.written = w.written ++ ended lines := by
  induction lines generalizing w with
  | nil => exact String.append_empty.symm
  | cons line rest ih =>
    have hnext : Writer.Reliable
        { w with written := w.written ++ line ++ "\n", offered := w.offered + 1 } := h
    simp only [Writer.offerAll, h.offer line]
    rw [ih hnext]
    simp [ended, String.append_assoc]

namespace Outcome

/-- The lines that an outcome has on the stream for values. -/
def valueLines : Outcome → List String
  | .value v => v.lines
  | _ => []

/-- The lines that an outcome has on the stream for errors. -/
def errorLines : Outcome → List String
  | .failed e => [e.report]
  | _ => []

end Outcome

/-- The lines on the stream for values: those of the values, in order. -/
def linesOut (told : List (Outcome × List Error)) : List String :=
  told.flatMap (fun t => t.1.valueLines)

/-- The lines on the stream for errors: outcome by outcome those of the errors reported on the way,
and then that of a failure. -/
def linesErr (told : List (Outcome × List Error)) : List String :=
  told.flatMap (fun t => t.2.map Error.report ++ t.1.errorLines)

/-- The code of a request to leave that comes last. -/
def lastCode? (told : List (Outcome × List Error)) : Option Int32 :=
  told.getLast?.bind (fun t => t.1.code?)

/-! ## Showing outcomes -/

namespace Progress

/-- What has been written. -/
structure Wrote (p q : Progress) (out err : List String) : Prop where
  out : q.streams.out.written = p.streams.out.written ++ Writer.ended out
  err : q.streams.err.written = p.streams.err.written ++ Writer.ended err

theorem Wrote.trans {p q r : Progress} {out err more further : List String}
    (h : Wrote p q out err) (h' : Wrote q r more further) :
    Wrote p r (out ++ more) (err ++ further) := by
  refine ⟨?_, ?_⟩
  · rw [h'.out, h.out, Writer.ended_append, String.append_assoc]
  · rw [h'.err, h.err, Writer.ended_append, String.append_assoc]

variable {p : Progress}

/-- Where nothing is refused, showing lines just adds them. -/
theorem Unhindered.wrote_err (h : p.Unhindered) (lines : List String) :
    Wrote p (p.after (p.streams.offerErr lines)) [] lines := by
  obtain ⟨next, hoffer, -⟩ := h.reliable.err.offerAll lines
  have hwritten := h.reliable.err.written_offerAll lines
  rw [hoffer] at hwritten
  simp only [after, Streams.offerErr, hoffer]
  exact ⟨String.append_empty.symm, hwritten⟩

theorem Unhindered.wrote_out (h : p.Unhindered) (lines : List String) :
    Wrote p (p.after (p.streams.offerOut lines)) lines [] := by
  obtain ⟨next, hoffer, -⟩ := h.reliable.out.offerAll lines
  have hwritten := h.reliable.out.written_offerAll lines
  rw [hoffer] at hwritten
  simp only [after, Streams.offerOut, hoffer]
  exact ⟨hwritten, String.append_empty.symm⟩

theorem Unhindered.wrote_outcome (h : p.Unhindered) (o : Outcome) :
    Wrote p (p.showOutcome o) o.valueLines o.errorLines := by
  cases o with
  | value v => exact h.wrote_out v.lines
  | failed e => exact h.wrote_err [e.report]
  | exited code => exact ⟨String.append_empty.symm, String.append_empty.symm⟩

end Progress

/-- The errors reported on the way are written first, and then the outcome. -/
theorem present_wrote {s : Progress × Context Builtin} (h : s.1.Unhindered) (o : Outcome) :
    s.1.Wrote (present unseen o s).1 o.valueLines
      (s.2.diagnostics.map Error.report ++ o.errorLines) := by
  have hsettled : settle unseen s = (s.1.showErrors s.2.diagnostics,
      s.2.clearJournal.clearDiagnostics) := by
    rw [settle, drainJournal_unseen]
    rfl
  rw [present_eq_settle h, hsettled]
  exact (h.wrote_err _).trans ((h.showErrors _).1.wrote_outcome o)

/-! ## A run and its outcomes side by side -/

namespace Session

/-- The run of a session shows what was told: the lines are written, the code is that of the last
outcome, and the contexts differ in their journals at most. -/
structure Shown (s : Session) (request : Option Int32) (st : Progress × Context Builtin)
    (t : List (Outcome × List Error) × Context Builtin) : Prop where
  unhindered : st.1.Unhindered
  wrote : Progress.Wrote { streams := s.streams } st.1 (linesOut t.1) (linesErr t.1)
  code : st.1.code = request
  last : lastCode? t.1 = request
  context : st.2.clearJournal = t.2.clearJournal

/-- Statement by statement, the run of a session shows what is told. -/
theorem inStep_shown (s : Session) {evaluate : Node → Action Builtin (Flow Value)}
    (h : ∀ n, Logs Any (evaluate n)) : InStep evaluate (present unseen) tell s.Shown where
  note _ hs := { hs with }
  evaluated n hs := by
    obtain ⟨hresult, hnext⟩ := (h n).blind hs.context
    exact ⟨hresult, { hs with context := hnext }⟩
  handled {st t} o hs := by
    have hdiagnostics : st.2.clearJournal.diagnostics = t.2.clearJournal.diagnostics := by
      rw [hs.context]
    change st.2.diagnostics = t.2.diagnostics at hdiagnostics
    obtain ⟨hunhindered, hcode⟩ := present_unhindered unseen hs.unhindered o
    refine ⟨hunhindered, ?_, ?_, ?_, ?_⟩
    · have hwrote := hs.wrote.trans (present_wrote hs.unhindered o)
      rw [hdiagnostics] at hwrote
      simpa [tell, linesOut, linesErr] using hwrote
    · rw [hcode, hs.code]
      cases o <;> rfl
    · simp [tell, lastCode?]
    · rw [present_context hs.unhindered]
      exact congrArg Context.clearDiagnostics hs.context

/-- The outcomes of a text, each with the errors reported on the way to it, as the session's own
settings evaluate it, and the context behind them. -/
def telling (around : Surroundings) (source : String) (s : Session) :
    List (Outcome × List Error) × Context Builtin :=
  s.context.interpreter.evaluateEach (Builtin.commandSet around.files) tell source ([], s.context)

/-- A session from which a run can start shows all that is told. -/
theorem evaluate_shown (around : Surroundings) (source : String) {s : Session}
    (hs : s.Continues s.start) : ∃ request st, s.Shown request st (s.telling around source) ∧
      evaluate around.untraced source s = (.ok st.1.code, resumed st) := by
  have hran := (continues_invariant around s).runText s.context.interpreter.reader source hs
  have hstart : s.Shown none s.start ([], s.context) :=
    ⟨hs.1, ⟨String.append_empty.symm, String.append_empty.symm⟩, rfl, rfl, rfl⟩
  obtain ⟨request, hshown⟩ := (inStep_shown s (s.logs_evaluator around)).runText
    s.context.interpreter.reader source hstart
  -- both runs leave the settings as they are, so nothing has to be put back
  have htelling : s.telling around source = runText s.context.interpreter.reader
      (s.evaluator around) tell source ([], s.context) := by
    have hkept := congrArg Context.interpreter hshown.context
    exact Interpreter.installed_of_kept rfl (hkept.symm.trans hran.2.interpreter)
  rw [← htelling] at hshown
  refine ⟨request, _, hshown, ?_⟩
  rw [← closing_of_continues hran]
  exact evaluate_of_alike around hs (Alike.refl _)

/-- What a session writes for a text, and what it answers, follows from the outcomes of the text,
each with the errors reported on the way to it. The values are written one after the other; the
errors outcome by outcome, the failure last; the answer is the code of the last outcome if that is a
request to leave; and the context is left as by the evaluation, with nothing left for report. -/
theorem run_writes (around : Surroundings) (source : String) (s : Session)
    (hdiagnostics : s.context.diagnostics = []) (hecho : s.echoes = false)
    (hsource : Text.isAllBlank source = false) (hstreams : s.streams.Reliable) :
    ∃ told t, told = (s.telling around source).1 ∧
      told.map Prod.fst = (s.context.interpreter.evaluate (Builtin.commandSet around.files) source
        s.context).1 ∧
      told.flatMap Prod.snd = (s.context.interpreter.evaluate (Builtin.commandSet around.files)
        source s.context).2.diagnostics ∧
      run around.untraced source s = (.ok (lastCode? told), t) ∧
      t.streams.out.written = s.streams.out.written ++ Writer.ended (linesOut told) ∧
      t.streams.err.written = s.streams.err.written ++ Writer.ended (linesErr told) ∧
      t.context = (s.context.interpreter.evaluate (Builtin.commandSet around.files) source
        s.context).2.clearDiagnostics.clearJournal := by
  have hset := Builtin.keeps_adds around.files
  obtain ⟨houtcomes, herrors, hcontext⟩ :=
    (Interpreter.retold_evaluate hset s.context.interpreter source s.context).taken
      (Interpreter.diagnostics_evaluateEach_tell _ source hdiagnostics)
  obtain ⟨request, st, hshown, hrun⟩ :=
    evaluate_shown around source (continues_start hdiagnostics hstreams)
  refine ⟨_, resumed st, rfl, houtcomes, herrors, ?_, hshown.wrote.out, hshown.wrote.err, ?_⟩
  · rw [run_of_shown hsource hecho, hrun, hshown.code, hshown.last]
  · rw [← hcontext]
    exact hshown.context

/-- In a new session, three lines with a value, a line that cannot be read and a request to leave:
the blank between two missing values is written to the one stream, and four errors to the other. -/
theorem run_writes_reportingText :
    ((new {} "/").context.diagnostics = [] ∧ (new {} "/").echoes = false ∧
      Text.isAllBlank Interpreter.reportingText = false ∧ (new {} "/").streams.Reliable) ∧
    ∃ told t, told.map Prod.fst = (Interpreter.evaluate {} (Builtin.commandSet .empty)
        Interpreter.reportingText (new {} "/").context).1 ∧
      linesOut told = [" "] ∧ (linesErr told).length = 4 ∧ lastCode? told = some 3 ∧
      run ⟨.empty, [], unseen⟩ Interpreter.reportingText (new {} "/") = (.ok (lastCode? told), t) ∧
      t.streams.out.written = Writer.ended (linesOut told) ∧
      t.streams.err.written = Writer.ended (linesErr told) := by
  have hecho : (new {} "/").echoes = false := by decide +kernel
  have hsource : Text.isAllBlank Interpreter.reportingText = false := by decide +kernel
  have hstreams : (new {} "/").streams.Reliable := ⟨fun _ => rfl, fun _ => rfl, fun _ => rfl⟩
  obtain ⟨told, t, htold, houtcomes, -, hrun, hout, herr, -⟩ :=
    run_writes ⟨.empty, [], unseen⟩ Interpreter.reportingText (new {} "/") rfl hecho hsource
      hstreams
  refine ⟨⟨rfl, hecho, hsource, hstreams⟩, told, t, houtcomes, ?_, ?_, ?_, hrun, ?_, ?_⟩
  · rw [htold]
    decide +kernel
  · rw [htold]
    decide +kernel
  · rw [htold]
    decide +kernel
  · rw [hout]
    exact String.empty_append
  · rw [herr]
    exact String.empty_append

end Session

end CommandShell
