/-
# CommandShell.Proofs.Session.Streams -- sessions whose streams never fail

A stream that never fails never stops a session: every outcome is shown, with the errors that led to
it before it, and a text that is run answers with the code of a request to leave. What a run leaves
is then said without the cases of a failure, in one operation, `settle`, that shows what is still to
be shown.
-/
import CommandShell.Proofs.Evaluation.Handling
import CommandShell.Session

namespace CommandShell

/-! ## Streams that refuse nothing -/

/-- A writer that takes every line. -/
def Writer.Reliable (w : Writer) : Prop := ∀ n, w.refusal n = none

theorem Writer.Reliable.offer {w : Writer} (h : w.Reliable) (line : String) :
    w.offer line =
      (.ok (), { w with written := w.written ++ line ++ "\n", offered := w.offered + 1 }) := by
  simp only [Writer.offer, h w.offered]

theorem Writer.Reliable.offerAll {w : Writer} (h : w.Reliable) (lines : List String) :
    ∃ next, w.offerAll lines = (.ok (), next) ∧ next.Reliable ∧ next.jam = w.jam := by
  induction lines generalizing w with
  | nil => exact ⟨w, rfl, h, rfl⟩
  | cons line rest ih =>
    simp only [Writer.offerAll, h.offer line]
    apply ih
    exact h

namespace Streams

/-- Streams that take every line, and pass the values on. -/
structure Reliable (s : Streams) : Prop where
  out : s.out.Reliable
  err : s.err.Reliable
  passes : ∀ n, s.out.jam n = none

variable {s : Streams}

theorem Reliable.offerOut (h : s.Reliable) (lines : List String) :
    ∃ next, s.offerOut lines = (.ok (), next) ∧ next.Reliable := by
  obtain ⟨out, hout, hreliable, hjam⟩ := h.out.offerAll lines
  refine ⟨{ s with out := out }, ?_, hreliable, h.err, hjam ▸ h.passes⟩
  simp only [Streams.offerOut, hout]

theorem Reliable.offerErr (h : s.Reliable) (lines : List String) :
    ∃ next, s.offerErr lines = (.ok (), next) ∧ next.Reliable := by
  obtain ⟨err, herr, hreliable, -⟩ := h.err.offerAll lines
  refine ⟨{ s with err := err }, ?_, h.out, hreliable, h.passes⟩
  simp only [Streams.offerErr, herr]

theorem Reliable.flush_out (h : s.Reliable) : s.out.flush = .ok () := by
  simp only [Writer.flush, h.passes]

end Streams

/-! ## Showing outcomes -/

namespace Progress

/-- Nothing was refused and nothing will be. -/
structure Unhindered (p : Progress) : Prop where
  reliable : p.streams.Reliable
  refused : p.refused = none

variable {p : Progress}

theorem Unhindered.showEvents (h : p.Unhindered) (trace : Event → List String)
    (events : List Event) :
    (p.showEvents trace events).Unhindered := by
  obtain ⟨next, hoffer, hreliable⟩ := h.reliable.offerErr (events.flatMap trace)
  simp only [Progress.showEvents, hoffer]
  exact ⟨hreliable, h.refused⟩

theorem Unhindered.showErrors (h : p.Unhindered) (errors : List Error) :
    (p.showErrors errors).Unhindered ∧ (p.showErrors errors).code = p.code := by
  obtain ⟨next, hoffer, hreliable⟩ := h.reliable.offerErr (errors.map Error.report)
  simp only [Progress.showErrors, hoffer, after]
  exact ⟨⟨hreliable, h.refused⟩, trivial⟩

/-- Only a request to leave is kept. -/
theorem Unhindered.showOutcome (h : p.Unhindered) (o : Outcome) :
    (p.showOutcome o).Unhindered ∧
      (p.showOutcome o).code = match o with
        | .exited code => some code
        | _ => p.code := by
  cases o with
  | value v =>
    obtain ⟨next, hoffer, hreliable⟩ := h.reliable.offerOut v.lines
    simp only [Progress.showOutcome, hoffer, after]
    exact ⟨⟨hreliable, h.refused⟩, trivial⟩
  | failed e =>
    obtain ⟨next, hoffer, hreliable⟩ := h.reliable.offerErr [e.report]
    simp only [Progress.showOutcome, hoffer, after]
    exact ⟨⟨hreliable, h.refused⟩, trivial⟩
  | exited code => exact ⟨⟨h.reliable, h.refused⟩, rfl⟩

end Progress

open Progress

section Settling

variable {trace : Event → List String} {s : Progress × Context Builtin}

/-- Shows what happened and what waits to be reported. -/
def settle (trace : Event → List String) (s : Progress × Context Builtin) :
    Progress × Context Builtin :=
  drainDiagnostics (drainJournal trace s)

theorem settle_unhindered (trace : Event → List String) (h : s.1.Unhindered) :
    (settle trace s).1.Unhindered ∧ (settle trace s).1.code = s.1.code :=
  (h.showEvents trace _).showErrors _

/-- An outcome is shown after what led to it. -/
theorem present_eq_settle (h : s.1.Unhindered) (o : Outcome) :
    present trace o s = ((settle trace s).1.showOutcome o, (settle trace s).2) := by
  have hshown : (drainJournal trace s).1.refused = none := (h.showEvents trace s.2.log).refused
  have hsettled : (drainDiagnostics (drainJournal trace s)).1.refused = none :=
    (settle_unhindered trace h).1.refused
  simp only [present, hshown, hsettled]
  rfl

theorem present_unhindered (trace : Event → List String) (h : s.1.Unhindered) (o : Outcome) :
    (present trace o s).1.Unhindered ∧
      (present trace o s).1.code = match o with
        | .exited code => some code
        | _ => s.1.code := by
  obtain ⟨hsettled, hcode⟩ := settle_unhindered trace h
  rw [present_eq_settle h, ← hcode]
  exact hsettled.showOutcome o

theorem present_context (h : s.1.Unhindered) (o : Outcome) :
    (present trace o s).2 = s.2.clearJournal.clearDiagnostics := by
  rw [present_eq_settle h]
  rfl

end Settling

/-! ## Running a text -/

namespace Session

/-- The answer and the session after a run that nothing hindered. -/
def closing (trace : Event → List String) (s : Progress × Context Builtin) :
    Except Trouble (Option Int32) × Session :=
  (.ok (settle trace s).1.code, ⟨(settle trace s).2, (settle trace s).1.streams⟩)

variable {around : Surroundings} {s : Session}

/-- What evaluation keeps of a context, if only up to what is shown with an outcome, a run keeps
that nothing hinders. -/
theorem unhindered_invariant (trace : Event → List String)
    (evaluate : Node → Action Builtin (Flow Value)) {P : Context Builtin → Prop}
    (hnote : ∀ c e, P c → P (c.note e)) (hcleared : ∀ c, P c → P c.clearJournal.clearDiagnostics)
    (hevaluated : ∀ n c, P c → P (evaluate n c).2.clearJournal.clearDiagnostics) :
    RunInvariant evaluate (present trace) (fun s => s.1.Unhindered ∧ P s.2) := by
  have hpresent : ∀ (s : Progress × Context Builtin) (o : Outcome), s.1.Unhindered →
      P s.2.clearJournal.clearDiagnostics →
      (present trace o s).1.Unhindered ∧ P (present trace o s).2 := by
    intro s o hs hP
    rw [present_context hs]
    exact ⟨(present_unhindered trace hs o).1, hP⟩
  exact
    { note := fun e h => ⟨h.1, hnote _ e h.2⟩
      handled := fun o h => hpresent _ o h.1 (hcleared _ h.2)
      evaluated := fun n o h => hpresent _ o h.1 (hevaluated n _ h.2)
      failed := fun n _ h => hpresent _ _ h.1 (hevaluated n _ h.2) }

/-- A text is run through to its end if the streams never fail. -/
theorem evaluate_eq_closing (h : s.streams.Reliable) (source : String) :
    evaluate around source s = closing around.trace
      (s.context.interpreter.evaluateEach (Builtin.commandSet around.files) (present around.trace)
        source ({ streams := s.streams }, s.context)) := by
  have hran : (s.context.interpreter.evaluateEach (Builtin.commandSet around.files)
      (present around.trace) source ({ streams := s.streams }, s.context)).1.Unhindered := by
    have hinvariant := unhindered_invariant around.trace
      (s.context.interpreter.evaluateNode (Builtin.commandSet around.files) s.context)
      (P := fun _ => True) (fun _ _ h => h) (fun _ h => h) (fun _ _ h => h)
    exact (hinvariant.runText _ source ⟨⟨h, rfl⟩, trivial⟩).1
  simp only [evaluate]
  generalize s.context.interpreter.evaluateEach _ _ source _ = ran at hran
  have hshown : (drainJournal around.trace ran).1.refused = none :=
    (hran.showEvents around.trace ran.2.log).refused
  have hsettled : (settle around.trace ran).1.Unhindered := (settle_unhindered around.trace hran).1
  unfold settle at hsettled
  simp only [hshown, hsettled.refused, hsettled.reliable.flush_out]
  rfl

/-- Where the streams never fail, the run of a text is no trouble. -/
theorem run_ok (around : Surroundings) (h : s.streams.Reliable) (source : String) :
    ∃ code t, run around source s = (.ok code, t) := by
  unfold run
  split
  · exact ⟨none, s, rfl⟩
  · split
    · obtain ⟨streams, hoffer, hreliable⟩ := h.offerOut [source]
      simp only [hoffer]
      exact ⟨_, _, evaluate_eq_closing (s := s.withStreams streams) hreliable source⟩
    · exact ⟨_, _, evaluate_eq_closing h source⟩

end Session

end CommandShell
