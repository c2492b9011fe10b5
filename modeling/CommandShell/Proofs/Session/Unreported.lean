/-
# CommandShell.Proofs.Session.Unreported -- errors that a run leaves for the next one

Errors that are contained in a statement wait in the context until the outcome of the statement is
shown. Once a stream has refused a line no outcome is shown any more, and the run ends at the
refusal: it takes away the errors of the statement at which that happened, but not those that the
statements behind it reported. Here it is said exactly which errors a run leaves, by following it
side by side with the evaluation that takes every outcome with what led to it (`recount`). What is
shown of that and what is not depends on the streams alone (`unshown`). A run whose values are not
passed on at the end has shown all of it, and leaves nothing.
-/
import CommandShell.Proofs.Session.Written

namespace CommandShell

open Step

/-! ## Outcomes with what led to them -/

/-- An outcome with what led to it: the events and the errors reported on the way. -/
structure Recount where
  events : List Event
  errors : List Error
  outcome : Outcome

/-- Takes each outcome with what led to it, and leaves nothing of it in the context. -/
def recount : Handler Builtin (List Recount) := fun o s =>
  (s.1 ++ [⟨s.2.log, s.2.diagnostics, o⟩], s.2.clearJournal.clearDiagnostics)

/-- Each time an outcome was taken, no error is left for report. -/
theorem runInvariant_recount (evaluate : Node → Action Builtin (Flow Value)) :
    RunInvariant evaluate recount (fun s => s.2.diagnostics = []) where
  note _ hs := hs
  handled _ _ := rfl
  evaluated _ _ _ := rfl
  failed _ _ _ := rfl

/-- The events that are taken too make no difference to the outcomes and their errors. -/
theorem inStep_recount {evaluate : Node → Action Builtin (Flow Value)}
    (h : ∀ n, Logs Any (evaluate n)) : InStep evaluate tell recount (fun _ s t =>
      s.1 = t.1.map (fun a => (a.outcome, a.errors)) ∧ s.2.clearJournal = t.2.clearJournal) where
  note _ hs := hs
  evaluated n hs := by
    obtain ⟨hresult, hnext⟩ := (h n).blind hs.2
    exact ⟨hresult, hs.1, hnext⟩
  handled {s t} o hs := by
    have hdiagnostics : s.2.clearJournal.diagnostics = t.2.clearJournal.diagnostics := by
      rw [hs.2]
    change s.2.diagnostics = t.2.diagnostics at hdiagnostics
    refine ⟨?_, congrArg Context.clearDiagnostics hs.2⟩
    simp [tell, recount, hs.1, hdiagnostics]

/-! ## What streams take -/

namespace Streams

/-- The streams behind an outcome, if they take its lines. -/
def takeOutcome? (s : Streams) : Outcome → Option Streams
  | .exited _ => some s
  | .value v =>
    match s.offerOut v.lines with
    | (.error _, _) => none
    | (.ok (), next) => some next
  | .failed e =>
    match s.offerErr [e.report] with
    | (.error _, _) => none
    | (.ok (), next) => some next

/-- The streams behind an outcome and what led to it, if they take the lines of the errors and then
those of the outcome. The lines that show events come first; it does not matter whether these are
taken. -/
def take? (trace : Event → List String) (s : Streams) (a : Recount) : Option Streams :=
  match (s.offerErr (a.events.flatMap trace)).2.offerErr (a.errors.map Error.report) with
  | (.error _, _) => none
  | (.ok (), next) => next.takeOutcome? a.outcome

/-- The streams behind all outcomes, if they take the lines of each. -/
def takeAll? (trace : Event → List String) : Streams → List Recount → Option Streams
  | s, [] => some s
  | s, a :: rest => (s.take? trace a).bind (takeAll? trace · rest)

/-- The outcomes that are not shown: those behind the first at which a line is refused. -/
def unshown (trace : Event → List String) : Streams → List Recount → List Recount
  | _, [] => []
  | s, a :: rest =>
    match s.take? trace a with
    | some next => unshown trace next rest
    | none => rest

variable {trace : Event → List String}

theorem takeAll?_append (s : Streams) (as bs : List Recount) :
    s.takeAll? trace (as ++ bs) = (s.takeAll? trace as).bind (takeAll? trace · bs) := by
  induction as generalizing s with
  | nil => rfl
  | cons a rest ih =>
    rw [List.cons_append, takeAll?, takeAll?, Option.bind_assoc]
    exact congrArg _ (funext (fun next => ih next))

theorem takeAll?_singleton (s : Streams) (a : Recount) :
    s.takeAll? trace [a] = s.take? trace a :=
  Option.bind_fun_some _

/-- An outcome that comes next is left unshown if a line was refused before it. -/
theorem unshown_snoc (s : Streams) (as : List Recount) (a : Recount) :
    s.unshown trace (as ++ [a]) =
      match s.takeAll? trace as with
      | some _ => []
      | none => s.unshown trace as ++ [a] := by
  induction as generalizing s with
  | nil =>
    simp only [List.nil_append, unshown, takeAll?]
    split <;> rfl
  | cons b rest ih =>
    simp only [List.cons_append, unshown, takeAll?]
    cases s.take? trace b with
    | none => rfl
    | some next => exact ih next

theorem unshown_of_takeAll? {s last : Streams} {as : List Recount}
    (h : s.takeAll? trace as = some last) : s.unshown trace as = [] := by
  induction as generalizing s with
  | nil => rfl
  | cons a rest ih =>
    obtain ⟨next, hnext, hrest⟩ := Option.bind_eq_some_iff.mp h
    rw [unshown, hnext]
    exact ih hrest

theorem unshown_suffix (s : Streams) (as : List Recount) : s.unshown trace as <:+ as := by
  induction as generalizing s with
  | nil => exact List.suffix_refl _
  | cons a rest ih =>
    rw [unshown]
    split
    · next next _ => exact (ih next).trans (List.suffix_cons a rest)
    · exact List.suffix_cons a rest

end Streams

/-! ## A run and its accounts side by side -/

section Presenting

variable (trace : Event → List String) {p : Progress} (c : Context Builtin)

/-- An outcome is refused exactly where the streams do not take it. -/
theorem Progress.showOutcome_take (h : p.refused = none) (o : Outcome) :
    match p.streams.takeOutcome? o with
    | some next => (p.showOutcome o).refused = none ∧ (p.showOutcome o).streams = next
    | none => (p.showOutcome o).refused.isSome = true := by
  cases o with
  | exited code => exact ⟨h, rfl⟩
  | value v =>
    simp only [Streams.takeOutcome?, showOutcome]
    rcases p.streams.offerOut v.lines with ⟨_ | ⟨⟩, next⟩
    · rfl
    · exact ⟨h, rfl⟩
  | failed e =>
    simp only [Streams.takeOutcome?, showOutcome]
    rcases p.streams.offerErr [e.report] with ⟨_ | ⟨⟩, next⟩
    · rfl
    · exact ⟨h, rfl⟩

/-- While no line was refused, the errors that wait are taken away with each outcome, and the next
line is refused exactly where the streams do not take the account. -/
theorem present_recount (h : p.refused = none) (o : Outcome) :
    (present trace o (p, c)).2 = c.clearJournal.clearDiagnostics ∧
      match p.streams.take? trace ⟨c.log, c.diagnostics, o⟩ with
      | some next =>
        (present trace o (p, c)).1.refused = none ∧ (present trace o (p, c)).1.streams = next
      | none => (present trace o (p, c)).1.refused.isSome = true := by
  have hshown : (drainJournal trace (p, c)).1.refused.isSome = false := by
    show p.refused.isSome = false
    rw [h]
    rfl
  have herrors : (drainDiagnostics (drainJournal trace (p, c))).1 =
      (p.showEvents trace c.log).after
        ((p.streams.offerErr (c.log.flatMap trace)).2.offerErr (c.diagnostics.map Error.report)) :=
    rfl
  simp only [present, hshown, Bool.false_eq_true, ↓reduceIte, herrors, Streams.take?]
  rcases (p.streams.offerErr (c.log.flatMap trace)).2.offerErr (c.diagnostics.map Error.report) with
    ⟨_ | ⟨⟩, next⟩
  · exact ⟨rfl, rfl⟩
  · have hopen : ((p.showEvents trace c.log).after (.ok (), next)).refused = none := h
    have hsettled : ((p.showEvents trace c.log).after (.ok (), next)).refused.isSome = false := by
      rw [hopen]
      rfl
    simp only [hsettled, Bool.false_eq_true, ↓reduceIte]
    exact ⟨rfl, Progress.showOutcome_take hopen o⟩

/-- Behind a refusal only the journal is taken away. -/
theorem present_refused (h : p.refused.isSome = true) (o : Outcome) :
    (present trace o (p, c)).2 = c.clearJournal ∧
      (present trace o (p, c)).1.refused = p.refused := by
  have hshown : (drainJournal trace (p, c)).1.refused = p.refused := rfl
  simp only [present, hshown, h]
  exact ⟨rfl, rfl⟩

end Presenting

namespace Session

/-- The run of a session stands where the accounts say. While every line was taken, its context is
theirs; behind a refusal, it has the errors of the outcomes that are not shown in front. -/
inductive Recounted (trace : Event → List String) (streams : Streams) :
    Progress × Context Builtin → List Recount × Context Builtin → Prop
  | shown {p : Progress} {c : Context Builtin} {as : List Recount} :
      p.refused = none → streams.takeAll? trace as = some p.streams →
      Recounted trace streams (p, c) (as, c)
  | refused {p : Progress} {c : Context Builtin} {as : List Recount} :
      p.refused.isSome = true → streams.takeAll? trace as = none →
      Recounted trace streams
        (p, c.withEarlier ((streams.unshown trace as).flatMap Recount.errors)) (as, c)

theorem Recounted.under {trace : Event → List String} {streams : Streams}
    {st : Progress × Context Builtin} {t : List Recount × Context Builtin}
    (h : Recounted trace streams st t) (i : Interpreter) :
    Recounted trace streams (st.1, st.2.under i) (t.1, t.2.under i) := by
  cases h with
  | shown hopen htaken => exact .shown hopen htaken
  | @refused p c as hrefused htaken => exact .refused (c := c.under i) hrefused htaken

section Presented

variable {trace : Event → List String} {streams : Streams} {p : Progress} {c : Context Builtin}
  {as : List Recount} (o : Outcome)

/-- Where every line was taken so far, an outcome is taken as a whole or is the first to be refused.
In both cases its errors are gone. -/
theorem recounted_of_shown (hopen : p.refused = none)
    (htaken : streams.takeAll? trace as = some p.streams) :
    Recounted trace streams (present trace o (p, c)) (recount o (as, c)) := by
  obtain ⟨hcontext, hnext⟩ := present_recount trace c hopen o
  have hall : streams.takeAll? trace (as ++ [⟨c.log, c.diagnostics, o⟩]) =
      p.streams.take? trace ⟨c.log, c.diagnostics, o⟩ := by
    rw [Streams.takeAll?_append, htaken, Option.bind_some, Streams.takeAll?_singleton]
  rw [← Prod.eta (present trace o (p, c)), hcontext]
  cases htake : p.streams.take? trace ⟨c.log, c.diagnostics, o⟩ with
  | some next =>
    rw [htake] at hnext
    exact .shown hnext.1 (by rw [hall, htake, hnext.2])
  | none =>
    rw [htake] at hnext
    have hunshown : streams.unshown trace (as ++ [⟨c.log, c.diagnostics, o⟩]) = [] := by
      rw [Streams.unshown_snoc, htaken]
    have hpending := Recounted.refused (c := c.clearJournal.clearDiagnostics) hnext
      (hall.trans htake)
    rw [hunshown] at hpending
    exact hpending

/-- Behind a refusal the errors of an outcome stay, behind those that are pending already. -/
theorem recounted_of_refused (hrefused : p.refused.isSome = true)
    (htaken : streams.takeAll? trace as = none) :
    Recounted trace streams
      (present trace o (p, c.withEarlier ((streams.unshown trace as).flatMap Recount.errors)))
      (recount o (as, c)) := by
  obtain ⟨hcontext, hsame⟩ := present_refused trace
    (c.withEarlier ((streams.unshown trace as).flatMap Recount.errors)) hrefused o
  have hall : streams.takeAll? trace (as ++ [⟨c.log, c.diagnostics, o⟩]) = none := by
    rw [Streams.takeAll?_append, htaken]
    rfl
  have hunshown : streams.unshown trace (as ++ [⟨c.log, c.diagnostics, o⟩]) =
      streams.unshown trace as ++ [⟨c.log, c.diagnostics, o⟩] := by
    rw [Streams.unshown_snoc, htaken]
  have hpending := Recounted.refused (c := c.clearJournal.clearDiagnostics)
    (hsame ▸ hrefused) hall
  rw [hunshown, List.flatMap_append, List.flatMap_singleton] at hpending
  rw [← Prod.eta (present trace o _), hcontext]
  have hcleared := Context.withEarlier_append c.clearJournal
    ((streams.unshown trace as).flatMap Recount.errors)
  show Recounted trace streams (_, Context.withEarlier _ c.clearJournal) _
  rw [hcleared]
  exact hpending

end Presented

/-- Outcome by outcome, a run stands where the accounts say. -/
theorem inStep_recounted (trace : Event → List String) (streams : Streams)
    {evaluate : Node → Action Builtin (Flow Value)} (h : ∀ n, Adds (evaluate n)) :
    InStep evaluate (present trace) recount (fun _ => Recounted trace streams) where
  note {p c as d} e hs := by
    cases hs with
    | shown hopen htaken => exact .shown hopen htaken
    | refused hrefused htaken => exact .refused (c := d.note e) hrefused htaken
  evaluated {p c as d} n hs := by
    cases hs with
    | shown hopen htaken => exact ⟨rfl, .shown hopen htaken⟩
    | refused hrefused htaken =>
      rw [h n _ d]
      exact ⟨rfl, .refused hrefused htaken⟩
  handled o hs := by
    cases hs with
    | shown hopen htaken => exact recounted_of_shown o hopen htaken
    | refused hrefused htaken => exact recounted_of_refused o hrefused htaken

/-! ## What a run leaves for report -/

variable {around : Surroundings} {s : Session}

/-- The accounts of the outcomes of a text, as the session's own settings evaluate it, and the
context behind them. -/
def recounting (around : Surroundings) (source : String) (s : Session) :
    List Recount × Context Builtin :=
  s.context.interpreter.evaluateEach (Builtin.commandSet around.files) recount source
    ([], s.context)

/-- The accounts are of the outcomes that are told, each with its errors. -/
theorem recounting_eq_telling (around : Surroundings) (source : String) (s : Session) :
    (s.recounting around source).1.map (fun a => (a.outcome, a.errors)) =
      (s.telling around source).1 := by
  obtain ⟨-, hsame, -⟩ := (inStep_recount (s.logs_evaluator around)).runText
    s.context.interpreter.reader source (s := ([], s.context)) (t := ([], s.context)) ⟨rfl, rfl⟩
  exact hsame.symm

theorem recounting_diagnostics (around : Surroundings) (source : String)
    (hdiagnostics : s.context.diagnostics = []) :
    (s.recounting around source).2.diagnostics = [] :=
  (runInvariant_recount (s.evaluator around)).runText s.context.interpreter.reader source
    (s := ([], s.context)) hdiagnostics

/-- The run of a text stands at its end where its accounts do. -/
theorem recounted_evaluateEach (around : Surroundings) (source : String) (s : Session) :
    Recounted around.trace s.streams
      (s.context.interpreter.evaluateEach (Builtin.commandSet around.files) (present around.trace)
        source s.start) (s.recounting around source) := by
  have hadds := congruent_adds.evaluateNode (Builtin.keeps_adds around.files)
    s.context.interpreter s.context
  obtain ⟨-, hran⟩ := (inStep_recounted around.trace s.streams hadds).runText
    s.context.interpreter.reader source (s := s.start) (t := ([], s.context)) (.shown rfl rfl)
  exact hran.under s.context.interpreter

/-- An answer means that everything was shown and that nothing is left for report; behind a refusal,
the errors of the outcomes that are not shown are left. -/
theorem evaluate_leaves (around : Surroundings) (source : String)
    (hdiagnostics : s.context.diagnostics = []) :
    (evaluate around source s).2.context.diagnostics =
        (s.streams.unshown around.trace (s.recounting around source).1).flatMap Recount.errors ∧
      ∀ code, (evaluate around source s).1 = .ok code →
        s.streams.unshown around.trace (s.recounting around source).1 = [] := by
  have hleft := recounting_diagnostics around source hdiagnostics
  have hran := recounted_evaluateEach around source s
  simp only [start] at hran
  simp only [evaluate]
  generalize s.context.interpreter.evaluateEach _ _ source _ = ran at hran
  generalize s.recounting around source = t at hran hleft
  cases hran with
  | @shown p c as hopen htaken =>
    have hshown : (drainJournal around.trace (p, c)).1.refused = none := hopen
    rw [Streams.unshown_of_takeAll? htaken, hshown]
    refine ⟨?_, fun _ _ => rfl⟩
    simp only
    split
    · rfl
    · split <;> rfl
  | @refused p c as hrefused htaken =>
    obtain ⟨reason, hreason⟩ := Option.isSome_iff_exists.mp hrefused
    have hshown : ∀ d, (drainJournal around.trace (p, d)).1.refused = some reason :=
      fun _ => hreason
    rw [hshown]
    refine ⟨?_, fun code hcode => by cases hcode⟩
    show _ ++ c.diagnostics = _
    rw [show c.diagnostics = [] from hleft, List.append_nil]

/-- The outcomes of a text that a session does not show. There are none if nothing is run: if the
text is blank, or is to be repeated and the stream refuses it. -/
def unreported (around : Surroundings) (source : String) (s : Session) : List Recount :=
  if Text.isAllBlank source then []
  else if s.echoes then
    match s.streams.offerOut [source] with
    | (.error _, _) => []
    | (.ok (), streams) => streams.unshown around.trace (s.recounting around source).1
  else s.streams.unshown around.trace (s.recounting around source).1

/-- What a run leaves for report are the errors of the outcomes that it does not show, which are
those behind the first line that a stream refuses. So nothing is left exactly if no statement behind
that one reports an error, and always if the run answers. -/
theorem run_leaves_unreported (around : Surroundings) (source : String) (s : Session)
    (hdiagnostics : s.context.diagnostics = []) :
    (run around source s).2.context.diagnostics =
        (s.unreported around source).flatMap Recount.errors ∧
      ((run around source s).2.context.diagnostics = [] ↔
        ∀ a ∈ s.unreported around source, a.errors = []) ∧
      (∀ code, (run around source s).1 = .ok code → s.unreported around source = []) ∧
      (s.unreported around source).map (fun a => (a.outcome, a.errors)) <:+
        (s.telling around source).1 := by
  have hmain : (run around source s).2.context.diagnostics =
        (s.unreported around source).flatMap Recount.errors ∧
      (∀ code, (run around source s).1 = .ok code → s.unreported around source = []) ∧
      s.unreported around source <:+ (s.recounting around source).1 := by
    unfold run unreported
    split
    · exact ⟨hdiagnostics, fun _ _ => rfl, List.nil_suffix⟩
    · split
      · rcases s.streams.offerOut [source] with ⟨_ | ⟨⟩, streams⟩
        · exact ⟨hdiagnostics, fun _ _ => rfl, List.nil_suffix⟩
        · obtain ⟨hleft, hok⟩ := evaluate_leaves (s := s.withStreams streams) around source
            hdiagnostics
          exact ⟨hleft, hok, Streams.unshown_suffix _ _⟩
      · obtain ⟨hleft, hok⟩ := evaluate_leaves around source hdiagnostics
        exact ⟨hleft, hok, Streams.unshown_suffix _ _⟩
  obtain ⟨hleft, hok, hsuffix⟩ := hmain
  refine ⟨hleft, ?_, hok, ?_⟩
  · rw [hleft, List.flatMap_eq_nil_iff]
  · rw [← recounting_eq_telling]
    exact hsuffix.map _

/-- A writer that refuses the second line it is offered, and takes all others. -/
def forgetful : Writer := { refusal := fun n => if n = 1 then some "full" else none }

/-- Three lines that each report an error and have a value. -/
def strayingText : String := "echo $(one)\necho $(two)\necho $(three)"

/-- The value of the second line is refused. The errors of the first two lines are written before
that, and the one of the third is left. -/
theorem run_leaves_unreported_forgetful :
    ((new {} "/").withStreams ⟨forgetful, {}⟩).context.diagnostics = [] ∧
    (run ⟨.empty, [], unseen⟩ strayingText ((new {} "/").withStreams ⟨forgetful, {}⟩)).1 =
      .error (.stream "full") ∧
    (run ⟨.empty, [], unseen⟩ strayingText
      ((new {} "/").withStreams ⟨forgetful, {}⟩)).2.context.diagnostics =
        [.unknownCommand "three"] ∧
    (((new {} "/").withStreams ⟨forgetful, {}⟩).unreported ⟨.empty, [], unseen⟩
      strayingText).flatMap Recount.errors = [.unknownCommand "three"] := by
  have hnone : ((new {} "/").withStreams ⟨forgetful, {}⟩).context.diagnostics = [] := rfl
  have hleft : (run ⟨.empty, [], unseen⟩ strayingText
      ((new {} "/").withStreams ⟨forgetful, {}⟩)).2.context.diagnostics =
        [.unknownCommand "three"] := by
    decide +kernel
  obtain ⟨hunreported, -⟩ := run_leaves_unreported ⟨.empty, [], unseen⟩ strayingText _ hnone
  exact ⟨hnone, by decide +kernel, hleft, hunreported.symm.trans hleft⟩

/-- An error of one text is written while the next one runs: the stream for values refuses the line
of the first statement, the error of the second stays behind, and the text that follows, which has
none, is run with streams that take every line. -/
theorem error_reported_by_next_run :
    (new {} "/").context.diagnostics = [] ∧
    (run ⟨.empty, [], unseen⟩ "echo a; echo $(nosuch)"
      ((new {} "/").withStreams ⟨.closed "sink closed", {}⟩)).2.context.diagnostics =
        [.unknownCommand "nosuch"] ∧
    (run ⟨.empty, [], unseen⟩ "echo b" ((run ⟨.empty, [], unseen⟩ "echo a; echo $(nosuch)"
      ((new {} "/").withStreams ⟨.closed "sink closed", {}⟩)).2.withStreams {})
      ).2.streams.err.written = "ERROR: (UnknownCommand) command not found: nosuch\n" :=
  ⟨rfl, by decide +kernel, by decide +kernel⟩

end Session

end CommandShell
