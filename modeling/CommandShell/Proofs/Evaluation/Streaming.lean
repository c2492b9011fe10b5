/-
# CommandShell.Proofs.Evaluation.Streaming -- outcomes one by one and all at once

Whoever runs a text may wait for its end and then look at all outcomes and at the errors left for
report, or may take every outcome as it comes, with the errors reported on the way to it. Here both
are shown to get the same: the same outcomes, and the same errors in the same order.

There are two reasons for it. Evaluation adds to the errors left for report but never reads them
(`Adds`), so a handler may take them away between two statements. And two runs with handlers of
their own stay in step as long as their states stay related from outcome to outcome (`InStep`).
-/
import CommandShell.Proofs.Evaluation.Handling

namespace CommandShell

open Step CommandShell.Action

variable {κ σ ρ τ : Type}

/-! ## Errors that were reported earlier -/

/-- The context with errors in front of those left for report. -/
def Context.withEarlier (es : List Error) (c : Context κ) : Context κ :=
  c.mapUnseen id (es ++ ·)

theorem Context.withEarlier_clearDiagnostics (c : Context κ) :
    c.clearDiagnostics.withEarlier c.diagnostics = c := by
  show { c with diagnostics := c.diagnostics ++ [] } = c
  rw [List.append_nil]

theorem Context.withEarlier_append (c : Context κ) (es : List Error) :
    c.withEarlier es = c.clearDiagnostics.withEarlier (es ++ c.diagnostics) := by
  show { c with diagnostics := es ++ c.diagnostics } =
    { c with diagnostics := (es ++ c.diagnostics) ++ [] }
  rw [List.append_nil]

namespace Step

/-- A step that does not see the errors reported before it, and leaves them in front of its own. -/
def Adds (x : Step κ τ) : Prop := ∀ es, Commutes (Context.withEarlier es) x

/-- A step is not changed by the errors reported before it, and leaves its own behind them. -/
theorem Adds.apart {x : Step κ τ} (hx : Adds x) (c : Context κ) :
    (x c).1 = (x c.clearDiagnostics).1 ∧
      (x c).2.diagnostics = c.diagnostics ++ (x c.clearDiagnostics).2.diagnostics := by
  have hpending := hx c.diagnostics c.clearDiagnostics
  rw [Context.withEarlier_clearDiagnostics] at hpending
  rw [hpending]
  exact ⟨rfl, rfl⟩

theorem Adds.nested {α : Type} {x : Action κ α} (hx : Adds x) : Adds (Action.nested x) := by
  intro es c
  by_cases hdepth : c.depth < c.interpreter.maxDepth
  · have hdepth' : (c.withEarlier es).depth < (c.withEarlier es).interpreter.maxDepth := hdepth
    have hinside : x (enter (c.withEarlier es)) =
        ((x (enter c)).1, (x (enter c)).2.withEarlier es) := hx es (enter c)
    rw [nested_of_lt x hdepth, nested_of_lt x hdepth', hinside]
    rfl
  · have hdepth' : ¬ (c.withEarlier es).depth < (c.withEarlier es).interpreter.maxDepth := hdepth
    rw [nested_of_not_lt x hdepth, nested_of_not_lt x hdepth']
    rfl

/-- Evaluation adds to the errors left for report as its commands do. -/
theorem congruent_adds : @Congruent κ (fun x _ => Adds x) where
  result t := fun _ => (sequential_commutes (fun _ _ _ => rfl)).result t
  noting he := fun _ => (sequential_commutes (fun _ _ _ => rfl)).noting he
  seq {_ _ x y f g} hx hf := fun es =>
    (sequential_commutes (fun _ _ _ => rfl)).seq (y := y) (g := g) (hx es) (fun t => hf t es)
  reporting t n e := by
    intro es c
    show (t, ({ c.note (.contained n e) with diagnostics := (es ++ c.diagnostics) ++ [e] } :
      Context κ)) = _
    rw [List.append_assoc]
    rfl
  look {_ f _} hf hlook _ := by
    intro es c
    have hsame : f (c.withEarlier es) = f c := hlook c c.journal (es ++ c.diagnostics)
    show f (c.withEarlier es) (c.withEarlier es) = _
    rw [hsame]
    exact hf c es c
  restoring {_ x _} hx := by
    intro es c
    show ((x (c.withEarlier es)).1,
      ({ (x (c.withEarlier es)).2 with interpreter := c.interpreter } : Context κ)) = _
    rw [hx es c]
    rfl
  nested := Adds.nested
  refuse := fun _ _ => rfl

end Step

theorem Builtin.keeps_adds (files : Files.Tree) : (commandSet files).Keeps (fun x _ => Adds x) :=
  keeps_of_plain congruent_adds.toSequential files (fun _ heval reenter values flags es =>
    (closed_commutes (unseen_mapUnseen id (es ++ ·))).invoke heval files description reenter values
      flags)

/-! ## Two runs in step -/

/-- The code of a request to leave. -/
def Outcome.code? : Outcome → Option Int32
  | .exited code => some code
  | _ => none

/-- Two runs of the same statements, with handlers of their own, stay in step: evaluation ends alike
in states that are related, and so do the handlers. A relation may say which request to leave was
handled last; behind such a request nothing is evaluated. -/
structure InStep (evaluate : Node → Action κ (Flow Value)) (handle : Handler κ σ)
    (other : Handler κ ρ) (R : Option Int32 → σ × Context κ → ρ × Context κ → Prop) : Prop where
  note {s : σ} {c : Context κ} {t : ρ} {d : Context κ} (e : Event) :
    R none (s, c) (t, d) → R none (s, c.note e) (t, d.note e)
  evaluated {s : σ} {c : Context κ} {t : ρ} {d : Context κ} (n : Node) : R none (s, c) (t, d) →
    (evaluate n c).1 = (evaluate n d).1 ∧ R none (s, (evaluate n c).2) (t, (evaluate n d).2)
  handled {s : σ × Context κ} {t : ρ × Context κ} (o : Outcome) : R none s t →
    R o.code? (handle o s) (other o t)

namespace InStep

variable {evaluate : Node → Action κ (Flow Value)} {handle : Handler κ σ} {other : Handler κ ρ}
  {R : Option Int32 → σ × Context κ → ρ × Context κ → Prop}
  (hR : InStep evaluate handle other R)

include hR

/-- Both runs of the statements end at the same place, with a request to leave or without one. -/
theorem runStatements (ns : List Node) {s : σ × Context κ} {t : ρ × Context κ} (h : R none s t) :
    (runStatements evaluate handle ns s).1 = (runStatements evaluate other ns t).1 ∧
      ∃ code : Option Int32, code.isSome = (runStatements evaluate handle ns s).1 ∧
        R code (runStatements evaluate handle ns s).2 (runStatements evaluate other ns t).2 := by
  induction ns generalizing s t with
  | nil =>
    rw [CommandShell.runStatements, CommandShell.runStatements]
    exact ⟨rfl, none, rfl, h⟩
  | cons n rest ih =>
    obtain ⟨gathered, c⟩ := s
    obtain ⟨gathered', d⟩ := t
    obtain ⟨hresult, hnext⟩ := hR.evaluated n h
    rw [CommandShell.runStatements, CommandShell.runStatements]
    rcases hc : evaluate n c with ⟨r, next⟩
    rcases hd : evaluate n d with ⟨r', next'⟩
    rw [hc, hd] at hresult hnext
    obtain rfl : r = r' := hresult
    rcases r with e | ⟨v⟩ | ⟨code⟩
    · exact ih (hR.handled (.failed e) (hR.note (.statementFailed e) hnext))
    · exact ih (hR.handled (.value v) hnext)
    · exact ⟨rfl, some code, rfl, hR.handled (.exited code) hnext⟩

theorem runLines (reader : Reader) (lines : List String) {s : σ × Context κ} {t : ρ × Context κ}
    (h : R none s t) : ∃ code,
      R code (runLines reader evaluate handle lines s)
        (runLines reader evaluate other lines t) := by
  induction lines generalizing s t with
  | nil =>
    rw [CommandShell.runLines, CommandShell.runLines]
    exact ⟨none, h⟩
  | cons line rest ih =>
    obtain ⟨gathered, c⟩ := s
    obtain ⟨gathered', d⟩ := t
    have hnoted := hR.note (.reading reader line) h
    rw [CommandShell.runLines, CommandShell.runLines]
    cases reader.program line with
    | error e => exact ih (hR.handled (.failed (.unreadable e)) hnoted)
    | ok p =>
      obtain ⟨hsame, code, hcode, hran⟩ := hR.runStatements p.statements hnoted
      rcases hs : CommandShell.runStatements evaluate handle p.statements
        (gathered, c.note (.reading reader line)) with ⟨exits, after⟩
      rcases ht : CommandShell.runStatements evaluate other p.statements
        (gathered', d.note (.reading reader line)) with ⟨exits', after'⟩
      rw [hs, ht] at hsame hran
      rw [hs] at hcode
      obtain rfl : exits = exits' := hsame
      simp only [hs, ht]
      cases exits with
      | true => exact ⟨code, hran⟩
      | false =>
        obtain rfl : code = none := Option.not_isSome_iff_eq_none.mp (by simp [hcode])
        exact ih hran

/-- Two runs of a text that start in step end in step, however the text is read. -/
theorem runText (reader : Reader) (source : String) {s : σ × Context κ} {t : ρ × Context κ}
    (h : R none s t) : ∃ code,
      R code (runText reader evaluate handle source s)
        (runText reader evaluate other source t) := by
  have hnoted := hR.note (.reading reader source) h
  unfold CommandShell.runText
  cases reader.program source with
  | ok p =>
    obtain ⟨-, code, -, hran⟩ := hR.runStatements p.statements hnoted
    exact ⟨code, hran⟩
  | error e =>
    have hreported := hR.note (.unreadable e) hnoted
    cases Text.breaksInside source.toList with
    | true => exact hR.runLines reader _ hreported
    | false => exact ⟨none, hR.handled (.failed (.unreadable e)) hreported⟩

end InStep

/-! ## Taking the errors with each outcome -/

/-- Takes each outcome together with the errors reported on the way to it. -/
def tell : Handler κ (List (Outcome × List Error)) := fun o s =>
  (s.1 ++ [(o, s.2.diagnostics)], s.2.clearDiagnostics)

/-- The same outcomes were gathered, and the errors that are taken away in one run still stand in
front of the others in the other run. -/
def Retold (s : List Outcome × Context κ) (t : List (Outcome × List Error) × Context κ) : Prop :=
  s.1 = t.1.map Prod.fst ∧ s.2 = t.2.withEarlier (t.1.flatMap Prod.snd)

/-- Where no error is left for report in the one run, its errors are those of the other. -/
theorem Retold.taken {s : List Outcome × Context κ} {t : List (Outcome × List Error) × Context κ}
    (h : Retold s t) (ht : t.2.diagnostics = []) :
    t.1.map Prod.fst = s.1 ∧ t.1.flatMap Prod.snd = s.2.diagnostics ∧
      t.2 = s.2.clearDiagnostics := by
  obtain ⟨houtcomes, hcontext⟩ := h
  have hcleared : t.2 = t.2.clearDiagnostics := by
    rw [Context.clearDiagnostics, ← ht]
  refine ⟨houtcomes.symm, ?_, ?_⟩
  · rw [hcontext, hcleared]
    exact (List.append_nil _).symm
  · rw [hcontext]
    exact hcleared

theorem inStep_tell {evaluate : Node → Action κ (Flow Value)} (h : ∀ n, Adds (evaluate n)) :
    InStep evaluate collect tell (fun _ s t => Retold s t) where
  note _ := by
    rintro ⟨houtcomes, hcontext⟩
    simp only at hcontext
    rw [hcontext]
    exact ⟨houtcomes, rfl⟩
  evaluated n := by
    rintro ⟨houtcomes, hcontext⟩
    simp only at hcontext
    rw [hcontext, h n _ _]
    exact ⟨rfl, houtcomes, rfl⟩
  handled o := by
    rintro ⟨houtcomes, hcontext⟩
    refine ⟨?_, ?_⟩
    · simp [collect, tell, houtcomes]
    · simp only [collect, tell, hcontext, List.flatMap_append, List.flatMap_singleton]
      exact Context.withEarlier_append _ _

/-- Each time an outcome was taken, no error is left for report. -/
theorem runInvariant_tell (evaluate : Node → Action κ (Flow Value)) :
    RunInvariant evaluate tell (fun s => s.2.diagnostics = []) where
  note _ hs := hs
  handled _ _ := rfl
  evaluated _ _ _ := rfl
  failed _ _ _ := rfl

namespace Interpreter

variable {set : CommandSet κ}

/-- A whole evaluation adds to the errors left for report as well. -/
theorem adds_evaluate (hset : set.Keeps (fun x _ => Adds x)) (i : Interpreter) (source : String) :
    Adds (i.evaluate set source) := by
  intro es c
  have hnode : ∀ n, Adds (i.evaluateNode set c n) := congruent_adds.evaluateNode hset i c
  have htext : Adds (textStep i.reader (i.evaluateNode set c) source []) :=
    @Sequential.textStep _ _ congruent_adds.toSequential _ (i.evaluateNode set c) i.reader hnode
      source []
  have hdepth : i.evaluateNode set (c.withEarlier es) = i.evaluateNode set c :=
    evaluateNode_congr i rfl
  have hunder : (c.withEarlier es).under i = (c.under i).withEarlier es := rfl
  rw [evaluate_eq_textStep, evaluate_eq_textStep, hdepth, hunder, htext es (c.under i)]
  rfl

/-- Taking each outcome with its errors and gathering the outcomes end in states that tell the
same. -/
theorem retold_evaluate (hset : set.Keeps (fun x _ => Adds x)) (i : Interpreter) (source : String)
    (c : Context κ) :
    Retold (i.evaluate set source c) (i.evaluateEach set tell source ([], c)) := by
  have hstep := inStep_tell (congruent_adds.evaluateNode hset i c)
  obtain ⟨-, houtcomes, hcontext⟩ := hstep.runText i.reader source
    (s := ([], c.under i)) (t := ([], c.under i)) ⟨rfl, rfl⟩
  refine ⟨houtcomes, ?_⟩
  exact congrArg (Context.under · c.interpreter) hcontext

theorem diagnostics_evaluateEach_tell (i : Interpreter) (source : String) {c : Context κ}
    (hc : c.diagnostics = []) :
    (i.evaluateEach set tell source ([], c)).2.diagnostics = [] :=
  (runInvariant_tell (i.evaluateNode set c)).runText i.reader source (s := ([], c.under i)) hc

/-- Taking each outcome of a text with the errors reported on the way to it, and gathering all
outcomes and looking at the errors at the end, come to the same if no error is pending at first:
the outcomes are the same, the errors taken are one after the other those at the end, and nothing
else of the contexts differs. Errors that are pending stay in front, and change nothing. -/
theorem streaming_agrees (files : Files.Tree) (i : Interpreter) (source : String)
    (c : Context Builtin) :
    (c.diagnostics = [] →
      (i.evaluateEach (Builtin.commandSet files) tell source ([], c)).1.map Prod.fst =
        (i.evaluate (Builtin.commandSet files) source c).1 ∧
      (i.evaluateEach (Builtin.commandSet files) tell source ([], c)).1.flatMap Prod.snd =
        (i.evaluate (Builtin.commandSet files) source c).2.diagnostics ∧
      (i.evaluateEach (Builtin.commandSet files) tell source ([], c)).2 =
        (i.evaluate (Builtin.commandSet files) source c).2.clearDiagnostics) ∧
    (i.evaluate (Builtin.commandSet files) source c).1 =
      (i.evaluate (Builtin.commandSet files) source c.clearDiagnostics).1 ∧
    (i.evaluate (Builtin.commandSet files) source c).2.diagnostics = c.diagnostics ++
      (i.evaluate (Builtin.commandSet files) source c.clearDiagnostics).2.diagnostics := by
  have hset := Builtin.keeps_adds files
  refine ⟨fun hc => ?_, (adds_evaluate hset i source).apart c⟩
  apply (retold_evaluate hset i source c).taken
  exact diagnostics_evaluateEach_tell i source hc

/-- Three lines of which the second cannot be read. On the way to the other two outcomes errors are
reported, and the last is a request to leave. -/
def reportingText : String := "echo $(nosuch) $(cd 5)\n\"\necho $(unheard) $(exit 3)"

theorem streaming_agrees_reportingText :
    ((Context.new {} "/").withCommands Builtin.registry).diagnostics = [] ∧
    (evaluateEach {} (Builtin.commandSet .empty) tell reportingText
      ([], (Context.new {} "/").withCommands Builtin.registry)).1.map (·.2.length) = [2, 0, 1] ∧
    (evaluateEach {} (Builtin.commandSet .empty) tell reportingText
        ([], (Context.new {} "/").withCommands Builtin.registry)).1.map Prod.fst =
      (evaluate {} (Builtin.commandSet .empty) reportingText
        ((Context.new {} "/").withCommands Builtin.registry)).1 ∧
    (evaluateEach {} (Builtin.commandSet .empty) tell reportingText
        ([], (Context.new {} "/").withCommands Builtin.registry)).1.flatMap Prod.snd =
      (evaluate {} (Builtin.commandSet .empty) reportingText
        ((Context.new {} "/").withCommands Builtin.registry)).2.diagnostics := by
  have hnone : ((Context.new {} "/").withCommands Builtin.registry).diagnostics = [] := rfl
  obtain ⟨houtcomes, herrors, -⟩ := (streaming_agrees .empty {} reportingText _).1 hnone
  exact ⟨hnone, by decide +kernel, houtcomes, herrors⟩

end Interpreter

end CommandShell
