/-
# CommandShell.Proofs.Evaluation.LineByLine -- a text and its lines evaluate alike

A text is run as a whole if it can be read, and line by line if it cannot. When every line can be
read by itself, the two ways lead to the same place: the outcomes are those of the lines evaluated
one after the other up to a request to leave, and the contexts differ in their journals alone, which
tell how the text was read.
-/
import CommandShell.Proofs.Evaluation.Builtins
import CommandShell.Proofs.Grammar.Lines

namespace CommandShell

open Step

variable {κ σ τ υ : Type}

/-! ## Equal up to the journal -/

theorem Context.eq_withJournal {c d : Context κ} (h : c.clearJournal = d.clearJournal) :
    d = c.withJournal d.journal := by
  obtain ⟨_, _, _, _, _, _, _, _⟩ := c
  obtain ⟨_, _, _, _, _, _, _, _⟩ := d
  cases h
  rfl

namespace Step

/-- Two steps with the same result that leave the same context up to the journal. -/
def Agree (x y : Step κ τ) : Prop :=
  ∀ c, (x c).1 = (y c).1 ∧ (x c).2.clearJournal = (y c).2.clearJournal

theorem Agree.refl (x : Step κ τ) : Agree x x := fun _ => ⟨rfl, rfl⟩

theorem Agree.trans {x y z : Step κ τ} (h : Agree x y) (h' : Agree y z) : Agree x z :=
  fun c => ⟨(h c).1.trans (h' c).1, (h c).2.trans (h' c).2⟩

theorem Agree.symm {x y : Step κ τ} (h : Agree x y) : Agree y x :=
  fun c => ⟨(h c).1.symm, (h c).2.symm⟩

/-- A step that does not read the journal behaves alike in contexts that differ in it. -/
theorem Logs.blind {x : Step κ τ} (hx : Logs Any x) {c d : Context κ}
    (h : c.clearJournal = d.clearJournal) :
    (x c).1 = (x d).1 ∧ (x c).2.clearJournal = (x d).2.clearJournal := by
  obtain ⟨es, -, hblind, -⟩ := hx c
  rw [Context.eq_withJournal h, hblind]
  exact ⟨rfl, rfl⟩

theorem Agree.seq {x y : Step κ τ} {f g : τ → Step κ υ} (h : Agree x y)
    (hf : ∀ t, Logs Any (f t)) (hfg : ∀ t, Agree (f t) (g t)) : Agree (seq x f) (seq y g) := by
  intro c
  obtain ⟨hresult, hcontext⟩ := h c
  have hblind := (hf (x c).1).blind hcontext
  rw [hresult] at hblind
  show (f (x c).1 (x c).2).1 = _ ∧ (f (x c).1 (x c).2).2.clearJournal = _
  rw [hresult]
  exact ⟨hblind.1.trans (hfg _ _).1, hblind.2.trans (hfg _ _).2⟩

theorem seq_assoc (x : Step κ σ) (f : σ → Step κ τ) (g : τ → Step κ υ) :
    seq (seq x f) g = seq x (fun t => seq (f t) g) := rfl

theorem seq_noting (e : Event) (f : Unit → Step κ τ) (c : Context κ) :
    seq (noting e) f c = f () (c.note e) := rfl

/-- A note before a step changes nothing but the journal. -/
theorem agree_noting {x : Step κ τ} (hx : Logs Any x) (e : Event) :
    Agree (seq (noting e) (fun _ => x)) x :=
  fun c => hx.blind (c := c.note e) (d := c) rfl

end Step

/-! ## Statements of several lines -/

section Statements

variable {reader : Reader} {evaluate : Node → Action κ (Flow Value)}

theorem statementsStep_append (ns ms : List Node) (acc : List Outcome) :
    statementsStep evaluate (ns ++ ms) acc = seq (statementsStep evaluate ns acc) (fun
      | (true, outcomes) => result (true, outcomes)
      | (false, outcomes) => statementsStep evaluate ms outcomes) := by
  induction ns generalizing acc with
  | nil =>
    rw [statementsStep_nil]
    rfl
  | cons n rest ih =>
    rw [List.cons_append, statementsStep_cons, statementsStep_cons]
    funext c
    unfold seq
    rcases evaluate n c with ⟨e | ⟨v⟩ | ⟨code⟩, next⟩
    · simp only [ih]
      rfl
    · simp only [ih]
      rfl
    · rfl

/-- Lines that can be read run as their statements do. -/
theorem agree_linesStep (heval : ∀ n, Logs Any (evaluate n)) {lines : List String}
    (hlines : ∀ line ∈ lines, ∃ p, reader.program line = .ok p) (acc : List Outcome) :
    Agree (linesStep reader evaluate lines acc)
      (seq (statementsStep evaluate (lines.flatMap reader.statements) acc)
        (fun after => result after.2)) := by
  induction lines generalizing acc with
  | nil =>
    rw [linesStep_nil, List.flatMap_nil, statementsStep_nil]
    exact Agree.refl _
  | cons line rest ih =>
    obtain ⟨p, hp⟩ := hlines line List.mem_cons_self
    have hrest := ih (fun l hl => hlines l (List.mem_cons_of_mem _ hl))
    rw [linesStep_cons, hp, List.flatMap_cons, Reader.statements_eq hp, statementsStep_append]
    have hlog : ∀ after : Bool × List Outcome, Logs Any (match after with
        | (true, outcomes) => result outcomes
        | (false, outcomes) => linesStep reader evaluate rest outcomes) := by
      rintro ⟨_ | _, outcomes⟩
      · exact logs_linesStep reader heval rest outcomes
      · exact logs_result outcomes
    refine Agree.trans (agree_noting ((logs_statementsStep heval _ _).seq hlog) _) ?_
    rw [seq_assoc]
    refine Agree.seq (Agree.refl _) hlog ?_
    rintro ⟨_ | _, outcomes⟩
    · exact hrest outcomes
    · exact Agree.refl _

/-- A text whose lines can be read runs as its lines do, whichever way it is run. -/
theorem agree_textStep (heval : ∀ n, Logs Any (evaluate n)) {source : String}
    (hlines : ∀ line ∈ Text.lines source, ∃ p, reader.program line = .ok p)
    (acc : List Outcome) :
    Agree (textStep reader evaluate source acc)
      (linesStep reader evaluate (Text.lines source) acc) := by
  rw [textStep_eq]
  rcases reader.program_of_lines hlines with hwhole | ⟨e, hwhole, hbreaks⟩
  -- the text is run as a whole
  · rw [hwhole]
    refine Agree.trans (agree_noting ?_ _) (agree_linesStep heval hlines acc).symm
    exact (logs_statementsStep heval _ _).seq (fun _ => logs_result _)
  -- the scan for nesting has refused the whole, and there is more than one line to fall back to
  · rw [hwhole]
    have hlog := logs_linesStep reader heval (Text.lines source) acc
    simp only [hbreaks, if_true]
    refine Agree.trans (agree_noting ?_ _) (agree_noting hlog _)
    exact (logs_noting trivial rfl).seq (fun _ => hlog)

/-- Earlier outcomes are kept in front. -/
theorem statementsStep_shift (evaluate : Node → Action κ (Flow Value)) (ns : List Node)
    (acc os : List Outcome) :
    statementsStep evaluate ns (acc ++ os) =
      seq (statementsStep evaluate ns os) (fun after => result (after.1, acc ++ after.2)) := by
  induction ns generalizing os with
  | nil =>
    rw [statementsStep_nil, statementsStep_nil]
    rfl
  | cons n rest ih =>
    rw [statementsStep_cons, statementsStep_cons]
    funext c
    unfold seq
    rcases evaluate n c with ⟨e | ⟨v⟩ | ⟨code⟩, next⟩
    · simp only [List.append_assoc, ih]
      rfl
    · simp only [List.append_assoc, ih]
      rfl
    · simp only [List.append_assoc]
      rfl

theorem linesStep_of_program {line : String} {p : Program} (hp : reader.program line = .ok p)
    {d next : Context κ} {exits : Bool} {outcomes : List Outcome}
    (hrun : statementsStep evaluate p.statements [] (d.note (.reading reader line)) =
      ((exits, outcomes), next)) (rest : List String) (acc : List Outcome) :
    linesStep reader evaluate (line :: rest) acc d =
      if exits then (acc ++ outcomes, next)
      else linesStep reader evaluate rest (acc ++ outcomes) next := by
  have hshift : statementsStep evaluate p.statements acc (d.note (.reading reader line)) =
      ((exits, acc ++ outcomes), next) := by
    have h := congrFun (statementsStep_shift evaluate p.statements acc [])
      (d.note (.reading reader line))
    rw [List.append_nil] at h
    rw [h, seq, hrun]
    rfl
  rw [linesStep_cons, hp, seq_noting]
  simp only [seq, hshift]
  cases exits <;> rfl

/-- Statements say that there was a request to leave when one of their outcomes is one. -/
theorem statementsStep_isExit (evaluate : Node → Action κ (Flow Value)) (ns : List Node)
    {os : List Outcome} (hos : os.any Outcome.isExit = false) (c : Context κ) :
    (statementsStep evaluate ns os c).1.1 =
      (statementsStep evaluate ns os c).1.2.any Outcome.isExit := by
  induction ns generalizing os c with
  | nil =>
    rw [statementsStep_nil]
    exact hos.symm
  | cons n rest ih =>
    rw [statementsStep_cons]
    unfold seq
    have hsnoc : ∀ o : Outcome, o.isExit = false → (os ++ [o]).any Outcome.isExit = false := by
      intro o ho
      simp [List.any_append, hos, ho]
    rcases evaluate n c with ⟨e | ⟨v⟩ | ⟨code⟩, next⟩
    · exact ih (hsnoc _ rfl) _
    · exact ih (hsnoc _ rfl) _
    · show true = (os ++ [Outcome.exited code]).any Outcome.isExit
      simp [List.any_append, Outcome.isExit]

end Statements

/-! ## Whole evaluations -/

/-- The context under other settings. -/
def Context.under (c : Context κ) (i : Interpreter) : Context κ := { c with interpreter := i }

theorem Context.under_of_eq {c : Context κ} {i : Interpreter} (h : c.interpreter = i) :
    c.under i = c := by
  rw [← h]
  rfl

namespace Interpreter

/-- Evaluates texts one after the other, up to a request to leave. -/
def evaluateLines (i : Interpreter) (set : CommandSet κ) :
    List String → Context κ → List Outcome × Context κ
  | [], c => ([], c)
  | line :: rest, c =>
    let (outcomes, next) := i.evaluate set line c
    if outcomes.any Outcome.isExit then (outcomes, next)
    else
      let (more, last) := i.evaluateLines set rest next
      (outcomes ++ more, last)

variable {set : CommandSet κ}

theorem evaluateLines_cons (i : Interpreter) (line : String) (rest : List String) (c : Context κ) :
    i.evaluateLines set (line :: rest) c =
      if (i.evaluate set line c).1.any Outcome.isExit then i.evaluate set line c
      else ((i.evaluate set line c).1 ++ (i.evaluateLines set rest (i.evaluate set line c).2).1,
        (i.evaluateLines set rest (i.evaluate set line c).2).2) := rfl

theorem evaluate_eq_textStep (i : Interpreter) (source : String) (c : Context κ) :
    i.evaluate set source c =
      ((textStep i.reader (i.evaluateNode set c) source [] (c.under i)).1,
        (textStep i.reader (i.evaluateNode set c) source [] (c.under i)).2.under c.interpreter) :=
  rfl

theorem evaluate_of_program {i : Interpreter} {source : String} {p : Program}
    (hp : i.reader.program source = .ok p) {c next : Context κ} {exits : Bool}
    {outcomes : List Outcome}
    (hrun : statementsStep (i.evaluateNode set c) p.statements []
      ((c.under i).note (.reading i.reader source)) = ((exits, outcomes), next)) :
    i.evaluate set source c = (outcomes, next.under c.interpreter) := by
  rw [evaluate_eq_textStep, textStep_eq, hp, seq_noting]
  simp only [seq, hrun]
  rfl

/-- How nodes are evaluated depends on the context by its depth alone. -/
theorem evaluateNode_congr (i : Interpreter) {c d : Context κ} (h : d.depth = c.depth) :
    i.evaluateNode set d = i.evaluateNode set c := by
  unfold evaluateNode CommandSet.levels
  rw [h]

/-- One run over the lines is the evaluations of the lines one after the other. -/
theorem linesStep_eq_evaluateLines (hset : set.Logging) (i : Interpreter) {lines : List String}
    (hlines : ∀ line ∈ lines, ∃ p, i.reader.program line = .ok p) (c : Context κ)
    (acc : List Outcome) :
    (linesStep i.reader (i.evaluateNode set c) lines acc (c.under i)).1 =
        acc ++ (i.evaluateLines set lines c).1 ∧
      (linesStep i.reader (i.evaluateNode set c) lines acc (c.under i)).2.under c.interpreter =
        (i.evaluateLines set lines c).2 := by
  induction lines generalizing c acc with
  | nil =>
    rw [linesStep_nil, evaluateLines, List.append_nil]
    exact ⟨rfl, rfl⟩
  | cons line rest ih =>
    obtain ⟨p, hp⟩ := hlines line List.mem_cons_self
    have hstart := logs_statementsStep (hset.logs_evaluateNode i c) p.statements []
      ((c.under i).note (.reading i.reader line))
    have hexits := statementsStep_isExit (i.evaluateNode set c) p.statements List.any_nil
      ((c.under i).note (.reading i.reader line))
    obtain ⟨_, -, -, hframe⟩ := hstart
    obtain ⟨⟨exits, outcomes⟩, next, hrun⟩ : ∃ after next,
      statementsStep (i.evaluateNode set c) p.statements []
        ((c.under i).note (.reading i.reader line)) = (after, next) := ⟨_, _, rfl⟩
    rw [hrun] at hexits hframe
    rw [linesStep_of_program hp hrun, evaluateLines_cons, evaluate_of_program hp hrun]
    simp only at hexits hframe ⊢
    rw [← hexits]
    cases exits with
    | true => exact ⟨rfl, rfl⟩
    | false =>
      -- between two evaluations the settings of the context come back, and are replaced again
      have hnext : (next.under c.interpreter).under i = next :=
        Context.under_of_eq hframe.interpreter
      have hrest := ih (fun l hl => hlines l (List.mem_cons_of_mem _ hl))
        (next.under c.interpreter) (acc ++ outcomes)
      rw [evaluateNode_congr i (c := c) (d := next.under c.interpreter) hframe.depth,
        hnext] at hrest
      obtain ⟨houtcomes, hcontext⟩ := hrest
      exact ⟨houtcomes.trans (List.append_assoc _ _ _), hcontext⟩

/-- A text whose lines can be read by themselves evaluates as its lines do, one after the other up
to a request to leave, whether it is run as a whole or line by line. -/
theorem evaluate_eq_evaluateLines (files : Files.Tree) (i : Interpreter) (source : String)
    (c : Context Builtin)
    (hlines : ∀ line ∈ Text.lines source, ∃ p, i.reader.program line = .ok p) :
    (i.evaluate (Builtin.commandSet files) source c).1 =
        (i.evaluateLines (Builtin.commandSet files) (Text.lines source) c).1 ∧
      (i.evaluate (Builtin.commandSet files) source c).2.clearJournal =
        (i.evaluateLines (Builtin.commandSet files) (Text.lines source) c).2.clearJournal := by
  have hset := Builtin.logging_commandSet files
  obtain ⟨houtcomes, hcontext⟩ :=
    agree_textStep (hset.logs_evaluateNode i c) hlines [] (c.under i)
  obtain ⟨houtcomes', hcontext'⟩ := linesStep_eq_evaluateLines hset i hlines c []
  rw [evaluate_eq_textStep]
  refine ⟨houtcomes.trans houtcomes', ?_⟩
  rw [← hcontext']
  exact congrArg (Context.under · c.interpreter) hcontext

/-- A comment opens a level for the scan of the whole, which is then run line by line. -/
theorem evaluate_eq_evaluateLines_comment :
    (∀ line ∈ Text.lines "# $(\necho $(pwd)",
      ∃ p, ({ maxNesting := 1 } : Reader).program line = .ok p) ∧
    (evaluate { reader := { maxNesting := 1 } } (Builtin.commandSet .empty) "# $(\necho $(pwd)"
      ((Context.new {} "/").withCommands Builtin.registry)).1 =
      (evaluateLines { reader := { maxNesting := 1 } } (Builtin.commandSet .empty)
        (Text.lines "# $(\necho $(pwd)")
        ((Context.new {} "/").withCommands Builtin.registry)).1 := by
  have hlines : ∀ line ∈ Text.lines "# $(\necho $(pwd)",
      ∃ p, ({ maxNesting := 1 } : Reader).program line = .ok p := by
    have hsplit : Text.lines "# $(\necho $(pwd)" = ["# $(", "echo $(pwd)"] := by decide
    rw [hsplit]
    intro line hline
    rcases List.mem_cons.mp hline with rfl | hline
    · exact ⟨⟨[]⟩, Reader.program_eq_ok_iff.mpr ⟨[⟨none, some " $("⟩], rfl, rfl⟩⟩
    · rw [List.mem_singleton.mp hline]
      exact ⟨⟨[.command "echo" [.command "pwd" [] []] []]⟩, Reader.program_eq_ok_iff.mpr
        ⟨[⟨some (.command "echo" [.expr (.substitution (.command "pwd" []))]), none⟩], rfl, rfl⟩⟩
  exact ⟨hlines, (evaluate_eq_evaluateLines .empty { reader := { maxNesting := 1 } } _ _ hlines).1⟩

end Interpreter

end CommandShell
