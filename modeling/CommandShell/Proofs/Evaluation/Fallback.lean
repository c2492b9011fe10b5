/-
# CommandShell.Proofs.Evaluation.Fallback -- texts that cannot be read as a whole

A text of several lines that cannot be read is run line by line: a line that is a program is
evaluated, and one that is not counts as one failure. Whether a text has several lines is asked of
the text without its blank tail, where blank is meant in the sense of Unicode. The grammar's blanks
are fewer, so the tail may hold lines that the grammar does not pass over; a text with such a tail
is not run at all, although its first line could be.

Nothing here depends on what the registered commands do, as long as they keep to what a command can
reach: the journal is not theirs to read, and the depth and the settings are not theirs to change.
-/
import CommandShell.Proofs.Evaluation.Handling
import Mathlib.Data.List.Forall2

namespace CommandShell

open Step

variable {κ τ : Type}

/-! ## Commands that keep to their part of the context -/

namespace Step

/-- A step that does not read the journal, and leaves the depth and the settings as it finds
them. -/
structure Sealed (x : Step κ τ) : Prop where
  blind {c d : Context κ} : c.clearJournal = d.clearJournal →
    (x c).1 = (x d).1 ∧ (x c).2.clearJournal = (x d).2.clearJournal
  depth (c : Context κ) : (x c).2.depth = c.depth
  interpreter (c : Context κ) : (x c).2.interpreter = c.interpreter

theorem Logs.sealed {x : Step κ τ} (hx : Logs Any x) : Sealed x where
  blind := hx.blind
  depth c := by
    obtain ⟨_, -, -, hframe⟩ := hx c
    exact hframe.depth
  interpreter c := by
    obtain ⟨_, -, -, hframe⟩ := hx c
    exact hframe.interpreter

/-- A level that is entered is left again, by two contexts alike. -/
theorem Sealed.nested {α : Type} {x : Action κ α} (hx : Sealed x) : Sealed (Action.nested x) where
  blind {c d} h := by
    have hlevel : c.depth < c.interpreter.maxDepth ↔ d.depth < d.interpreter.maxDepth := by
      show c.clearJournal.depth < c.clearJournal.interpreter.maxDepth ↔ _
      rw [h]
      rfl
    by_cases hdepth : c.depth < c.interpreter.maxDepth
    · have henter : (Action.enter c).clearJournal = (Action.enter d).clearJournal :=
        congrArg (fun e : Context κ => { e with depth := e.depth + 1 }) h
      obtain ⟨hresult, hnext⟩ := hx.blind henter
      rw [Action.nested_of_lt x hdepth, Action.nested_of_lt x (hlevel.mp hdepth)]
      exact ⟨hresult, congrArg (fun e : Context κ => { e with depth := e.depth - 1 }) hnext⟩
    · rw [Action.nested_of_not_lt x hdepth, Action.nested_of_not_lt x (hlevel.not.mp hdepth)]
      exact Action.logs_refuse.sealed.blind h
  depth c := by
    by_cases hdepth : c.depth < c.interpreter.maxDepth
    · rw [Action.nested_of_lt x hdepth]
      show (x (Action.enter c)).2.depth - 1 = c.depth
      rw [hx.depth]
      rfl
    · rw [Action.nested_of_not_lt x hdepth]
      rfl
  interpreter c := by
    by_cases hdepth : c.depth < c.interpreter.maxDepth
    · rw [Action.nested_of_lt x hdepth]
      exact hx.interpreter (Action.enter c)
    · rw [Action.nested_of_not_lt x hdepth]
      rfl

end Step

/-- Evaluation keeps to its part of the context as its commands do. -/
theorem congruent_sealed : @Congruent κ (fun x _ => Sealed x) where
  result t := (logs_result t).sealed
  noting he := (congruent_logs.noting he).sealed
  reporting t n e := (congruent_logs.reporting t n e).sealed
  seq {_ _ x _ f _} hx hf := by
    refine ⟨fun {c d} h => ?_, fun c => ?_, fun c => ?_⟩
    · obtain ⟨hresult, hnext⟩ := hx.blind h
      obtain ⟨hresult', hnext'⟩ := (hf (x c).1).blind hnext
      unfold Step.seq
      rw [hresult] at hresult' hnext' ⊢
      exact ⟨hresult', hnext'⟩
    · exact ((hf _).depth _).trans (hx.depth c)
    · exact ((hf _).interpreter _).trans (hx.interpreter c)
  look {_ f _} hf hlook _ := by
    refine ⟨fun {c d} h => ?_, fun c => (hf c).depth c, fun c => (hf c).interpreter c⟩
    have hsame : f d = f c := by
      rw [Context.eq_withJournal h]
      exact hlook c d.journal c.diagnostics
    rw [hsame]
    exact (hf c).blind h
  restoring hx := by
    refine ⟨fun {c d} h => ?_, fun c => hx.depth c, fun _ => rfl⟩
    obtain ⟨hresult, hnext⟩ := hx.blind h
    have hsettings : c.clearJournal.interpreter = d.clearJournal.interpreter := by rw [h]
    exact ⟨hresult,
      congrArg₂ (fun (e : Context κ) i => { e with interpreter := i }) hnext hsettings⟩
  nested := Sealed.nested
  refuse := Action.logs_refuse.sealed

/-- Commands that keep to their part of the context when the texts they run do. -/
def CommandSet.Sealed (set : CommandSet κ) : Prop := set.Keeps (fun x _ => Step.Sealed x)

theorem Builtin.sealed_commandSet (files : Files.Tree) : (commandSet files).Sealed :=
  keeps_commandSet congruent_sealed (fun hx => hx.any.sealed) files

/-! ## Lines one by one -/

namespace Interpreter

/-- Evaluates lines one after the other, up to a request to leave: a line that is a program by its
statements, and a line that is none as one failure. -/
def evaluateLinewise (i : Interpreter) (set : CommandSet κ) :
    List String → Context κ → List Outcome × Context κ
  | [], c => ([], c)
  | line :: rest, c =>
    match i.reader.program line with
    | .error e =>
      let (more, last) := i.evaluateLinewise set rest c
      (.failed (.unreadable e) :: more, last)
    | .ok p =>
      let (outcomes, next) := i.evaluateProgram set p c
      if outcomes.any Outcome.isExit then (outcomes, next)
      else
        let (more, last) := i.evaluateLinewise set rest next
        (outcomes ++ more, last)

variable {set : CommandSet κ} {i : Interpreter}

theorem evaluateLinewise_error {line : String} {e : ReadError}
    (h : i.reader.program line = .error e) (rest : List String) (c : Context κ) :
    i.evaluateLinewise set (line :: rest) c =
      (.failed (.unreadable e) :: (i.evaluateLinewise set rest c).1,
        (i.evaluateLinewise set rest c).2) := by
  simp only [evaluateLinewise, h]

theorem evaluateLinewise_ok {line : String} {p : Program} (h : i.reader.program line = .ok p)
    (rest : List String) (c : Context κ) :
    i.evaluateLinewise set (line :: rest) c =
      if (i.evaluateProgram set p c).1.any Outcome.isExit then i.evaluateProgram set p c
      else ((i.evaluateProgram set p c).1 ++
          (i.evaluateLinewise set rest (i.evaluateProgram set p c).2).1,
        (i.evaluateLinewise set rest (i.evaluateProgram set p c).2).2) := by
  simp only [evaluateLinewise, h]

theorem evaluateProgram_eq_statementsStep (p : Program) (c : Context κ) :
    i.evaluateProgram set p c =
      ((statementsStep (i.evaluateNode set c) p.statements [] (c.under i)).1.2,
        (statementsStep (i.evaluateNode set c) p.statements [] (c.under i)).2.under
          c.interpreter) :=
  rfl

/-- One run over the lines does what the lines do one by one; the journals alone differ, since the
run notes what it reads. -/
theorem linesStep_eq_evaluateLinewise (hset : set.Sealed) (lines : List String) {c d : Context κ}
    (hd : d.clearJournal = (c.under i).clearJournal) (acc : List Outcome) :
    (linesStep i.reader (i.evaluateNode set c) lines acc d).1 =
        acc ++ (i.evaluateLinewise set lines c).1 ∧
      ((linesStep i.reader (i.evaluateNode set c) lines acc d).2.under
          c.interpreter).clearJournal = (i.evaluateLinewise set lines c).2.clearJournal := by
  induction lines generalizing c d acc with
  | nil =>
    rw [linesStep_nil, evaluateLinewise, List.append_nil]
    exact ⟨rfl, congrArg (Context.under · c.interpreter) hd⟩
  | cons line rest ih =>
    cases hp : i.reader.program line with
    | error e =>
      rw [linesStep_cons, hp, seq_noting, evaluateLinewise_error hp]
      obtain ⟨houtcomes, hcontext⟩ := ih (d := d.note (.reading i.reader line)) hd
        (acc ++ [.failed (.unreadable e)])
      refine ⟨houtcomes.trans ?_, hcontext⟩
      rw [List.append_assoc, List.singleton_append]
    | ok p =>
      -- the statements run alike from the context of the lines and from that of the run
      have hsealed : Sealed (statementsStep (i.evaluateNode set c) p.statements []) :=
        @Sequential.statementsStep _ _ congruent_sealed.toSequential _ (i.evaluateNode set c)
          (congruent_sealed.evaluateNode hset i c) p.statements []
      obtain ⟨hresult, hnext⟩ := hsealed.blind (c := d.note (.reading i.reader line)) hd
      have hexits := statementsStep_isExit (i.evaluateNode set c) p.statements List.any_nil
        (c.under i)
      have hdepth := hsealed.depth (c.under i)
      have hsettings := hsealed.interpreter (c.under i)
      obtain ⟨⟨exits, outcomes⟩, next, hrun⟩ : ∃ after next,
        statementsStep (i.evaluateNode set c) p.statements [] (c.under i) = (after, next) :=
        ⟨_, _, rfl⟩
      obtain ⟨after', next', hrun'⟩ : ∃ after next,
        statementsStep (i.evaluateNode set c) p.statements [] (d.note (.reading i.reader line)) =
          (after, next) := ⟨_, _, rfl⟩
      rw [hrun] at hresult hnext hexits hdepth hsettings
      rw [hrun'] at hresult hnext
      obtain rfl : after' = (exits, outcomes) := hresult
      rw [linesStep_of_program hp hrun', evaluateLinewise_ok hp,
        evaluateProgram_eq_statementsStep, hrun]
      simp only at hexits hnext hdepth hsettings ⊢
      rw [← hexits]
      cases exits with
      | true => exact ⟨rfl, congrArg (Context.under · c.interpreter) hnext⟩
      | false =>
        -- between two lines the settings of the context come back, and are replaced again
        have hunder : (next.under c.interpreter).under i = next := Context.under_of_eq hsettings
        have hrest := ih (c := next.under c.interpreter) (d := next') (by rw [hunder, hnext])
          (acc ++ outcomes)
        rw [evaluateNode_congr i (c := c) (d := next.under c.interpreter) hdepth] at hrest
        obtain ⟨houtcomes, hcontext⟩ := hrest
        exact ⟨houtcomes.trans (List.append_assoc _ _ _), hcontext⟩

end Interpreter

/-! ## How many outcomes there are -/

/-- Statements that do not ask to leave have one outcome each. -/
theorem length_statementsStep (evaluate : Node → Action κ (Flow Value)) (ns : List Node)
    (os : List Outcome) (c : Context κ) (h : (statementsStep evaluate ns os c).1.1 = false) :
    (statementsStep evaluate ns os c).1.2.length = os.length + ns.length := by
  induction ns generalizing os c with
  | nil =>
    rw [statementsStep_nil]
    rfl
  | cons n rest ih =>
    rw [statementsStep_cons] at h ⊢
    unfold seq at h ⊢
    have hsnoc : ∀ o : Outcome,
        (os ++ [o]).length + rest.length = os.length + (rest.length + 1) := by
      intro o
      rw [List.length_append, List.length_singleton]
      omega
    rcases hresult : evaluate n c with ⟨e | ⟨v⟩ | ⟨code⟩, next⟩ <;> rw [hresult] at h
    · exact (ih _ _ h).trans (hsnoc _)
    · exact (ih _ _ h).trans (hsnoc _)
    · cases h

namespace Reader

/-- How many outcomes a line has, unless one of them is a request to leave. -/
def outcomeCount (r : Reader) (line : String) : Nat :=
  match r.program line with
  | .ok p => p.statements.length
  | .error _ => 1

/-- How many outcomes lines have together. -/
def totalCount (r : Reader) : List String → Nat
  | [] => 0
  | line :: rest => r.outcomeCount line + r.totalCount rest

/-- One of the lines cannot be read, and there is nothing to run in the others. -/
def OneRefused (r : Reader) (lines : List String) : Prop :=
  ∃ before line after e, lines = before ++ line :: after ∧ r.program line = .error e ∧
    ∀ l ∈ before ++ after, r.program l = .ok ⟨[]⟩

variable {r : Reader}

theorem program_eq_empty_of_outcomeCount {line : String} (h : r.outcomeCount line = 0) :
    r.program line = .ok ⟨[]⟩ := by
  unfold outcomeCount at h
  cases hp : r.program line with
  | error e =>
    rw [hp] at h
    cases h
  | ok p =>
    rw [hp] at h
    rw [show p = ⟨[]⟩ from congrArg Program.mk (List.length_eq_zero_iff.mp h)]

theorem totalCount_append (r : Reader) (xs ys : List String) :
    r.totalCount (xs ++ ys) = r.totalCount xs + r.totalCount ys := by
  induction xs with
  | nil => exact (Nat.zero_add _).symm
  | cons x xs ih => rw [List.cons_append, totalCount, totalCount, ih, Nat.add_assoc]

theorem oneRefused_of_totalCount {lines : List String} {line : String} (hline : line ∈ lines)
    {e : ReadError} (hrefused : r.program line = .error e) (htotal : r.totalCount lines = 1) :
    r.OneRefused lines := by
  obtain ⟨before, after, rfl⟩ := List.append_of_mem hline
  refine ⟨before, line, after, e, rfl, hrefused, fun l hl => ?_⟩
  have hcount : r.outcomeCount line = 1 := by
    unfold outcomeCount
    rw [hrefused]
  -- the refused line uses up the one outcome
  have hothers : r.totalCount (before ++ after) = 0 := by
    rw [totalCount_append, totalCount] at htotal
    rw [totalCount_append]
    omega
  obtain ⟨before', after', hsplit⟩ := List.append_of_mem hl
  rw [hsplit, totalCount_append, totalCount] at hothers
  exact program_eq_empty_of_outcomeCount (by omega)

end Reader

namespace Interpreter

variable {set : CommandSet κ} {i : Interpreter}

theorem length_evaluateLinewise {lines : List String} {c : Context κ}
    (h : (i.evaluateLinewise set lines c).1.any Outcome.isExit = false) :
    (i.evaluateLinewise set lines c).1.length = i.reader.totalCount lines := by
  induction lines generalizing c with
  | nil => rfl
  | cons line rest ih =>
    rw [Reader.totalCount, Reader.outcomeCount]
    cases hp : i.reader.program line with
    | error e =>
      rw [evaluateLinewise_error hp] at h ⊢
      have hrest := ih (c := c) (Bool.or_eq_false_iff.mp h).2
      rw [List.length_cons, hrest, Nat.add_comm]
    | ok p =>
      rw [evaluateLinewise_ok hp] at h ⊢
      cases hexits : (i.evaluateProgram set p c).1.any Outcome.isExit with
      | true =>
        rw [hexits, if_pos rfl, hexits] at h
        cases h
      | false =>
        rw [hexits, if_neg Bool.false_ne_true, List.any_append] at h
        have hrest := ih (Bool.or_eq_false_iff.mp h).2
        have hran := length_statementsStep (i.evaluateNode set c) p.statements [] (c.under i)
          ((statementsStep_isExit _ _ List.any_nil _).trans hexits)
        rw [if_neg Bool.false_ne_true, List.length_append, hrest,
          evaluateProgram_eq_statementsStep, hran, List.length_nil, Nat.zero_add]

/-- Lines with nothing to run have no outcomes. -/
theorem evaluateLinewise_empty (set : CommandSet κ) {lines : List String}
    (h : ∀ l ∈ lines, i.reader.program l = .ok ⟨[]⟩) (rest : List String) (c : Context κ) :
    i.evaluateLinewise set (lines ++ rest) c = i.evaluateLinewise set rest c := by
  induction lines with
  | nil => rfl
  | cons line lines ih =>
    rw [List.cons_append, evaluateLinewise_ok (h line List.mem_cons_self)]
    exact ih (fun l hl => h l (List.mem_cons_of_mem _ hl))

theorem evaluateLinewise_of_oneRefused (set : CommandSet κ) {lines : List String}
    (h : i.reader.OneRefused lines) (c : Context κ) :
    ∃ e, (i.evaluateLinewise set lines c).1 = [.failed (.unreadable e)] := by
  obtain ⟨before, line, after, e, rfl, hrefused, hempty⟩ := h
  have hafter := evaluateLinewise_empty set
    (fun l hl => hempty l (List.mem_append_right _ hl)) [] c
  rw [List.append_nil] at hafter
  refine ⟨e, ?_⟩
  rw [evaluateLinewise_empty set (fun l hl => hempty l (List.mem_append_left _ hl)),
    evaluateLinewise_error hrefused, hafter]
  rfl

end Interpreter

/-! ## The fallback -/

/-- The same outcome, or a text that cannot be read on both sides, for whatever reason. -/
def Outcome.Similar : Outcome → Outcome → Prop
  | .failed (.unreadable _), .failed (.unreadable _) => True
  | o, o' => o = o'

theorem Outcome.Similar.refl (o : Outcome) : o.Similar o := by
  unfold Outcome.Similar
  split
  · trivial
  · rfl

theorem Outcome.Similar.unreadable {e : ReadError} {o : Outcome}
    (h : Outcome.Similar (.failed (.unreadable e)) o) : ∃ e', o = .failed (.unreadable e') := by
  unfold Outcome.Similar at h
  split at h
  · exact ⟨_, rfl⟩
  · exact ⟨e, h.symm⟩

namespace Interpreter

variable {set : CommandSet κ} {i : Interpreter} {source : String} {e : ReadError}

theorem evaluate_of_breaksInside (hset : set.Sealed) (hwhole : i.reader.program source = .error e)
    (hbreaks : Text.breaksInside source.toList = true) (c : Context κ) :
    Alike (i.evaluate set source c) (i.evaluateLinewise set (Text.lines source) c) := by
  obtain ⟨houtcomes, hcontext⟩ := linesStep_eq_evaluateLinewise hset (Text.lines source) (i := i)
    (c := c) (d := ((c.under i).note (.reading i.reader source)).note (.unreadable e)) rfl []
  rw [evaluate_eq_textStep, textStep_eq, hwhole, seq_noting, hbreaks]
  exact ⟨houtcomes, hcontext⟩

theorem evaluate_of_not_breaksInside (set : CommandSet κ)
    (hwhole : i.reader.program source = .error e)
    (hbreaks : Text.breaksInside source.toList = false) (c : Context κ) :
    Alike (i.evaluate set source c) ([.failed (.unreadable e)], c) := by
  rw [evaluate_eq_textStep, textStep_eq, hwhole, seq_noting, hbreaks]
  exact ⟨rfl, rfl⟩

/-- A text that cannot be read as a whole is run line by line when it has a line break in front of
something that is not blank, and otherwise not run at all: it is then one failure. Up to the reports
of what cannot be read, the outcomes are those of its lines in the first case, and in the second
exactly when a single line cannot be read and there is nothing to run in the others. -/
theorem evaluate_linewise_iff (hset : set.Sealed) (hwhole : i.reader.program source = .error e)
    (c : Context κ) :
    (Text.breaksInside source.toList = true →
      Alike (i.evaluate set source c) (i.evaluateLinewise set (Text.lines source) c)) ∧
    (Text.breaksInside source.toList = false →
      Alike (i.evaluate set source c) ([.failed (.unreadable e)], c)) ∧
    (List.Forall₂ Outcome.Similar (i.evaluate set source c).1
        (i.evaluateLinewise set (Text.lines source) c).1 ↔
      Text.breaksInside source.toList = true ∨ i.reader.OneRefused (Text.lines source)) := by
  refine ⟨fun hbreaks => evaluate_of_breaksInside hset hwhole hbreaks c,
    fun hbreaks => evaluate_of_not_breaksInside set hwhole hbreaks c, ?_⟩
  cases hbreaks : Text.breaksInside source.toList with
  | true =>
    refine ⟨fun _ => .inl rfl, fun _ => ?_⟩
    rw [(evaluate_of_breaksInside hset hwhole hbreaks c).1]
    exact List.forall₂_same.mpr (fun o _ => Outcome.Similar.refl o)
  | false =>
    rw [(evaluate_of_not_breaksInside set hwhole hbreaks c).1]
    constructor
    · intro hsimilar
      -- one outcome, which is no request to leave, is one outcome for all lines together
      obtain ⟨o, os, ho, hos, houtcomes⟩ := List.forall₂_cons_left_iff.mp hsimilar
      obtain ⟨e', rfl⟩ := ho.unreadable
      obtain rfl := List.forall₂_nil_left_iff.mp hos
      have hcount : (i.evaluateLinewise set (Text.lines source) c).1.length = _ :=
        length_evaluateLinewise (by rw [houtcomes]; rfl)
      rw [houtcomes] at hcount
      -- were all lines programs, the text would be one, or have a line break inside
      have hrefused : ∃ line ∈ Text.lines source, ∃ e, i.reader.program line = .error e := by
        by_contra hnone
        have hlines : ∀ line ∈ Text.lines source, ∃ p, i.reader.program line = .ok p := by
          intro line hline
          cases hp : i.reader.program line with
          | ok p => exact ⟨p, rfl⟩
          | error e => exact absurd ⟨line, hline, e, hp⟩ hnone
        rcases i.reader.program_of_lines hlines with hok | ⟨_, -, htrue⟩
        · rw [hwhole] at hok
          cases hok
        · rw [hbreaks] at htrue
          cases htrue
      obtain ⟨line, hline, e, hp⟩ := hrefused
      exact .inr (Reader.oneRefused_of_totalCount hline hp hcount.symm)
    · intro hcase
      obtain ⟨e', houtcomes⟩ :=
        evaluateLinewise_of_oneRefused set (hcase.resolve_left Bool.false_ne_true) c
      rw [houtcomes]
      exact .cons trivial .nil

/-- The second line cannot be read, the third asks to leave, and the fourth is not reached. -/
theorem evaluate_linewise_exit :
    Text.breaksInside "echo a\n)\nexit 3\necho b".toList = true ∧
    (evaluate {} (Builtin.commandSet .empty) "echo a\n)\nexit 3\necho b"
      ((Context.new {} "/").withCommands Builtin.registry)).1.length = 3 ∧
    Alike (evaluate {} (Builtin.commandSet .empty) "echo a\n)\nexit 3\necho b"
        ((Context.new {} "/").withCommands Builtin.registry))
      (evaluateLinewise {} (Builtin.commandSet .empty) ["echo a", ")", "exit 3", "echo b"]
        ((Context.new {} "/").withCommands Builtin.registry)) := by
  have hbreaks : Text.breaksInside "echo a\n)\nexit 3\necho b".toList = true := by decide
  have hlines : Text.lines "echo a\n)\nexit 3\necho b" = ["echo a", ")", "exit 3", "echo b"] := by
    decide
  obtain ⟨e, hwhole⟩ : ∃ e, Reader.program {} "echo a\n)\nexit 3\necho b" = .error e := ⟨_, rfl⟩
  have hrun := (evaluate_linewise_iff (i := {}) (Builtin.sealed_commandSet .empty) hwhole
    ((Context.new {} "/").withCommands Builtin.registry)).1 hbreaks
  rw [hlines] at hrun
  exact ⟨hbreaks, by decide +kernel, hrun⟩

/-- A form feed on a line of its own is blank to Unicode and not to the grammar: the line in front
of it is not run, although it is a program. -/
theorem evaluate_linewise_formFeed :
    Text.lines "echo a\n\x0C" = ["echo a", "\x0C"] ∧
    (∃ e, Reader.program {} "echo a\n\x0C" = .error e) ∧
    Reader.program {} "echo a" = .ok ⟨[.command "echo" [.literal (.string "a")] []]⟩ ∧
    ¬ List.Forall₂ Outcome.Similar
      (evaluate {} (Builtin.commandSet .empty) "echo a\n\x0C"
        ((Context.new {} "/").withCommands Builtin.registry)).1
      (evaluateLinewise {} (Builtin.commandSet .empty) ["echo a", "\x0C"]
        ((Context.new {} "/").withCommands Builtin.registry)).1 := by
  have hecho : Reader.program {} "echo a" = .ok ⟨[.command "echo" [.literal (.string "a")] []]⟩ :=
    Reader.program_eq_ok_iff.mpr ⟨[⟨some (.command "echo" [.expr (.bare "a")]), none⟩], rfl, rfl⟩
  refine ⟨by decide, ⟨_, rfl⟩, hecho, fun hsimilar => ?_⟩
  have hone : (evaluate {} (Builtin.commandSet .empty) "echo a\n\x0C"
      ((Context.new {} "/").withCommands Builtin.registry)).1.length = 1 := by decide +kernel
  have htwo : (evaluateLinewise {} (Builtin.commandSet .empty) ["echo a", "\x0C"]
      ((Context.new {} "/").withCommands Builtin.registry)).1.length = 2 := by decide +kernel
  have hlength := hsimilar.length_eq
  omega

end Interpreter

end CommandShell
