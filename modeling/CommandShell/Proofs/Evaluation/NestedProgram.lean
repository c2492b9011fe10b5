/-
# CommandShell.Proofs.Evaluation.NestedProgram -- a program inside a command

`eval` runs its argument as a program. Here this is shown to be the same program as if it stood in
the place of the call: one level deeper, but nothing that a program does depends on how deep it is,
as long as it is not refused a level. Its outcomes are the same, it leaves the same context, and the
events on the way are the same up to the depths that they tell.

The proof compares a step one level deeper with a step where the call stands (`Lifts`). As in a
comparison of two limits, the two may go back to evaluation with different numbers of levels left.
-/
import CommandShell.Proofs.Evaluation.LineByLine
import CommandShell.Proofs.Evaluation.Termination

namespace CommandShell

open Step CommandShell.Action

variable {κ τ υ α : Type}

/-! ## One level deeper -/

namespace Event

/-- The event as it is one level deeper. -/
def deeper : Event → Event
  | .entered depth => .entered (depth + 1)
  | .left depth => .left (depth + 1)
  | e => e

theorem Mere.deeper {e : Event} (h : e.Mere) : e.deeper = e := by
  cases e with
  | entered depth => exact h.elim
  | left depth => exact h.elim
  | _ => rfl

/-- Whether an event says that a level was refused. -/
def isRefusal : Event → Bool
  | .refused _ => true
  | _ => false

end Event

/-- No level is refused on the way from one context to another. -/
def Unrefused (c d : Context κ) : Prop := Adding (fun e => e.isRefusal = false) c d

/-- The context one level deeper, with all that happened so far. -/
def Context.deeper (c : Context κ) : Context κ :=
  { c with depth := c.depth + 1, journal := c.journal.map Event.deeper }

theorem leave_deeper {c : Context κ} (h : 0 < c.depth) : leave c.deeper = (leave c).deeper := by
  have hdepth : c.depth + 1 - 1 = c.depth - 1 + 1 := by omega
  show ({ c.deeper with depth := c.depth + 1 - 1 } : Context κ).note (.left (c.depth + 1)) = _
  rw [hdepth]
  rfl

/-- The builtins see neither the depth nor the events that tell it. -/
theorem Builtin.unseen_deeper : Unseen (Context.deeper (κ := κ)) where
  behind c := ⟨c.journal.map Event.deeper, c.diagnostics, c.interpreter, c.depth + 1, rfl⟩
  note c e he := by
    show c.deeper.note e.deeper = _
    rw [he.deeper]
  bindings _ _ := rfl
  options _ _ := rfl
  workingDirectory _ _ := rfl

/-! ## The same one level deeper -/

namespace Step

/-- From a context one level deeper, if no level is refused there, the first step does what the
second does from the context itself. -/
structure Lifts (x y : Step κ τ) : Prop where
  logs : Logs Any x
  eq (c : Context κ) : Unrefused c.deeper (x c.deeper).2 → x c.deeper = ((y c).1, (y c).2.deeper)

/-- A step that does not see the depth. -/
theorem lifts_of_commutes {x : Step κ τ} (hx : Logs Any x) (h : Commutes Context.deeper x) :
    Lifts x x :=
  ⟨hx, fun c _ => h c⟩

theorem Lifts.seq {x y : Step κ τ} {f g : τ → Step κ υ} (hx : Lifts x y)
    (hf : ∀ t, Lifts (f t) (g t)) : Lifts (seq x f) (seq y g) := by
  refine ⟨hx.logs.seq (fun t => (hf t).logs), fun c hfree => ?_⟩
  obtain ⟨_, -, hfirst⟩ := hx.logs.journal c.deeper
  obtain ⟨_, -, hsecond⟩ := (hf (x c.deeper).1).logs.journal (x c.deeper).2
  obtain ⟨hbefore, hbehind⟩ := Adding.split hfree hfirst hsecond
  have hsame := hx.eq c hbefore
  have hrest : Unrefused (x c.deeper).2 (f (x c.deeper).1 (x c.deeper).2).2 := hbehind
  show f (x c.deeper).1 (x c.deeper).2 = _
  rw [hsame] at hrest ⊢
  exact (hf _).eq (y c).2 hrest

theorem sequential_lifts : @Sequential κ (fun x y => Lifts x y) where
  result t := lifts_of_commutes (logs_result t) (fun _ => rfl)
  noting he := lifts_of_commutes (congruent_logs.noting he)
    ((sequential_commutes Builtin.unseen_deeper.note).noting he)
  seq := Lifts.seq

/-- A step that looks at the context first, but neither at its journal nor at its depth. -/
theorem Lifts.look {f g : Context κ → Step κ τ} (h : ∀ c, Lifts (f c) (g c))
    (hjournal : ∀ c es, f (c.withJournal es) = f c) (hdepth : ∀ c, f c.deeper = f c) :
    Lifts (fun c => f c c) (fun c => g c c) := by
  refine ⟨logs_look (fun c => (h c).logs) hjournal, fun c hfree => ?_⟩
  simp only [hdepth c] at hfree ⊢
  exact (h c).eq c hfree

theorem Lifts.restoring {x y : Step κ τ} (h : Lifts x y) : Lifts (restoring x) (restoring y) := by
  refine ⟨h.logs.restoring, fun c hfree => ?_⟩
  have hinside : Unrefused c.deeper (x c.deeper).2 := hfree
  show ((x c.deeper).1, ({ (x c.deeper).2 with interpreter := c.interpreter } : Context κ)) = _
  rw [h.eq c hinside]
  rfl

/-- A level that is not refused one level deeper is not refused where the call stands. -/
theorem Lifts.nested {x y : Action κ α} (h : Lifts x y) : Lifts (nested x) (nested y) := by
  refine ⟨logs_nested h.logs, fun c hfree => ?_⟩
  by_cases hlt : c.deeper.depth < c.deeper.interpreter.maxDepth
  · have hlt' : c.depth < c.interpreter.maxDepth := Nat.lt_of_succ_lt hlt
    rw [nested_of_lt x hlt] at hfree ⊢
    rw [nested_of_lt y hlt']
    have hinside := h.eq (enter c) (adding_inside h.logs hfree)
    -- the step inside comes back at the depth it was entered at, so there is a level to leave
    have hpositive : 0 < (y (enter c)).2.depth := by
      obtain ⟨_, -, -, hframe⟩ := h.logs (enter c).deeper
      have hdepth := hframe.depth
      rw [hinside] at hdepth
      have hsame : (y (enter c)).2.depth + 1 = c.depth + 1 + 1 := hdepth
      omega
    show ((x (enter c).deeper).1, leave (x (enter c).deeper).2) = _
    rw [hinside]
    exact congrArg (Prod.mk _) (leave_deeper hpositive)
  · rw [nested_of_not_lt x hlt] at hfree
    exact absurd hfree (not_adding rfl nofun)

theorem lifts_readVariable (name : String) :
    Lifts (readVariable name : Action κ (Flow Value)) (readVariable name) := by
  rw [readVariable_eq_seq]
  refine Lifts.look (fun c => ?_) (fun _ _ => rfl) (fun _ => rfl)
  cases c.valueOf? name with
  | some v => exact sequential_lifts.result _
  | none =>
    exact sequential_lifts.seq (sequential_lifts.noting (e := .missed name) trivial)
      (fun _ => sequential_lifts.result _)

theorem coherent_lifts : @Coherent κ (fun x y => Lifts x y) where
  toSequential := sequential_lifts
  reporting t n e := lifts_of_commutes (congruent_logs.reporting t n e) (fun _ => rfl)
  readVariable := lifts_readVariable
  lookup {x y} name h := Lifts.look (f := fun c => x (c.commands.get? name))
    (g := fun c => y (c.commands.get? name)) (fun _ => h _) (fun _ _ => rfl) (fun _ => rfl)
  running {x y} h := (Lifts.look (f := fun c => x c.interpreter.reader)
    (g := fun c => y c.interpreter.reader) (fun _ => h _) (fun _ _ => rfl)
    (fun _ => rfl)).restoring
  nested := Lifts.nested

/-- A step from a deeper context whose journal is another one: the events on the way are those of
the step where the call stands, each one level deeper. -/
theorem Lifts.withJournal {x y : Step κ τ} (h : Lifts x y) (hy : Logs Any y) (c : Context κ)
    (j : List Event)
    (hfree : Unrefused (c.deeper.withJournal j) (x (c.deeper.withJournal j)).2) :
    ∃ es, (y c).2.journal = es ++ c.journal ∧ x (c.deeper.withJournal j) =
      ((y c).1, (y c).2.deeper.withJournal (es.map Event.deeper ++ j)) := by
  obtain ⟨es, -, hblind, -⟩ := hy c
  obtain ⟨fs, -, hblind', -⟩ := h.logs c.clearJournal.deeper
  have hother : x (c.deeper.withJournal j) =
      ((x c.clearJournal.deeper).1, (x c.clearJournal.deeper).2.withJournal (fs ++ j)) := hblind' j
  have hempty : (x c.clearJournal.deeper).2.journal = fs := by
    have hself : x c.clearJournal.deeper = _ := hblind' []
    rw [hself]
    exact List.append_nil fs
  -- what happens does not depend on the journal before it, so nothing is refused from an empty one
  have hclear : Unrefused c.clearJournal.deeper (x c.clearJournal.deeper).2 := by
    obtain ⟨gs, hgs, hkind⟩ := hfree
    rw [hother] at hgs
    obtain rfl : fs = gs := List.append_cancel_right hgs
    exact ⟨fs, hempty.trans (List.append_nil fs).symm, hkind⟩
  have hlift := h.eq c.clearJournal hclear
  have hshallow : y c.clearJournal = ((y c).1, (y c).2.withJournal (es ++ [])) := hblind []
  rw [hshallow, List.append_nil] at hlift
  have hevents : fs = es.map Event.deeper := by
    rw [← hempty, hlift]
    rfl
  refine ⟨es, ?_, ?_⟩
  · have hself : y c = ((y c).1, (y c).2.withJournal (es ++ c.journal)) := hblind c.journal
    rw [hself]
    rfl
  · rw [hother, hlift, hevents]
    rfl

end Step

/-! ## Texts inside commands -/

namespace CommandSet

variable {set : CommandSet κ}

/-- A text inside a command is the same one level deeper, with at least as many levels left where
the call stands: where the first has none left, it is refused one. -/
theorem lifts_reenterWithin (hset : set.Keeps (fun x y => Lifts x y)) {k m : Nat} (hkm : k ≤ m)
    (source : String) : Lifts (set.reenterWithin k source) (set.reenterWithin m source) := by
  obtain ⟨more, rfl⟩ := Nat.exists_eq_add_of_le hkm
  refine coherent_lifts.reenterWithin hset more (fun _ => ?_) k source
  exact ⟨logs_refuse, fun _ hfree => absurd hfree (not_adding rfl nofun)⟩

end CommandSet

/-- The builtins do not see the depth. -/
theorem Builtin.keeps_lifts (files : Files.Tree) :
    (commandSet files).Keeps (fun x y => Lifts x y) :=
  keeps_of_plain sequential_lifts files (fun _ heval reenter values flags =>
    lifts_of_commutes (closed_logs.invoke heval files description reenter values flags).any
      ((closed_commutes unseen_deeper).invoke heval files description reenter values flags))

/-- An evaluation in a deeper context, by the settings of the context, that is refused no level: it
has the same outcomes, and what it leaves is what it leaves one level less deep. -/
theorem Interpreter.evaluate_deeper (files : Files.Tree) (source : String) (c : Context Builtin)
    (j : List Event)
    (hfree : Unrefused (c.deeper.withJournal j) (c.interpreter.evaluate (Builtin.commandSet files)
      source (c.deeper.withJournal j)).2) :
    ∃ es, (c.interpreter.evaluate (Builtin.commandSet files) source c).2.journal =
        es ++ c.journal ∧
      c.interpreter.evaluate (Builtin.commandSet files) source (c.deeper.withJournal j) =
        ((c.interpreter.evaluate (Builtin.commandSet files) source c).1,
          (c.interpreter.evaluate (Builtin.commandSet files) source c).2.deeper.withJournal
            (es.map Event.deeper ++ j)) := by
  have hset := Builtin.keeps_lifts files
  have hlevels : CommandSet.levels c.interpreter c.deeper ≤ CommandSet.levels c.interpreter c :=
    Nat.sub_le_sub_left (Nat.le_succ c.depth) _
  have hnode : ∀ n : Node,
      Lifts (c.interpreter.evaluateNode (Builtin.commandSet files) c.deeper n)
        (c.interpreter.evaluateNode (Builtin.commandSet files) c n) :=
    coherent_lifts.evaluate hset (CommandSet.lifts_reenterWithin hset hlevels)
  have hlogs := logs_textStep c.interpreter.reader
    ((Builtin.logging_commandSet files).logs_evaluateNode c.interpreter c) source []
  have hlift := sequential_lifts.textStep c.interpreter.reader hnode source []
  exact hlift.restoring.withJournal hlogs.restoring c j hfree

/-! ## From outcomes to an answer -/

namespace Builtin

/-- What the outcomes of a program come to: all their values, or else the first outcome that has
none. -/
inductive ComesTo : List Outcome → Except Error (Flow Value) → Prop
  | values (vs : List Value) : ComesTo (vs.map .value) (.ok (.value (.list vs)))
  | failed (vs : List Value) (e : Error) (rest : List Outcome) :
      ComesTo (vs.map .value ++ .failed e :: rest) (.error e)
  | exited (vs : List Value) (code : Int32) (rest : List Outcome) :
      ComesTo (vs.map .value ++ .exited code :: rest) (.ok (.exit code))

/-- The answer of `eval`, given the outcomes of the text. -/
def answerOf (os : List Outcome) : Except Error (Flow Value) :=
  match gather os with
  | .ok (.value vs) => .ok (.value (.list vs))
  | .ok (.exit code) => .ok (.exit code)
  | .error e => .error e

theorem comesTo_answerOf (os : List Outcome) : ComesTo os (answerOf os) := by
  induction os with
  | nil => exact .values []
  | cons o rest ih =>
    cases o with
    | failed e => exact .failed [] e rest
    | exited code => exact .exited [] code rest
    | value v =>
      unfold answerOf at ih ⊢
      rw [gather]
      rcases hrest : gather rest with e | ⟨vs⟩ | ⟨code⟩
      · rw [hrest] at ih
        cases ih with
        | failed vs e more => exact .failed (v :: vs) e more
      · rw [hrest] at ih
        cases ih with
        | values vs => exact .values (v :: vs)
      · rw [hrest] at ih
        cases ih with
        | exited vs code more => exact .exited (v :: vs) code more

theorem evaluateText_eq_seq (reenter : Reentry κ) (values : List Value) :
    evaluateText reenter values = seq (reenter (Value.joined values)) (fun
      | .ok os => result (answerOf os)
      | .error e => result (.error e)) := by
  unfold evaluateText
  rw [bind_eq_seq]
  refine congrArg (seq _) (funext fun r => ?_)
  cases r with
  | error e => rfl
  | ok os =>
    simp only [answerOf]
    rcases gather os with e | ⟨vs⟩ | ⟨code⟩
    · rfl
    · rfl
    · rfl

end Builtin

/-! ## Calls of `eval` -/

namespace CommandSet

/-- The context in which a command runs that is called under a name. -/
def invoking (name : String) (values : List Value) (flags : List Flag) (c : Context κ) :
    Context κ :=
  (c.note (.called name values flags)).note (.invoked name values flags)

/-- A call of a registered name runs what it stands for and notes the answer. -/
theorem call_registered {set : CommandSet κ} {c : Context κ} {name : String} {code : κ}
    (hname : c.commands.get? name = some code) (values : List Value) (flags : List Flag)
    {answer : Except Error (Flow Value)} {next : Context κ}
    (hinvoke : set.invoke (set.reenterWithin (levels c.interpreter c)) code values flags
      (invoking name values flags c) = (answer, next)) :
    set.call name values flags c = (answer, next.note (.answered name answer)) := by
  rw [call, dispatch_eq_calling]
  show set.calling _ name _ flags (c.commands.get? name) (c.note _) = _
  rw [hname, calling]
  show seq (set.invoke (set.reenterWithin (levels c.interpreter c)) code values flags)
    (fun answer => seq (noting (.answered name answer)) (fun _ => result answer))
    (invoking name values flags c) = _
  unfold seq
  rw [hinvoke]
  rfl

/-- A call of `eval` runs its text one level deeper, and answers with what the outcomes come to. -/
theorem call_eval (files : Files.Tree) {c : Context Builtin} {name : String}
    (hname : c.commands.get? name = some .eval) (source : String) (flags : List Flag)
    {r : Except Error (List Outcome)} {next : Context Builtin}
    (hthrough : through (fun text d => d.interpreter.evaluate (Builtin.commandSet files) text d)
      source (invoking name [.string source] flags c) = (r, next)) :
    (Builtin.commandSet files).call name [.string source] flags c =
      (r >>= Builtin.answerOf, next.note (.answered name (r >>= Builtin.answerOf))) := by
  have hjoined : Value.joined [.string source] = source := rfl
  have hcount : levels (invoking name [.string source] flags c).interpreter
      (invoking name [.string source] flags c) ≤ levels c.interpreter c := Nat.le_refl _
  have hreenter := (Builtin.recursive_commandSet files).reenterWithin_eq_through hcount source
  apply call_registered hname
  show Builtin.evaluateText ((Builtin.commandSet files).reenterWithin (levels c.interpreter c))
    [.string source] (invoking name [.string source] flags c) = _
  rw [Builtin.evaluateText_eq_seq, hjoined]
  unfold seq
  rw [hreenter, hthrough]
  cases r with
  | ok os => rfl
  | error e => rfl

/-- A call of `eval` that is refused no level enters the level of its text and leaves it again. -/
theorem call_eval_of_unrefused (files : Files.Tree) {c : Context Builtin} {name : String}
    (hname : c.commands.get? name = some .eval) (source : String) (flags : List Flag)
    {inside : Context Builtin} (hinside : enter (invoking name [.string source] flags c) = inside)
    {run : List Outcome × Context Builtin}
    (hrun : c.interpreter.evaluate (Builtin.commandSet files) source inside = run)
    (hfree : Unrefused c ((Builtin.commandSet files).call name [.string source] flags c).2) :
    (Builtin.commandSet files).call name [.string source] flags c = (Builtin.answerOf run.1,
        (leave run.2).note (.answered name (Builtin.answerOf run.1))) ∧
      Unrefused inside run.2 := by
  by_cases hlt : c.depth < c.interpreter.maxDepth
  · have hcall := call_eval files hname source flags
      (nested_of_lt (c := invoking name [.string source] flags c) _ hlt)
    subst hinside hrun
    refine ⟨hcall, ?_⟩
    rw [hcall] at hfree
    have hlogs := (logs_textStep c.interpreter.reader
      ((Builtin.logging_commandSet files).logs_evaluateNode c.interpreter c.deeper) source
      []).restoring
    obtain ⟨es, -, hes⟩ := hlogs.journal (enter (invoking name [.string source] flags c))
    -- the call stands before the events of the text, and its answer behind them
    exact hfree.between (rfl : _ = [_, _, _] ++ _) hes (rfl : _ = [_, _] ++ _)
  · have hcall := call_eval files hname source flags
      (nested_of_not_lt (c := invoking name [.string source] flags c) _ hlt)
    rw [hcall] at hfree
    have hrefused : Unrefused (invoking name [.string source] flags c)
        ((invoking name [.string source] flags c).note (.refused c.interpreter.maxDepth)) :=
      hfree.between (rfl : _ = [_, _] ++ _) (rfl : _ = [_] ++ _) (rfl : _ = [_] ++ _)
    exact absurd hrefused (not_adding rfl nofun)

end CommandSet

namespace Builtin

open CommandSet

/-- `eval` is the program that it is given, one level deeper. If a call of it is refused no level,
then the context that it leaves is the one that the program leaves when it is evaluated in the place
of the call, and its answer is what the outcomes of the program come to. Apart from the call itself
the same has happened on the way, one level deeper. -/
theorem eval_is_nested_program (files : Files.Tree) {c : Context Builtin} {name : String}
    (hname : c.commands.get? name = some .eval) (source : String) (flags : List Flag)
    {es : List Event}
    (hlog : ((commandSet files).call name [.string source] flags c).2.log = c.log ++ es)
    (hfree : ∀ e ∈ es, e.isRefusal = false) :
    ComesTo (c.interpreter.evaluate (commandSet files) source c).1
        ((commandSet files).call name [.string source] flags c).1 ∧
      ((commandSet files).call name [.string source] flags c).2.clearJournal =
        (c.interpreter.evaluate (commandSet files) source c).2.clearJournal ∧
      ∃ fs, (c.interpreter.evaluate (commandSet files) source c).2.log = c.log ++ fs ∧
        es = [.called name [.string source] flags, .invoked name [.string source] flags,
            .entered (c.depth + 1)] ++ fs.map Event.deeper ++ [.left (c.depth + 1),
          .answered name ((commandSet files).call name [.string source] flags c).1] := by
  obtain ⟨hcall, hinside⟩ :=
    call_eval_of_unrefused files hname source flags rfl rfl (adding_of_log hlog hfree)
  -- inside, the context is one level deeper and has the call in its journal
  have henter : enter (invoking name [.string source] flags c) = c.deeper.withJournal
      (.entered (c.depth + 1) :: (invoking name [.string source] flags c).journal) := rfl
  rw [henter] at hcall hinside
  obtain ⟨fs, hfs, hrun⟩ := Interpreter.evaluate_deeper files source c _ hinside
  obtain ⟨_, -, -, hframe⟩ := (logs_textStep c.interpreter.reader
    ((logging_commandSet files).logs_evaluateNode c.interpreter c) source []).restoring c
  have hdepth : (c.interpreter.evaluate (commandSet files) source c).2.depth = c.depth :=
    hframe.depth
  rw [hrun] at hcall
  rw [hcall] at hlog ⊢
  generalize c.interpreter.evaluate (commandSet files) source c = run at hfs hdepth hlog ⊢
  refine ⟨comesTo_answerOf _, rfl, fs.reverse, ?_, ?_⟩
  · rw [Context.log, hfs, List.reverse_append]
    rfl
  · refine List.append_cancel_left (hlog.symm.trans ?_)
    rw [← hdepth]
    simp [Context.log, Context.note, Context.withJournal, Context.deeper, leave, invoking]

/-- A text that leaves a variable and a contained error behind, and then asks to leave the shell. -/
theorem eval_is_nested_program_exit :
    ((Context.new {} "/").withCommands registry).commands.get? "eval" = some Builtin.eval ∧
    ((commandSet .empty).call "eval" [.string "set a $(nope); exit 3; pwd"] []
      ((Context.new {} "/").withCommands registry)).2.log.any Event.isRefusal = false ∧
    ComesTo (Interpreter.evaluate {} (commandSet .empty) "set a $(nope); exit 3; pwd"
        ((Context.new {} "/").withCommands registry)).1
      ((commandSet .empty).call "eval" [.string "set a $(nope); exit 3; pwd"] []
        ((Context.new {} "/").withCommands registry)).1 ∧
    ((commandSet .empty).call "eval" [.string "set a $(nope); exit 3; pwd"] []
        ((Context.new {} "/").withCommands registry)).2.clearJournal =
      (Interpreter.evaluate {} (commandSet .empty) "set a $(nope); exit 3; pwd"
        ((Context.new {} "/").withCommands registry)).2.clearJournal := by
  have hname : ((Context.new {} "/").withCommands registry).commands.get? "eval" =
      some Builtin.eval := by
    decide +kernel
  have hfree : ((commandSet .empty).call "eval" [.string "set a $(nope); exit 3; pwd"] []
      ((Context.new {} "/").withCommands registry)).2.log.any Event.isRefusal = false := by
    decide +kernel
  have hfresh : ((Context.new {} "/" : Context Builtin).withCommands registry).log = [] := by
    decide +kernel
  obtain ⟨hanswer, hcontext, -⟩ := eval_is_nested_program .empty hname
    "set a $(nope); exit 3; pwd" [] (by rw [hfresh, List.nil_append])
    (fun e he => Bool.not_eq_true _ ▸ List.any_eq_false.mp hfree e he)
  exact ⟨hname, hfree, hanswer, hcontext⟩

end Builtin

end CommandShell
