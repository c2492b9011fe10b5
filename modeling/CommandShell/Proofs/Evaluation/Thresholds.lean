/-
# CommandShell.Proofs.Evaluation.Thresholds -- limits that are not reached do not matter

Two of the settings of evaluation are thresholds: how deep it may go, and what becomes of a variable
that is not set. Each of them makes itself known by an event when it decides anything, a refusal to
go deeper or a variable that is missed. Without such events an evaluation does not depend on them:
under a greater depth and either policy for variables it has the same outcomes and leaves the same
context, through all texts that it runs on the way.

The proof compares a step under one setting with a step under the other (`SameUnder`). The two may
go back to evaluation with different numbers of levels left, as long as the second has more.
-/
import CommandShell.Proofs.Evaluation.Builtins
import CommandShell.Proofs.Evaluation.LineByLine

namespace CommandShell

open Step CommandShell.Action

variable {κ τ υ α : Type}

/-- Whether an event says that a threshold has decided something. -/
def Event.isThreshold : Event → Bool
  | .refused _ | .missed _ => true
  | _ => false

/-- No threshold decides anything on the way from one context to another. -/
def BelowThresholds (c d : Context κ) : Prop :=
  ∃ es, d.journal = es ++ c.journal ∧ ∀ e ∈ es, e.isThreshold = false

/-! ## The same under other settings -/

namespace Step

/-- From every context with the first settings on, if no threshold decides anything, the second
step does under the second settings what the first one does. -/
structure SameUnder (i j : Interpreter) (x y : Step κ τ) : Prop where
  logs : Logs Any x
  eq (c : Context κ) : c.interpreter = i → BelowThresholds c (x c).2 →
    y (c.under j) = ((x c).1, (x c).2.under j)

variable {i j : Interpreter}

/-- A step that does not see the settings. -/
theorem sameUnder_of_blind {x : Step κ τ} (hx : Logs Any x)
    (h : ∀ c, x (c.under j) = ((x c).1, (x c).2.under j)) : SameUnder i j x x :=
  ⟨hx, fun c _ _ => h c⟩

theorem SameUnder.seq {x y : Step κ τ} {f g : τ → Step κ υ} (hx : SameUnder i j x y)
    (hf : ∀ t, SameUnder i j (f t) (g t)) : SameUnder i j (seq x f) (seq y g) := by
  refine ⟨hx.logs.seq (fun t => (hf t).logs), fun c hi hbelow => ?_⟩
  obtain ⟨_, -, -, hframe⟩ := hx.logs c
  obtain ⟨_, -, hfirst⟩ := hx.logs.journal c
  obtain ⟨_, -, hsecond⟩ := (hf (x c).1).logs.journal (x c).2
  obtain ⟨hbefore, hbehind⟩ := Adding.split hbelow hfirst hsecond
  show g (y (c.under j)).1 (y (c.under j)).2 = _
  rw [hx.eq c hi hbefore]
  exact (hf _).eq (x c).2 (hframe.interpreter.trans hi) hbehind

theorem sequential_sameUnder (i j : Interpreter) :
    @Sequential κ (fun x y => SameUnder i j x y) where
  result t := sameUnder_of_blind (logs_result t) (fun _ => rfl)
  noting he := sameUnder_of_blind (congruent_logs.noting he) (fun _ => rfl)
  seq := SameUnder.seq

/-- A step that looks at the context first, but neither at its journal nor at its settings. -/
theorem SameUnder.look {f g : Context κ → Step κ τ} (h : ∀ c, SameUnder i j (f c) (g c))
    (hjournal : ∀ c es, f (c.withJournal es) = f c) (hsettings : ∀ c, g (c.under j) = g c) :
    SameUnder i j (fun c => f c c) (fun c => g c c) := by
  refine ⟨logs_look (fun c => (h c).logs) hjournal, fun c hi hbelow => ?_⟩
  show g (c.under j) (c.under j) = _
  rw [hsettings c]
  exact (h c).eq c hi hbelow

/-- A step that reads a text as the settings say, where both say the same about reading. -/
theorem SameUnder.running {f g : Reader → Step κ τ} (hreader : j.reader = i.reader)
    (h : ∀ reader, SameUnder i j (f reader) (g reader)) :
    SameUnder i j (restoring (fun c => f c.interpreter.reader c))
      (restoring (fun c => g c.interpreter.reader c)) := by
  refine ⟨(logs_look (fun c => (h c.interpreter.reader).logs) (fun _ _ => rfl)).restoring,
    fun c hi hbelow => ?_⟩
  have hrun : g c.interpreter.reader (c.under j) = ((f c.interpreter.reader c).1,
      (f c.interpreter.reader c).2.under j) := (h _).eq c hi hbelow
  show ((g j.reader (c.under j)).1, (g j.reader (c.under j)).2.under j) = _
  rw [hreader, ← hi, hrun]
  rfl

end Step

variable {i j : Interpreter}

/-! ## Nodes -/

/-- Where the first settings let evaluation go deeper, the second ones do. -/
theorem sameUnder_nested (hdepth : i.maxDepth ≤ j.maxDepth) {x y : Action κ α}
    (h : SameUnder i j x y) : SameUnder i j (nested x) (nested y) := by
  refine ⟨logs_nested h.logs, fun c hi hbelow => ?_⟩
  by_cases hlt : c.depth < c.interpreter.maxDepth
  · have hlt' : (c.under j).depth < (c.under j).interpreter.maxDepth := by
      show c.depth < j.maxDepth
      rw [hi] at hlt
      omega
    rw [nested_of_lt x hlt] at hbelow ⊢
    rw [nested_of_lt y hlt']
    have hinside : BelowThresholds (enter c) (x (enter c)).2 := adding_inside h.logs hbelow
    show ((y ((enter c).under j)).1, leave (y ((enter c).under j)).2) = _
    rw [h.eq (enter c) hi hinside]
    rfl
  · rw [nested_of_not_lt x hlt] at hbelow
    exact absurd hbelow (not_adding rfl nofun)

theorem sameUnder_readVariable (name : String) :
    SameUnder i j (readVariable name : Action κ (Flow Value)) (readVariable name) := by
  refine ⟨congruent_logs.coherent.readVariable name, fun c hi hbelow => ?_⟩
  have hvalue : (c.under j).valueOf? name = c.valueOf? name := rfl
  simp only [readVariable_eq_seq, hvalue] at hbelow ⊢
  cases hget : c.valueOf? name with
  | some v => rfl
  | none =>
    rw [hget] at hbelow
    exact absurd hbelow (not_adding rfl nofun)

theorem related_sameUnder (hdepth : i.maxDepth ≤ j.maxDepth) :
    @Related κ (fun x y => SameUnder i j x y) :=
  (sequential_sameUnder i j).related
    (fun t n e => sameUnder_of_blind (congruent_logs.reporting t n e) (fun _ => rfl))
    sameUnder_readVariable (sameUnder_nested hdepth)

/-! ## Commands -/

theorem sameUnder_lookup {x y : Option κ → Step κ (Except Error (Flow Value))} (name : String)
    (h : ∀ code?, SameUnder i j (x code?) (y code?)) :
    SameUnder i j (fun c => x (c.commands.get? name) c) (fun c => y (c.commands.get? name) c) :=
  SameUnder.look (f := fun c => x (c.commands.get? name))
    (g := fun c => y (c.commands.get? name)) (fun _ => h _) (fun _ _ => rfl) (fun _ => rfl)

/-- Under settings that read in the same way, the second going at least as deep. -/
theorem coherent_sameUnder (hreader : j.reader = i.reader) (hdepth : i.maxDepth ≤ j.maxDepth) :
    @Coherent κ (fun x y => SameUnder i j x y) where
  toSequential := sequential_sameUnder i j
  reporting t n e := sameUnder_of_blind (congruent_logs.reporting t n e) (fun _ => rfl)
  readVariable := sameUnder_readVariable
  lookup := sameUnder_lookup
  running := SameUnder.running hreader
  nested := sameUnder_nested hdepth

namespace CommandSet

variable {set : CommandSet κ}

theorem sameUnder_dispatch {f g : Reentry κ}
    (h : ∀ code values flags,
      SameUnder i j (set.invoke f code values flags) (set.invoke g code values flags))
    (name : String) (values : List Value) (flags : List Flag) :
    SameUnder i j (set.dispatch f name values flags) (set.dispatch g name values flags) :=
  (sequential_sameUnder i j).dispatch sameUnder_lookup h name values flags

/-- A text inside a command is the same under the second settings, with at least as many levels
left: where the first has none left, it is refused one. -/
theorem sameUnder_reenterWithin (hset : set.Keeps (fun x y => SameUnder i j x y))
    (hreader : j.reader = i.reader) (hdepth : i.maxDepth ≤ j.maxDepth) {k m : Nat} (hkm : k ≤ m)
    (source : String) :
    SameUnder i j (set.reenterWithin k source) (set.reenterWithin m source) := by
  obtain ⟨more, rfl⟩ := Nat.exists_eq_add_of_le hkm
  refine (coherent_sameUnder hreader hdepth).reenterWithin hset more (fun _ => ?_) k source
  exact ⟨logs_refuse, fun c _ hbelow => absurd hbelow (not_adding rfl nofun)⟩

end CommandSet

/-! ## Builtins -/

namespace Builtin

/-- The builtins do not see the settings. -/
theorem keeps_sameUnder (files : Files.Tree) (i j : Interpreter) :
    (commandSet files).Keeps (fun x y => SameUnder i j x y) :=
  keeps_of_plain (sequential_sameUnder i j) files (fun _ heval reenter values flags =>
    sameUnder_of_blind (closed_logs.invoke heval files description reenter values flags).any
      ((closed_commutes (unseen_mapUnseen (fun _ => j) id)).invoke heval files description reenter
        values flags))

end Builtin

/-! ## Whole evaluations -/

namespace Interpreter

/-- The depth limit and the policy for missing variables matter only when they decide something. If
an evaluation with the builtins is never refused a level and never misses a variable, then settings
that read in the same way and let evaluation go at least as deep give the same outcomes and leave
the same context: variables, options, commands, working directory, reports and all. -/
theorem evaluate_below_thresholds (files : Files.Tree) {i j : Interpreter}
    (hreader : j.reader = i.reader) (hdepth : i.maxDepth ≤ j.maxDepth) (source : String)
    (c : Context Builtin) {es : List Event}
    (hlog : (i.evaluate (Builtin.commandSet files) source c).2.log = c.log ++ es)
    (hbelow : ∀ e ∈ es, e.isThreshold = false) :
    j.evaluate (Builtin.commandSet files) source c =
      i.evaluate (Builtin.commandSet files) source c := by
  have hset := Builtin.keeps_sameUnder files i j
  have hlevels : CommandSet.levels i c ≤ CommandSet.levels j c := by
    unfold CommandSet.levels
    omega
  have hnode : ∀ n : Node, SameUnder i j (i.evaluateNode (Builtin.commandSet files) c n)
      (j.evaluateNode (Builtin.commandSet files) c n) :=
    (related_sameUnder hdepth).evaluate (CommandSet.sameUnder_dispatch (hset _ _ (fun source =>
      CommandSet.sameUnder_reenterWithin hset hreader hdepth hlevels source)))
  have hrun := ((sequential_sameUnder i j).textStep i.reader hnode source []).eq (c.under i) rfl ?_
  · rw [evaluate_eq_textStep, evaluate_eq_textStep, hreader]
    have hsame : (c.under i).under j = c.under j := rfl
    rw [hsame] at hrun
    rw [hrun]
    rfl
  · refine ⟨es.reverse, ?_, fun e he => hbelow e (List.mem_reverse.mp he)⟩
    have hjournal := congrArg List.reverse hlog
    rw [Context.log, List.reverse_reverse, Context.log, List.reverse_append, List.reverse_reverse]
      at hjournal
    exact hjournal

/-- Three levels are enough for a command inside `eval`, and where the variable is set the policy
for missing ones is not asked. -/
theorem evaluate_below_thresholds_eval :
    (evaluate { maxDepth := 3 } (Builtin.commandSet .empty) "set a 1; eval \"echo $a\""
      ((Context.new {} "/").withCommands Builtin.registry)).2.log.any Event.isThreshold = false ∧
    evaluate { maxDepth := 9, lenient := true } (Builtin.commandSet .empty)
        "set a 1; eval \"echo $a\"" ((Context.new {} "/").withCommands Builtin.registry) =
      evaluate { maxDepth := 3 } (Builtin.commandSet .empty) "set a 1; eval \"echo $a\""
        ((Context.new {} "/").withCommands Builtin.registry) := by
  have hbelow : (evaluate { maxDepth := 3 } (Builtin.commandSet .empty) "set a 1; eval \"echo $a\""
      ((Context.new {} "/").withCommands Builtin.registry)).2.log.any Event.isThreshold =
        false := by
    decide +kernel
  have hfresh : ((Context.new {} "/" : Context Builtin).withCommands Builtin.registry).log =
      [] := by
    decide +kernel
  refine ⟨hbelow, evaluate_below_thresholds .empty (i := { maxDepth := 3 })
    (j := { maxDepth := 9, lenient := true }) rfl (by decide) _ _ ?_
    (fun e he => Bool.not_eq_true _ ▸ List.any_eq_false.mp hbelow e he)⟩
  rw [hfresh, List.nil_append]

end Interpreter

end CommandShell
