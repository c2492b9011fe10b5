/-
# CommandShell.Proofs.Evaluation.Termination -- evaluation comes to an end

A command may run a text of its own, and the nodes of that text have nothing to do with the node the
command stands in. So evaluation is a recursion on something else than syntax: a pass over the
statements of a text, in which a command can go back to evaluation one level deeper. The number of
levels that are left is what gets smaller.

The evaluator counts these levels down in `reenterWithin`. Here the count is shown to be no part of
what evaluation does: any count that covers the levels left gives the same (`agreeFrom_levels`), and
without it evaluation is the one solution of its own recursion.
-/
import CommandShell.Proofs.Evaluation.Builtins

namespace CommandShell

open Step

variable {κ τ : Type}

/-! ## Agreement below a depth -/

theorem Action.nested_congr {α : Type} {x y : Action κ α} {c : Context κ}
    (h : x (enter c) = y (enter c)) : nested x c = nested y c := by
  unfold nested
  rw [h]

namespace Step

/-- Two steps that agree in contexts with the given settings which are at least so deep; the first
logs, so it leaves settings and depth as they are. -/
structure AgreeFrom (i : Interpreter) (low : Nat) (x y : Step κ τ) : Prop where
  logs : Logs Any x
  eq : ∀ c, c.interpreter = i → low ≤ c.depth → x c = y c

variable {i : Interpreter} {low : Nat}

theorem AgreeFrom.refl {x : Step κ τ} (hx : Logs Any x) : AgreeFrom i low x x :=
  ⟨hx, fun _ _ _ => rfl⟩

/-- Inside a level it is enough to agree one level deeper. -/
theorem AgreeFrom.nested {α : Type} {x y : Action κ α} (h : AgreeFrom i (low + 1) x y) :
    AgreeFrom i low (Action.nested x) (Action.nested y) := by
  refine ⟨Action.logs_nested h.logs, fun c hi hlow => ?_⟩
  exact Action.nested_congr (h.eq (Action.enter c) hi (Nat.succ_le_succ hlow))

theorem AgreeFrom.mono {x y : Step κ τ} {high : Nat} (h : AgreeFrom i low x y)
    (hle : low ≤ high) : AgreeFrom i high x y :=
  ⟨h.logs, fun c hi hhigh => h.eq c hi (Nat.le_trans hle hhigh)⟩

end Step

theorem congruent_agreeFrom (i : Interpreter) (low : Nat) :
    @Congruent κ (fun x y => AgreeFrom i low x y) where
  result t := .refl (logs_result t)
  noting he := .refl (congruent_logs.noting he)
  reporting t n e := .refl (congruent_logs.reporting t n e)
  seq hx hf := by
    refine ⟨hx.logs.seq (fun t => (hf t).logs), fun c hi hlow => ?_⟩
    obtain ⟨_, -, -, hframe⟩ := hx.logs c
    unfold Step.seq
    rw [← hx.eq c hi hlow]
    exact (hf _).eq _ (hframe.interpreter.trans hi) (hframe.depth ▸ hlow)
  look hf hlook _ :=
    ⟨logs_look (fun c => (hf c).logs) (fun c j => hlook c j c.diagnostics),
      fun c hi hlow => (hf c).eq c hi hlow⟩
  restoring h := by
    refine ⟨h.logs.restoring, fun c hi hlow => ?_⟩
    unfold Step.restoring
    rw [h.eq c hi hlow]
  nested h := (h.mono (Nat.le_succ low)).nested
  refuse := .refl Action.logs_refuse

/-! ## The count of levels -/

/-- What evaluation does with a text in a context. -/
abbrev Evaluation (κ : Type) : Type := String → Context κ → List Outcome × Context κ

namespace CommandSet

variable {set : CommandSet κ}

/-- Commands that log, and that agree where the ways back to evaluation agree. -/
structure Recursive (set : CommandSet κ) : Prop where
  logging : set.Logging
  agree (i : Interpreter) (low : Nat) : set.Keeps (fun x y => AgreeFrom i low x y)

theorem reenterWithin_of_not_lt (count : Nat) (source : String) {c : Context κ}
    (h : ¬ c.depth < c.interpreter.maxDepth) :
    set.reenterWithin count source c = Action.refuse c := by
  cases count with
  | zero => rfl
  | succ count =>
    rw [reenterWithin_succ]
    exact Action.nested_of_not_lt _ h

/-- Two counts that cover the levels left from a depth on give the same there, by induction on the
counts: one less is enough one level deeper. -/
theorem Recursive.agreeFrom_levels (hset : set.Recursive) (i : Interpreter) (k m : Nat) {low : Nat}
    (hk : i.maxDepth - low ≤ k) (hm : i.maxDepth - low ≤ m) (source : String) :
    AgreeFrom i low (set.reenterWithin k source) (set.reenterWithin m source) := by
  induction k generalizing m low source with
  | zero =>
    refine ⟨hset.logging.logs_reenterWithin 0 source, fun c hi hlow => ?_⟩
    have hdepth : ¬ c.depth < c.interpreter.maxDepth := by
      rw [hi]
      omega
    rw [reenterWithin_of_not_lt 0 source hdepth, reenterWithin_of_not_lt m source hdepth]
  | succ k ih =>
    cases m with
    | zero =>
      refine ⟨hset.logging.logs_reenterWithin (k + 1) source, fun c hi hlow => ?_⟩
      have hdepth : ¬ c.depth < c.interpreter.maxDepth := by
        rw [hi]
        omega
      rw [reenterWithin_of_not_lt (k + 1) source hdepth, reenterWithin_of_not_lt 0 source hdepth]
    | succ m =>
      have hdeeper : ∀ text, AgreeFrom i (low + 1) (set.reenterWithin k text)
          (set.reenterWithin m text) :=
        fun text => ih m (by omega) (by omega) text
      have hcongruent := @congruent_agreeFrom κ i (low + 1)
      have heval := hcongruent.coherent.evaluate (hset.agree i (low + 1)) hdeeper
      rw [reenterWithin_succ, reenterWithin_succ]
      exact (hcongruent.coherent.reentry heval source).nested

/-- How a command goes back to evaluation, given what evaluation does: one level deeper, if there is
a level left. -/
def through (again : Evaluation κ) : Reentry κ := fun source =>
  Action.nested (seq (again source) (fun outcomes => result (.ok outcomes)))

/-- What a command gets back depends on evaluation in the deeper context alone. -/
theorem nested_outcomes_congr {x y : Step κ (List Outcome)} {c : Context κ}
    (h : x (Action.enter c) = y (Action.enter c)) :
    Action.nested (seq x (fun outcomes => result (.ok outcomes))) c =
      Action.nested (seq y (fun outcomes => result (.ok outcomes))) c := by
  refine Action.nested_congr ?_
  unfold seq
  rw [h]

end CommandSet

/-! ## Evaluation as a recursion -/

namespace Interpreter

open CommandSet

variable {set : CommandSet κ}

/-- One pass over the statements of a text, given what evaluation does when a command goes back to
it. -/
def pass (i : Interpreter) (set : CommandSet κ) (again : Evaluation κ) : Evaluation κ :=
  fun source c => i.runOver (Node.evaluate (set.dispatch (through again))) collect source ([], c)

/-- Runs of a text are the same if the ways back to evaluation agree as deep as the context. -/
theorem runOver_congr (hset : set.Recursive) {i : Interpreter} {c : Context κ} {f g : Reentry κ}
    (h : ∀ text, AgreeFrom i c.depth (f text) (g text)) (source : String) :
    i.runOver (Node.evaluate (set.dispatch f)) collect source ([], c) =
      i.runOver (Node.evaluate (set.dispatch g)) collect source ([], c) := by
  have hcongruent := @congruent_agreeFrom κ i c.depth
  have heval := hcongruent.coherent.evaluate (hset.agree i c.depth) h
  have htext := (hcongruent.textStep i.reader heval source []).eq { c with interpreter := i } rfl
    (Nat.le_refl _)
  show (_, _) = (_, _)
  unfold textStep at htext
  rw [htext]

end Interpreter

namespace CommandSet

variable {set : CommandSet κ}

/-- A count that covers the levels left does what evaluation itself does one level deeper. -/
theorem Recursive.reenterWithin_eq_through (hset : set.Recursive) {count : Nat} {c : Context κ}
    (hcount : levels c.interpreter c ≤ count) (source : String) :
    set.reenterWithin count source c =
      through (fun text d => d.interpreter.evaluate set text d) source c := by
  by_cases hdepth : c.depth < c.interpreter.maxDepth
  · unfold levels at hcount
    obtain ⟨count, rfl⟩ : ∃ less, count = less + 1 := ⟨count - 1, by omega⟩
    rw [reenterWithin_succ]
    -- inside, both counts cover the levels left from the deeper context on
    have hagree : ∀ text, AgreeFrom c.interpreter (c.depth + 1) (set.reenterWithin count text)
        (set.reenterWithin (levels c.interpreter (Action.enter c)) text) :=
      hset.agreeFrom_levels c.interpreter _ _ (by omega) (Nat.le_refl _)
    have hrun : c.interpreter.runOver (Node.evaluate (set.dispatch (set.reenterWithin count)))
        collect source ([], Action.enter c) =
        c.interpreter.evaluate set source (Action.enter c) :=
      Interpreter.runOver_congr hset hagree source
    exact nested_outcomes_congr hrun
  · rw [reenterWithin_of_not_lt count source hdepth]
    exact (Action.nested_of_not_lt _ hdepth).symm

theorem Recursive.reenter_eq_through (hset : set.Recursive) (source : String) :
    set.reenter source = through (fun text d => d.interpreter.evaluate set text d) source := by
  funext c
  exact hset.reenterWithin_eq_through (Nat.le_refl _) source

end CommandSet

namespace Interpreter

open CommandSet

variable {set : CommandSet κ}

/-- What evaluation does in a context is settled by what it does where fewer levels are left. -/
theorem evaluate_eq_pass (hset : set.Recursive) (i : Interpreter) (source : String)
    (c : Context κ) {again : Evaluation κ}
    (hagain : ∀ text d, d.interpreter = i → levels i d < levels i c →
      again text d = i.evaluate set text d) :
    i.evaluate set source c = i.pass set again source c := by
  refine runOver_congr hset (fun text => ⟨hset.logging.logs_reenterWithin _ text, ?_⟩) source
  intro d hi hdepth
  have hlevels : levels d.interpreter d ≤ levels i c := by
    rw [hi]
    unfold levels
    omega
  rw [hset.reenterWithin_eq_through hlevels text]
  by_cases hlimit : d.depth < d.interpreter.maxDepth
  · have hdeeper : levels i (Action.enter d) < levels i c := by
      rw [hi] at hlimit
      show i.maxDepth - (d.depth + 1) < i.maxDepth - c.depth
      omega
    have hsame : d.interpreter.evaluate set text (Action.enter d) =
        again text (Action.enter d) := by
      rw [hi]
      exact (hagain text (Action.enter d) hi hdeeper).symm
    exact nested_outcomes_congr hsame
  · rw [through, through]
    exact (Action.nested_of_not_lt _ hlimit).trans (Action.nested_of_not_lt _ hlimit).symm

/-- There is no other solution of the recursion, by induction on the levels left. -/
theorem eq_evaluate_of_pass (hset : set.Recursive) {again : Evaluation κ}
    (hagain : ∀ text d, again text d = d.interpreter.pass set again text d) (text : String)
    (c : Context κ) : again text c = c.interpreter.evaluate set text c := by
  induction hlevels : levels c.interpreter c using Nat.strongRecOn generalizing text c with
  | ind n ih =>
    rw [hagain text c]
    refine (evaluate_eq_pass hset c.interpreter text c ?_).symm
    intro text' d hi hless
    have hsmaller : levels d.interpreter d < n := by
      rw [← hlevels, hi]
      exact hless
    rw [← hi]
    exact ih _ hsmaller text' d rfl

end Interpreter

/-! ## The builtins -/

theorem Builtin.recursive_commandSet (files : Files.Tree) : (commandSet files).Recursive where
  logging := logging_commandSet files
  agree i low := keeps_commandSet (congruent_agreeFrom i low) (fun hx => .refl hx.any) files

namespace Interpreter

open CommandSet

/-- Evaluation comes to an end, whatever the text, the settings and the context. It is a pass over
the text in which a command goes back to evaluation, and

* what it does in a context is settled by what it does where fewer levels are left;
* so its recursion has no other solution;
* a command goes back one level deeper, with the settings that the context has;
* and where no level is left, both a way back and the call of a command fail. -/
theorem evaluate_terminates (files : Files.Tree) (i : Interpreter) (source : String)
    (c : Context Builtin) :
    (∀ again : Evaluation Builtin, (∀ text d, d.interpreter = i → levels i d < levels i c →
        again text d = i.evaluate (Builtin.commandSet files) text d) →
      i.evaluate (Builtin.commandSet files) source c =
        i.pass (Builtin.commandSet files) again source c) ∧
    (∀ again : Evaluation Builtin, (∀ text d, again text d =
        d.interpreter.pass (Builtin.commandSet files) again text d) →
      ∀ text d, again text d = d.interpreter.evaluate (Builtin.commandSet files) text d) ∧
    (∀ text, (Builtin.commandSet files).reenter text =
      through (fun text d => d.interpreter.evaluate (Builtin.commandSet files) text d) text) ∧
    (∀ d : Context Builtin, d.interpreter.maxDepth ≤ d.depth →
      (∀ text, (Builtin.commandSet files).reenter text d =
        (.error (.depthExceeded d.interpreter.maxDepth),
          d.note (.refused d.interpreter.maxDepth))) ∧
      ∀ name arguments flags, d.interpreter.evaluateNode (Builtin.commandSet files) d
          (.command name arguments flags) d =
        (.error (.depthExceeded d.interpreter.maxDepth),
          d.note (.refused d.interpreter.maxDepth))) := by
  have hset := Builtin.recursive_commandSet files
  refine ⟨fun again => evaluate_eq_pass hset i source c, fun again => eq_evaluate_of_pass hset,
    hset.reenter_eq_through, fun d hlimit => ⟨fun text => ?_, fun name arguments flags => ?_⟩⟩
  · exact reenterWithin_of_not_lt _ text (Nat.not_lt.mpr hlimit)
  · rw [evaluateNode, evaluate_command]
    exact Action.nested_of_not_lt _ (Nat.not_lt.mpr hlimit)

end Interpreter

end CommandShell
