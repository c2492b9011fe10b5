/-
# CommandShell.Proofs.Evaluation.Builtins -- what the builtins write to the journal

Fourteen of the builtins do their work in one go: they run no program text, never ask to leave the
shell, and write nothing to the journal but changes of options and of the working directory. The
other two are `eval`, which runs a text, and `exit`.
-/
import CommandShell.Proofs.Evaluation.BuiltinSteps
import CommandShell.Proofs.Evaluation.Journal

namespace CommandShell

open Step CommandShell.Action

/-- The events that a builtin causes by itself. -/
def Event.Minor : Event → Prop
  | .pushed _ _ | .popped _ _ | .moved _ => True
  | _ => False

theorem Event.Minor.mere {e : Event} (h : e.Minor) : e.Mere := by
  cases e with
  | pushed | popped | moved => trivial
  | _ => exact h.elim

namespace Builtin

variable {κ : Type} {A : Event → Prop}

/-! ## Changes -/

/-- A change that may fail, and then changes nothing. -/
theorem logs_tryUpdate {f : Context κ → Except Error (Context κ)}
    (hf : ∀ c, (∃ e, ∀ j, f (c.withJournal j) = .error e) ∨
      ∃ next es, (∀ e ∈ es, A e) ∧ Frame es c next ∧
        ∀ j, f (c.withJournal j) = .ok (next.withJournal (es ++ j))) :
    Logs A (tryUpdate f : Action κ Unit) := by
  intro c
  rcases hf c with ⟨e, herror⟩ | ⟨next, es, hes, hframe, hok⟩
  · have hself : f c = .error e := herror c.journal
    refine ⟨[], fun _ he => (List.not_mem_nil he).elim, ?_, ?_⟩
    · intro j
      simp only [tryUpdate, herror j, hself]
      rfl
    · simp only [tryUpdate, hself]
      exact Frame.refl c
  · have hself : f c = .ok (next.withJournal (es ++ c.journal)) := hok c.journal
    refine ⟨es, hes, ?_, ?_⟩
    · intro j
      simp only [tryUpdate, hok j, hself]
      rfl
    · simp only [tryUpdate, hself]
      exact ⟨hframe.depth, hframe.interpreter, hframe.commands, hframe.diagnostics⟩

theorem logs_update {f : Context κ → Context κ}
    (hblind : ∀ c j, f (c.withJournal j) = (f c).withJournal j) (hframe : ∀ c, Frame [] c (f c)) :
    Logs A (update f : Action κ Unit) :=
  logs_change _ hblind hframe

theorem logs_moveTo (files : Files.Tree) (path : RawText) :
    Logs A (tryUpdate (·.moveTo files path) : Action κ Unit) := by
  refine logs_tryUpdate (fun c => ?_)
  have hlook : ∀ j, (c.withJournal j).absolutePath path = c.absolutePath path := fun _ => rfl
  cases henter : files.enter (c.absolutePath path) with
  | error failure =>
    refine .inl ⟨.badPath (c.absolutePath path) failure, fun j => ?_⟩
    simp only [Context.moveTo, hlook j, henter]
  | ok directory =>
    refine .inr ⟨{ c with workingDirectory := directory }, [],
      fun _ he => (List.not_mem_nil he).elim, .silent rfl rfl rfl rfl rfl, fun j => ?_⟩
    simp only [Context.moveTo, hlook j, henter]
    rfl

theorem logs_exportVariable (name : String) :
    Logs A (tryUpdate (fun c =>
      match c.exportVariable? name with
      | some next => .ok next
      | none => .error (.unsetVariable name)) : Action κ Unit) := by
  refine logs_tryUpdate (fun c => ?_)
  cases hget : c.bindings.get? name with
  | none =>
    refine .inl ⟨.unsetVariable name, fun j => ?_⟩
    have hnone : (c.withJournal j).exportVariable? name = none := by
      show (c.bindings.get? name).map _ = none
      rw [hget]
      rfl
    rw [hnone]
  | some v =>
    refine .inr ⟨c.setVariable name v.value true, [],
      fun _ he => (List.not_mem_nil he).elim, .silent rfl rfl rfl rfl rfl, fun j => ?_⟩
    have hsome : (c.withJournal j).exportVariable? name =
        some ((c.setVariable name v.value true).withJournal j) := by
      show (c.bindings.get? name).map _ = _
      rw [hget]
      rfl
    rw [hsome]
    rfl

theorem logs_pushOption (name : String) (value : Value) :
    Logs Event.Minor (tryUpdate (·.pushOption name value) : Action κ Unit) := by
  refine logs_tryUpdate (fun c => ?_)
  cases hpush : c.options.push name value with
  | error e =>
    refine .inl ⟨e, fun j => ?_⟩
    show (c.options.push name value >>= fun _ => _) = _
    rw [hpush]
    rfl
  | ok options =>
    refine .inr ⟨{ c with options := options }, [.pushed name value],
      fun e he => by rw [List.mem_singleton.mp he]; trivial, .silent rfl rfl rfl rfl rfl,
      fun j => ?_⟩
    show (c.options.push name value >>= fun _ => _) = _
    rw [hpush]
    rfl

theorem logs_popOption (name : String) :
    Logs Event.Minor (fun c =>
      match c.popOption name with
      | .ok (value, next) => (.ok value, next)
      | .error e => (.error e, c) : Action κ Value) := by
  intro c
  cases hpop : c.options.pop name with
  | error e =>
    have hfail : ∀ j, (c.withJournal j).popOption name = .error e := by
      intro j
      show (c.options.pop name >>= fun _ => _) = _
      rw [hpop]
      rfl
    have hself : c.popOption name = .error e := hfail c.journal
    refine ⟨[], fun _ he => (List.not_mem_nil he).elim, fun j => ?_, ?_⟩
    · simp only [hfail j, hself]
      rfl
    · simp only [hself]
      exact Frame.refl c
  | ok popped =>
    have hnext : ∀ j, (c.withJournal j).popOption name = .ok (popped.1,
        Context.withJournal { c with options := popped.2 } (.popped name popped.1 :: j)) := by
      intro j
      show (c.options.pop name >>= fun _ => _) = _
      rw [hpop]
      rfl
    have hself : c.popOption name = _ := hnext c.journal
    refine ⟨[.popped name popped.1], fun e he => by rw [List.mem_singleton.mp he]; trivial,
      fun j => ?_, ?_⟩
    · simp only [hnext j, hself]
      rfl
    · simp only [hself]
      exact .silent rfl rfl rfl rfl rfl

/-! ## All together -/

/-- The steps of the builtins write nothing to the journal but minor events, and so do all builtins
that are not `eval`. -/
theorem closed_logs : Closed (fun x : Action κ _ => Logs Event.Minor x) where
  pure := logs_pure
  fail _ := logs_fail _
  bind := logs_bind
  look hf hlook := logs_context hf (fun c j => hlook c j c.diagnostics c.interpreter c.depth)
  moved _ := logs_note trivial rfl
  moveTo := logs_moveTo
  setVariable _ _ _ := logs_update (fun _ _ => rfl) (fun _ => .silent rfl rfl rfl rfl rfl)
  unsetVariable _ := logs_update (fun _ _ => rfl) (fun _ => .silent rfl rfl rfl rfl rfl)
  exportVariable := logs_exportVariable
  pushOption := logs_pushOption
  popOption := logs_popOption

/-- What evaluation keeps, the builtins keep, if it holds of all steps that write nothing but minor
events. -/
theorem keeps_commandSet {R : {τ : Type} → Step Builtin τ → Step Builtin τ → Prop}
    (hR : Congruent R) (hplain : ∀ {τ : Type} {x : Step Builtin τ}, Logs Event.Minor x → R x x)
    (files : Files.Tree) : (commandSet files).Keeps R :=
  keeps_of_plain hR.toSequential files (fun _ heval reenter values flags =>
    hplain (closed_logs.invoke heval files description reenter values flags))

theorem logging_commandSet (files : Files.Tree) : (commandSet files).Logging :=
  fun reenter hreenter =>
    keeps_commandSet congruent_logs (fun hx => hx.any) files reenter reenter hreenter

end Builtin

end CommandShell
