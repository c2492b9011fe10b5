/-
# CommandShell.Proofs.Evaluation.Journal -- evaluation writes its journal and never reads it

Two runs of the same action from contexts that differ in their journals alone give the same result,
add the same events, and leave contexts that again differ in their journals alone. Evaluation also
leaves the depth, the settings and the registered commands as it found them, and reports the errors
that its events say were contained. All this is said in one property, `Logs`, which every step of
evaluation keeps as long as the commands do.
-/
import CommandShell.Proofs.Evaluation.Steps

namespace CommandShell

variable {κ τ υ α β : Type}

/-! ## Contexts up to their journals -/

/-- The error that an event puts up for report. -/
def Event.reported? : Event → Option Error
  | .contained _ e => some e
  | _ => none

/-- The errors that events put up for report, oldest first. The events stand newest first. -/
def reports (es : List Event) : List Error := es.reverse.filterMap Event.reported?

theorem reports_append (fs es : List Event) : reports (fs ++ es) = reports es ++ reports fs := by
  rw [reports, List.reverse_append, List.filterMap_append]
  rfl

theorem reports_singleton {e : Event} (h : e.reported? = none) : reports [e] = [] := by
  show [e].filterMap Event.reported? = []
  rw [List.filterMap_cons_none h, List.filterMap_nil]

theorem Event.Mere.reported? {e : Event} (h : e.Mere) : e.reported? = none := by
  cases e with
  | contained n e => exact h.elim
  | _ => rfl

/-- What a run leaves as it was, and what it reports, given the events that it adds. -/
structure Frame (es : List Event) (c d : Context κ) : Prop where
  depth : d.depth = c.depth
  interpreter : d.interpreter = c.interpreter
  commands : d.commands = c.commands
  diagnostics : d.diagnostics = c.diagnostics ++ reports es

theorem Frame.silent {es : List Event} {c d : Context κ} (hes : reports es = [])
    (hdepth : d.depth = c.depth) (hinterpreter : d.interpreter = c.interpreter)
    (hcommands : d.commands = c.commands) (hdiagnostics : d.diagnostics = c.diagnostics) :
    Frame es c d :=
  ⟨hdepth, hinterpreter, hcommands, by rw [hes, List.append_nil, hdiagnostics]⟩

theorem Frame.refl (c : Context κ) : Frame [] c c := .silent rfl rfl rfl rfl rfl

theorem Frame.trans {es fs : List Event} {c d e : Context κ} (h : Frame es c d)
    (h' : Frame fs d e) : Frame (fs ++ es) c e where
  depth := h'.depth.trans h.depth
  interpreter := h'.interpreter.trans h.interpreter
  commands := h'.commands.trans h.commands
  diagnostics := by
    rw [h'.diagnostics, h.diagnostics, reports_append, List.append_assoc]

/-! ## Events on the way -/

/-- All events that are added on the way from one context to another are of the given kind. -/
def Adding (A : Event → Prop) (c d : Context κ) : Prop :=
  ∃ es, d.journal = es ++ c.journal ∧ ∀ e ∈ es, A e

/-- What holds of the whole way holds of both of its parts. -/
theorem Adding.split {A : Event → Prop} {c d e : Context κ} (h : Adding A c e) {es fs : List Event}
    (hd : d.journal = es ++ c.journal) (he : e.journal = fs ++ d.journal) :
    Adding A c d ∧ Adding A d e := by
  obtain ⟨all, hall, hkind⟩ := h
  obtain rfl : all = fs ++ es := by
    rw [he, hd, ← List.append_assoc] at hall
    exact (List.append_cancel_right hall).symm
  exact ⟨⟨es, hd, fun x hx => hkind x (List.mem_append_right _ hx)⟩,
    ⟨fs, he, fun x hx => hkind x (List.mem_append_left _ hx)⟩⟩

theorem Adding.between {A : Event → Prop} {c d e f : Context κ} (h : Adding A c f)
    {es fs gs : List Event} (hd : d.journal = es ++ c.journal) (he : e.journal = fs ++ d.journal)
    (hf : f.journal = gs ++ e.journal) : Adding A d e := by
  have hbehind : f.journal = (gs ++ fs) ++ d.journal := by
    rw [hf, he, List.append_assoc]
  exact ((h.split hd hbehind).2.split he hf).1

theorem not_adding {A : Event → Prop} {c d : Context κ} {e : Event}
    (hd : d.journal = e :: c.journal) (he : ¬ A e) : ¬ Adding A c d := by
  rintro ⟨es, hes, hkind⟩
  obtain rfl : es = [e] := by
    rw [hd, ← List.singleton_append] at hes
    exact (List.append_cancel_right hes).symm
  exact he (hkind e (List.mem_singleton_self e))

theorem adding_of_log {A : Event → Prop} {c d : Context κ} {es : List Event}
    (hlog : d.log = c.log ++ es) (hes : ∀ e ∈ es, A e) : Adding A c d := by
  refine ⟨es.reverse, ?_, fun e he => hes e (List.mem_reverse.mp he)⟩
  have hjournal := congrArg List.reverse hlog
  rw [Context.log, List.reverse_reverse, Context.log, List.reverse_append, List.reverse_reverse]
    at hjournal
  exact hjournal

/-! ## Steps -/

namespace Step

/-- A step adds events of the given kind to the journal, does not read it, and keeps to the frame of
these events. -/
def Logs (A : Event → Prop) (x : Step κ τ) : Prop :=
  ∀ c, ∃ es, (∀ e ∈ es, A e) ∧
    (∀ j, x (c.withJournal j) = ((x c).1, (x c).2.withJournal (es ++ j))) ∧ Frame es c (x c).2

/-- Any event at all. -/
def Any (_ : Event) : Prop := True

variable {A B : Event → Prop}

theorem Logs.mono {x : Step κ τ} (hx : Logs A x) (h : ∀ e, A e → B e) : Logs B x := by
  intro c
  obtain ⟨es, hes, hblind, hframe⟩ := hx c
  exact ⟨es, fun e he => h e (hes e he), hblind, hframe⟩

theorem Logs.any {x : Step κ τ} (hx : Logs A x) : Logs Any x := hx.mono (fun _ _ => trivial)

/-- The journal after a step: the new events stand before the old ones. -/
theorem Logs.journal {x : Step κ τ} (hx : Logs A x) (c : Context κ) :
    ∃ es, (∀ e ∈ es, A e) ∧ (x c).2.journal = es ++ c.journal := by
  obtain ⟨es, hes, hblind, -⟩ := hx c
  have hsame : x c = ((x c).1, (x c).2.withJournal (es ++ c.journal)) := hblind c.journal
  exact ⟨es, hes, by rw [hsame]; rfl⟩

theorem logs_result (t : τ) : Logs A (result t : Step κ τ) :=
  fun c => ⟨[], fun _ he => (List.not_mem_nil he).elim, fun _ => rfl, Frame.refl c⟩

theorem logs_noting {e : Event} (he : A e) (hsilent : e.reported? = none) :
    Logs A (noting e : Step κ Unit) :=
  fun c => ⟨[e], fun _ h => by rwa [List.mem_singleton.mp h], fun _ => rfl,
    .silent (reports_singleton hsilent) rfl rfl rfl rfl⟩

theorem Logs.seq {x : Step κ τ} {f : τ → Step κ υ} (hx : Logs A x) (hf : ∀ t, Logs A (f t)) :
    Logs A (seq x f) := by
  intro c
  obtain ⟨es, hes, hblind, hframe⟩ := hx c
  obtain ⟨fs, hfs, hblind', hframe'⟩ := hf (x c).1 (x c).2
  refine ⟨fs ++ es, ?_, ?_, hframe.trans hframe'⟩
  · intro e he
    rcases List.mem_append.mp he with he | he
    · exact hfs e he
    · exact hes e he
  · intro j
    show f (x (c.withJournal j)).1 (x (c.withJournal j)).2 = _
    rw [hblind j, List.append_assoc]
    exact hblind' (es ++ j)

/-- A step that looks at the context first, but not at its journal. -/
theorem logs_look {f : Context κ → Step κ τ} (hf : ∀ c, Logs A (f c))
    (hlook : ∀ c j, f (c.withJournal j) = f c) : Logs A (fun c => f c c) := by
  intro c
  obtain ⟨es, hes, hblind, hframe⟩ := hf c c
  refine ⟨es, hes, ?_, hframe⟩
  intro j
  show f (c.withJournal j) (c.withJournal j) = _
  rw [hlook c j]
  exact hblind j

/-- A change that has nothing to do with the journal and the frame. -/
theorem logs_change {f : Context κ → Context κ} (t : τ)
    (hblind : ∀ c j, f (c.withJournal j) = (f c).withJournal j)
    (hframe : ∀ c, Frame [] c (f c)) : Logs A (fun c => (t, f c)) := by
  intro c
  refine ⟨[], fun _ he => (List.not_mem_nil he).elim, ?_, hframe c⟩
  intro j
  show (t, f (c.withJournal j)) = _
  rw [hblind c j]
  rfl

theorem Logs.restoring {x : Step κ τ} (hx : Logs A x) : Logs A (restoring x) := by
  intro c
  obtain ⟨es, hes, hblind, hframe⟩ := hx c
  refine ⟨es, hes, ?_, ⟨hframe.depth, rfl, hframe.commands, hframe.diagnostics⟩⟩
  intro j
  show ((x (c.withJournal j)).1,
    ({ (x (c.withJournal j)).2 with interpreter := c.interpreter } : Context κ)) = _
  rw [hblind j]
  rfl

end Step

open Step

/-! ## Actions as steps -/

namespace Action

variable {A : Event → Prop}

theorem logs_pure (a : α) : Logs A (pure a : Action κ α) := logs_result _

theorem logs_fail (e : Error) : Logs A (fail e : Action κ α) := logs_result _

theorem logs_note {e : Event} (he : A e) (hsilent : e.reported? = none) :
    Logs A (note e : Action κ Unit) :=
  (logs_noting he hsilent).seq (fun _ => logs_result _)

theorem logs_bind {x : Action κ α} {f : α → Action κ β} (hx : Logs A x)
    (hf : ∀ a, Logs A (f a)) : Logs A (x >>= f : Action κ β) := by
  rw [bind_eq_seq]
  refine hx.seq (fun r => ?_)
  cases r with
  | ok a => exact hf a
  | error e => exact logs_result _

theorem logs_context {f : Context κ → Action κ α} (hf : ∀ c, Logs A (f c))
    (hlook : ∀ c j, f (c.withJournal j) = f c) : Logs A (context >>= f : Action κ α) :=
  logs_look (f := f) hf hlook

theorem logs_refuse : Logs Any (refuse : Action κ α) := by
  intro c
  exact ⟨[.refused c.interpreter.maxDepth], fun _ _ => trivial, fun _ => rfl,
    .silent rfl rfl rfl rfl rfl⟩

/-- What is added on the way through a level is added inside of it: entering and leaving come before
and behind. -/
theorem adding_inside {x : Action κ α} (hx : Logs Any x) {c : Context κ}
    (h : Adding A c (leave (x (enter c)).2)) : Adding A (enter c) (x (enter c)).2 := by
  obtain ⟨es, -, hes⟩ := hx.journal (enter c)
  have hentered : (enter c).journal = [.entered (c.depth + 1)] ++ c.journal := rfl
  have hleft : (leave (x (enter c)).2).journal =
      [.left (x (enter c)).2.depth] ++ (x (enter c)).2.journal := rfl
  exact h.between hentered hes hleft

/-- A level that is entered is left again. -/
theorem logs_nested {x : Action κ α} (hx : Logs Any x) : Logs Any (nested x) := by
  intro c
  by_cases hdepth : c.depth < c.interpreter.maxDepth
  · obtain ⟨es, -, hblind, hframe⟩ := hx (enter c)
    refine ⟨.left (x (enter c)).2.depth :: (es ++ [.entered (c.depth + 1)]),
      fun _ _ => trivial, ?_, ?_⟩
    · intro j
      -- entering has put an event on top of the other journal as well
      have hinside : x (enter (c.withJournal j)) =
          ((x (enter c)).1, (x (enter c)).2.withJournal (es ++ .entered (c.depth + 1) :: j)) :=
        hblind (.entered (c.depth + 1) :: j)
      rw [nested_of_lt x hdepth, nested_of_lt (c := c.withJournal j) x hdepth, hinside]
      simp [leave, Context.note, Context.withJournal]
    · rw [nested_of_lt x hdepth]
      obtain ⟨hkept, hinterpreter, hcommands, hdiagnostics⟩ := hframe
      refine ⟨?_, hinterpreter, hcommands, ?_⟩
      · show (x (enter c)).2.depth - 1 = c.depth
        rw [hkept]
        rfl
      · -- entering and leaving report nothing
        rw [← List.singleton_append, reports_append, reports_append]
        exact hdiagnostics.trans (congrArg (c.diagnostics ++ ·) (List.append_nil _).symm)
  · obtain ⟨es, hes, hblind, hframe⟩ := (logs_refuse : Logs Any (refuse : Action κ α)) c
    rw [← nested_of_not_lt x hdepth] at hblind hframe
    refine ⟨es, hes, ?_, hframe⟩
    intro j
    rw [nested_of_not_lt (c := c.withJournal j) x hdepth]
    exact hblind j

end Action

/-! ## Whole evaluations -/

/-- Evaluation logs as its commands do. -/
theorem congruent_logs : @Congruent κ (fun x _ => Logs Any x) where
  result := logs_result
  noting he := logs_noting trivial he.reported?
  reporting _ n e := fun _ => ⟨[.contained n e], fun _ _ => trivial, fun _ => rfl,
    ⟨rfl, rfl, rfl, rfl⟩⟩
  seq := Logs.seq
  look hf hlook _ := logs_look hf (fun c j => hlook c j c.diagnostics)
  restoring := Logs.restoring
  nested := Action.logs_nested
  refuse := Action.logs_refuse

section Runs

variable (reader : Reader) {evaluate : Node → Action κ (Flow Value)}

theorem logs_statementsStep (heval : ∀ n, Logs Any (evaluate n)) (ns : List Node)
    (acc : List Outcome) : Logs Any (statementsStep evaluate ns acc) :=
  @Sequential.statementsStep _ _ congruent_logs.toSequential evaluate evaluate heval ns acc

theorem logs_linesStep (heval : ∀ n, Logs Any (evaluate n)) (lines : List String)
    (acc : List Outcome) : Logs Any (linesStep reader evaluate lines acc) :=
  @Sequential.linesStep _ _ congruent_logs.toSequential evaluate evaluate reader heval lines acc

theorem logs_textStep (heval : ∀ n, Logs Any (evaluate n)) (source : String)
    (acc : List Outcome) : Logs Any (textStep reader evaluate source acc) :=
  @Sequential.textStep _ _ congruent_logs.toSequential evaluate evaluate reader heval source acc

end Runs

namespace CommandSet

/-- Commands that log as the texts they run do. -/
def Logging (set : CommandSet κ) : Prop :=
  ∀ reenter : Reentry κ, (∀ source, Logs Any (reenter source)) →
    ∀ code values flags, Logs Any (set.invoke reenter code values flags)

variable {set : CommandSet κ}

theorem Logging.keeps (hset : set.Logging) : set.Keeps (fun x _ => Logs Any x) :=
  fun f _ => hset f

/-- A text that is run inside a command logs. -/
theorem Logging.logs_reenterWithin (hset : set.Logging) (levels : Nat) (source : String) :
    Logs Any (set.reenterWithin levels source) :=
  congruent_logs.reenterWithin hset.keeps levels source

theorem Logging.logs_evaluateNode (hset : set.Logging) (i : Interpreter) (c : Context κ)
    (n : Node) : Logs Any (i.evaluateNode set c n) :=
  congruent_logs.evaluateNode hset.keeps i c n

end CommandSet

end CommandShell
