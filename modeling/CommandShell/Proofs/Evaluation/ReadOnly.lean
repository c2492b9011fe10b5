/-
# CommandShell.Proofs.Evaluation.ReadOnly -- programs that only look

A program whose commands are builtins that only look, or are not known at all, can be run as often
as one likes. Such a run changes nothing of what the context holds (`Observes`); like every run it
leaves depth and settings as they were, reads neither the journal nor the errors left for report,
and adds to both (`Transparent`). So the next run starts where this one started, but for what was
added, and goes the same way (`Repeatable`). Neither failures, contained or not, nor a limit of
depth that is met, nor a request to leave make a difference.
-/
import CommandShell.Proofs.Evaluation.FailedBuiltins
import CommandShell.Proofs.Evaluation.Streaming

namespace CommandShell

open Step CommandShell.Action

variable {κ τ υ α : Type}

/-! ## Steps that only look -/

namespace Step

/-- With the given commands registered, the step changes nothing of what the context holds. -/
def Observes (commands : NameMap κ) (x : Step κ τ) : Prop :=
  ∀ c, c.commands = commands → (x c).2.SameHoldings c

variable {commands : NameMap κ}

theorem observes_result (t : τ) : Observes commands (result t) := fun c _ => .refl c

theorem observes_noting (e : Event) : Observes commands (noting e) :=
  fun _ _ => ⟨rfl, rfl, rfl, rfl⟩

theorem Observes.seq {x : Step κ τ} {f : τ → Step κ υ} (hx : Observes commands x)
    (hf : ∀ t, Observes commands (f t)) : Observes commands (seq x f) := by
  intro c hc
  have hfirst := hx c hc
  exact (hf _ _ (hfirst.commands.trans hc)).trans hfirst

/-- A look at the context finds the given commands. -/
theorem Observes.look {f : Context κ → Step κ τ}
    (hf : ∀ c, c.commands = commands → Observes commands (f c)) :
    Observes commands (fun c => f c c) :=
  fun c hc => hf c hc c hc

theorem Observes.nested {x : Action κ α} (hx : Observes commands x) :
    Observes commands (Action.nested x) := by
  intro c hc
  by_cases hdepth : c.depth < c.interpreter.maxDepth
  · rw [nested_of_lt x hdepth]
    obtain ⟨hbindings, hcommands, hoptions, hdirectory⟩ := hx (enter c) hc
    exact ⟨hbindings, hcommands, hoptions, hdirectory⟩
  · rw [nested_of_not_lt x hdepth]
    exact ⟨rfl, rfl, rfl, rfl⟩

/-- Evaluation by itself changes nothing of what the context holds. -/
theorem congruent_observes (commands : NameMap κ) :
    @Congruent κ (fun x _ => Observes commands x) where
  result := observes_result
  noting _ := observes_noting _
  seq := Observes.seq
  reporting _ _ _ := fun _ _ => ⟨rfl, rfl, rfl, rfl⟩
  look hf _ _ := Observes.look (fun c _ => hf c)
  restoring hx := by
    intro c hc
    obtain ⟨hbindings, hcommands, hoptions, hdirectory⟩ := hx c hc
    exact ⟨hbindings, hcommands, hoptions, hdirectory⟩
  nested := Observes.nested
  refuse := fun _ _ => ⟨rfl, rfl, rfl, rfl⟩

end Step

/-! ## Nodes that only look -/

/-- If a node is a command, it has the name of a builtin that only looks, or a name that is not
registered. -/
def Node.ReadOnly (commands : NameMap Builtin) : Node → Prop
  | .command name _ _ =>
    name ∈ Builtin.observers.map Builtin.name ∨ commands.get? name = none
  | _ => True

namespace Builtin

variable {commands : NameMap Builtin}

/-- Where the builtins stand under their names, what is called in such a node only looks. -/
theorem mem_observers_of_readOnly (hbuiltins : ∀ b : Builtin, commands.get? b.name = some b)
    {name : String} {arguments : List Node} {flags : List Flag}
    (h : (Node.command name arguments flags).ReadOnly commands) {b : Builtin}
    (hb : commands.get? name = some b) : b ∈ observers := by
  rcases h with hname | hnone
  · obtain ⟨observer, hmem, rfl⟩ := List.mem_map.mp hname
    rw [hbuiltins observer] at hb
    cases hb
    exact hmem
  · rw [hnone] at hb
    cases hb

/-- A call by a name that stands for a builtin that only looks, or for none. -/
theorem observes_dispatch (files : Files.Tree) (reenter : Reentry Builtin) {name : String}
    (hname : ∀ b, commands.get? name = some b → b ∈ observers) (values : List Value)
    (flags : List Flag) :
    Observes commands ((commandSet files).dispatch reenter name values flags) := by
  rw [CommandSet.dispatch_eq_seq]
  refine (observes_noting _).seq (fun _ => Observes.look (fun c hc => ?_))
  cases hget : c.commands.get? name with
  | none => exact observes_result _
  | some b =>
    have hobserver : b ∈ observers := hname b (hc ▸ hget)
    have hinvoke : Observes commands ((commandSet files).invoke reenter b values flags) := by
      intro d _
      have hstill : ((commandSet files).invoke reenter b values flags d).2 = d :=
        still_invoke hobserver files description reenter values flags d
      rw [hstill]
      exact .refl d
    refine (observes_noting _).seq (fun _ => hinvoke.seq (fun answer => ?_))
    exact (observes_noting _).seq (fun _ => observes_result answer)

theorem observes_evaluate (hbuiltins : ∀ b : Builtin, commands.get? b.name = some b)
    (files : Files.Tree) (reenter : Reentry Builtin) {n : Node}
    (h : n.Everywhere (Node.ReadOnly commands)) :
    Observes commands (n.evaluate ((commandSet files).dispatch reenter)) := by
  have hR := (congruent_observes commands).coherent.related
  refine @Carried.evaluate_local _ _ hR.toCarried _ ((commandSet files).dispatch reenter) n
    (h.mono (fun m hm => ⟨fun f _ => hR.fail _, ?_⟩))
  rintro name arguments flags rfl values
  exact observes_dispatch files reenter (fun _ => mem_observers_of_readOnly hbuiltins hm) values
    flags

end Builtin

/-! ## Runs that can be repeated -/

/-- The context with more errors left for report. -/
def Context.withLater (c : Context κ) (es : List Error) : Context κ :=
  { c with diagnostics := c.diagnostics ++ es }

theorem Context.withLater_append (c : Context κ) (es fs : List Error) :
    c.withLater (es ++ fs) = (c.withLater es).withLater fs := by
  unfold withLater
  rw [List.append_assoc]

namespace Step

/-- The step leaves the context as it was, up to the journal and some errors that are added to those
left for report; and the same step from there has the same result and adds the same errors. -/
def Repeatable (x : Step κ τ) (c : Context κ) : Prop :=
  ∃ told, (x c).2.clearJournal = (c.withLater told).clearJournal ∧
    (x (x c).2).1 = (x c).1 ∧
    (x (x c).2).2.clearJournal = (c.withLater (told ++ told)).clearJournal

/-- A step that only looks, and neither sees nor touches what was recorded before it. -/
structure Transparent (commands : NameMap κ) (x : Step κ τ) : Prop where
  logs : Logs Any x
  adds : Adds x
  observes : Observes commands x

variable {commands : NameMap κ}

theorem transparent_result (t : τ) : Transparent commands (result t : Step κ τ) :=
  ⟨logs_result t, congruent_adds.result t, observes_result t⟩

theorem transparent_noting {e : Event} (he : e.Mere) : Transparent commands (noting e) :=
  ⟨congruent_logs.noting he, congruent_adds.noting he, observes_noting e⟩

theorem Transparent.seq {x : Step κ τ} {f : τ → Step κ υ} (hx : Transparent commands x)
    (hf : ∀ t, Transparent commands (f t)) : Transparent commands (seq x f) where
  logs := hx.logs.seq (fun t => (hf t).logs)
  adds := congruent_adds.seq (y := x) (g := f) hx.adds (fun t => (hf t).adds)
  observes := hx.observes.seq (fun t => (hf t).observes)

theorem sequential_transparent (commands : NameMap κ) :
    @Sequential κ (fun x _ => Transparent commands x) where
  result := transparent_result
  noting := transparent_noting
  seq := Transparent.seq

/-- What such a step leaves: the context, with the errors added that it reports where none were
left. -/
theorem Transparent.leaves {x : Step κ τ} (hx : Transparent commands x) {c : Context κ}
    (hc : c.commands = commands) : (x c).2.clearJournal =
      (c.withLater (x c.clearDiagnostics).2.diagnostics).clearJournal := by
  obtain ⟨_, -, -, hframe⟩ := hx.logs c
  obtain ⟨hbindings, hcommands, hoptions, hdirectory⟩ := hx.observes c hc
  have hdiagnostics := (hx.adds.apart c).2
  unfold Context.clearJournal Context.withLater
  rw [hbindings, hcommands, hoptions, hdirectory, hframe.depth, hframe.interpreter, hdiagnostics]

theorem Transparent.repeatable {x : Step κ τ} (hx : Transparent commands x) {c : Context κ}
    (hc : c.commands = commands) : Repeatable x c := by
  have hleft := hx.leaves hc
  have hcommands : (x c).2.commands = commands := (hx.observes c hc).commands.trans hc
  -- but for what was recorded, the second time starts where the first did
  have hstart : (x c).2.clearDiagnostics.clearJournal = c.clearDiagnostics.clearJournal :=
    congrArg Context.clearDiagnostics hleft
  obtain ⟨hresult, hcontext⟩ := hx.logs.blind hstart
  have htold : (x (x c).2.clearDiagnostics).2.diagnostics =
      (x c.clearDiagnostics).2.diagnostics := by
    show (x (x c).2.clearDiagnostics).2.clearJournal.diagnostics = _
    rw [hcontext]
    rfl
  refine ⟨(x c.clearDiagnostics).2.diagnostics, hleft, ?_, ?_⟩
  · rw [(hx.adds.apart (x c).2).1, (hx.adds.apart c).1, hresult]
  · have hagain := hx.leaves hcommands
    rw [htold] at hagain
    rw [hagain, Context.withLater_append]
    exact congrArg (Context.withLater · (x c.clearDiagnostics).2.diagnostics) hleft

/-- What can be repeated with the settings of the context can be repeated with others that are lent
to it. It may be put together anew from the depth of the context, which is the same each time. -/
theorem Repeatable.lent {x y : Step κ τ} {i : Interpreter} {c : Context κ}
    (hx : Repeatable x (c.under i)) (hy : ∀ d : Context κ, d.depth = c.depth →
      y d = ((x (d.under i)).1, (x (d.under i)).2.under d.interpreter)) : Repeatable y c := by
  obtain ⟨told, hleft, hresult, hagain⟩ := hx
  have hfirst := hy c rfl
  have hdepth : (y c).2.depth = c.depth := by
    rw [hfirst]
    show (x (c.under i)).2.clearJournal.depth = _
    rw [hleft]
    rfl
  have hstart : (y c).2.under i = (x (c.under i)).2 := by
    rw [hfirst]
    show (x (c.under i)).2.under i = (x (c.under i)).2
    apply Context.under_of_eq
    show (x (c.under i)).2.clearJournal.interpreter = i
    rw [hleft]
    rfl
  have hsecond := hy (y c).2 hdepth
  rw [hstart] at hsecond
  have hown : (y c).2.interpreter = c.interpreter := by
    rw [hfirst]
    rfl
  refine ⟨told, ?_, ?_, ?_⟩
  · rw [hfirst]
    exact congrArg (Context.under · c.interpreter) hleft
  · rw [hsecond, hfirst]
    exact hresult
  · rw [hsecond, hown]
    exact congrArg (Context.under · c.interpreter) hagain

end Step

/-! ## Programs that only look -/

namespace Interpreter

/-- The statements of a program that only looks. -/
theorem transparent_statements (files : Files.Tree) (i : Interpreter) (c : Context Builtin)
    {ns : List Node} (hbuiltins : ∀ b : Builtin, c.commands.get? b.name = some b)
    (hread : ∀ n ∈ ns, n.Everywhere (Node.ReadOnly c.commands)) :
    Transparent c.commands
      (statementsStep (i.evaluateNode (Builtin.commandSet files) c) ns []) := by
  refine @Sequential.statementsStep_local _ _ (sequential_transparent c.commands) _
    (i.evaluateNode (Builtin.commandSet files) c) ns (fun n hn => ?_) []
  exact ⟨(Builtin.logging_commandSet files).logs_evaluateNode i c n,
    congruent_adds.evaluateNode (Builtin.keeps_adds files) i c n,
    Builtin.observes_evaluate hbuiltins files _ (hread n hn)⟩

/-- A program that only looks can be run again. Where the builtins are registered and each command
in the program, at any depth, is one that only looks or is not known, a run leaves the context as it
was but for errors that are added to those left for report, and another run from there has the same
outcomes and adds the same errors; and so it is with a text that reads as the program. -/
theorem readOnly_repeatable (files : Files.Tree) (i : Interpreter) (p : Program)
    (c : Context Builtin) (hbuiltins : ∀ b : Builtin, c.commands.get? b.name = some b)
    (hread : ∀ n ∈ p.statements, n.Everywhere (Node.ReadOnly c.commands)) :
    Repeatable (i.evaluateProgram (Builtin.commandSet files) p) c ∧
      ∀ source, i.reader.program source = .ok p →
        Repeatable (i.evaluate (Builtin.commandSet files) source) c := by
  have hprogram := (transparent_statements files i c hbuiltins hread).seq
    (fun after => transparent_result after.2)
  refine ⟨(hprogram.repeatable (c := c.under i) rfl).lent ?_, fun source hsource => ?_⟩
  · intro d hdepth
    rw [← evaluateNode_congr i hdepth]
    rfl
  · have htext : Transparent c.commands
        (textStep i.reader (i.evaluateNode (Builtin.commandSet files) c) source []) := by
      rw [textStep_eq, hsource]
      exact Transparent.seq (transparent_noting trivial) (fun _ => hprogram)
    refine (htext.repeatable (c := c.under i) rfl).lent (fun d hdepth => ?_)
    rw [← evaluateNode_congr i hdepth]
    rfl

/-- A program that only looks. Embedded commands fail and are contained: one because there is none
of its name, one because, where two levels are all there is, it stands too deep, and then the one
around it because it gets an argument. Then a statement fails, and the last asks to leave. -/
def lookingProgram : Program :=
  ⟨[.command "echo" [.command "nosuch" [] [], .command "pwd" [.command "env" [] []] []] [],
    .command "stat" [] [],
    .command "exit" [.literal (.integer 3)] []]⟩

/-- The text of the program. -/
def lookingText : String := "echo $(nosuch) $(pwd $(env))\nstat\nexit 3"

theorem readOnly_repeatable_lookingProgram :
    ((∀ b : Builtin, ((Context.new {} "/").withCommands Builtin.registry).commands.get? b.name =
        some b) ∧
      (∀ n ∈ lookingProgram.statements, n.Everywhere (Node.ReadOnly
        ((Context.new {} "/").withCommands Builtin.registry).commands)) ∧
      ({ maxDepth := 2 } : Interpreter).reader.program lookingText = .ok lookingProgram) ∧
    (evaluateProgram { maxDepth := 2 } (Builtin.commandSet .empty) lookingProgram
      ((Context.new {} "/").withCommands Builtin.registry)).1.length = 3 ∧
    (evaluateProgram { maxDepth := 2 } (Builtin.commandSet .empty) lookingProgram
      ((Context.new {} "/").withCommands Builtin.registry)).2.diagnostics.length = 3 ∧
    Repeatable (evaluateProgram { maxDepth := 2 } (Builtin.commandSet .empty) lookingProgram)
      ((Context.new {} "/").withCommands Builtin.registry) ∧
    Repeatable (evaluate { maxDepth := 2 } (Builtin.commandSet .empty) lookingText)
      ((Context.new {} "/").withCommands Builtin.registry) := by
  have hbuiltins : ∀ b : Builtin,
      ((Context.new {} "/").withCommands Builtin.registry).commands.get? b.name = some b := by
    have hall : ∀ b ∈ Builtin.all,
        ((Context.new {} "/").withCommands Builtin.registry).commands.get? b.name = some b := by
      decide +kernel
    intro b
    exact hall b (by cases b <;> decide)
  have hnone : ((Context.new {} "/").withCommands Builtin.registry).commands.get? "nosuch" =
      none := by
    decide +kernel
  have hread : ∀ n ∈ lookingProgram.statements, n.Everywhere (Node.ReadOnly
      ((Context.new {} "/").withCommands Builtin.registry).commands) := by
    simp [lookingProgram, Node.everywhere_command, Node.everywhere_literal, Node.ReadOnly,
      Builtin.observers, Builtin.name, hnone]
  have hsource : ({ maxDepth := 2 } : Interpreter).reader.program lookingText =
      .ok lookingProgram := by
    exact Reader.program_eq_ok_iff.mpr ⟨[
      ⟨some (.command "echo" [.expr (.substitution (.command "nosuch" [])),
        .expr (.substitution (.command "pwd" [.expr (.substitution (.command "env" []))]))]), none⟩,
      ⟨some (.command "stat" []), none⟩,
      ⟨some (.command "exit" [.expr (.integer 3)]), none⟩], rfl, rfl⟩
  obtain ⟨hprogram, htext⟩ := readOnly_repeatable .empty { maxDepth := 2 } lookingProgram
    ((Context.new {} "/").withCommands Builtin.registry) hbuiltins hread
  exact ⟨⟨hbuiltins, hread, hsource⟩, by decide +kernel, by decide +kernel, hprogram,
    htext lookingText hsource⟩

end Interpreter

end CommandShell
