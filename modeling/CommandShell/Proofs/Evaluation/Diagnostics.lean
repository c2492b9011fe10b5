/-
# CommandShell.Proofs.Evaluation.Diagnostics -- every failure is told once, and where it belongs

A statement that fails has its error as its outcome. A command inside a statement that fails leaves
its error for report, and what is around it goes on. Here both accounts are shown to be exact, as
long as the registered commands report nothing themselves: the outcomes are the results of the
statements, and the errors left for report are those of the embedded commands that failed, once for
each and in the order in which they completed.
-/
import CommandShell.Proofs.Evaluation.FailureOrigin
import CommandShell.Proofs.Evaluation.LineByLine

namespace CommandShell

open Step Completion CommandShell.Action

variable {κ τ α β : Type}

/-! ## Commands that report nothing -/

/-- All registered commands are of the given kind. -/
def Context.Registers (quiet : κ → Prop) (c : Context κ) : Prop :=
  ∀ name code, c.commands.get? name = some code → quiet code

/-- Commands of the given kind report nothing, even if a text that they run would, and leave none of
another kind registered. -/
def CommandSet.Quiet (set : CommandSet κ) (quiet : κ → Prop) : Prop :=
  ∀ (reenter : Reentry κ) (code : κ) (values : List Value) (flags : List Flag) (c : Context κ),
    quiet code → c.Registers quiet →
      (set.invoke reenter code values flags c).2.diagnostics = c.diagnostics ∧
      (set.invoke reenter code values flags c).2.Registers quiet

/-- What writes nothing but minor events to the journal reports nothing. -/
theorem Step.Logs.diagnostics {x : Step κ τ} (hx : Logs Event.Minor x) (c : Context κ) :
    (x c).2.diagnostics = c.diagnostics := by
  obtain ⟨es, hes, -, hframe⟩ := hx c
  have hreports : reports es = [] := by
    refine List.filterMap_eq_nil_iff.mpr (fun e he => ?_)
    exact (hes e (List.mem_reverse.mp he)).mere.reported?
  rw [hframe.diagnostics, hreports, List.append_nil]

/-- Every builtin but `eval` reports nothing. -/
theorem Builtin.quiet_commandSet (files : Files.Tree) : (commandSet files).Quiet (· ≠ .eval) := by
  intro reenter b values flags c heval hc
  have hlogs : Logs Event.Minor (invoke files description reenter b values flags) :=
    closed_logs.invoke heval files description reenter values flags
  obtain ⟨_, -, -, hframe⟩ := hlogs c
  refine ⟨hlogs.diagnostics c, ?_⟩
  intro name code hcode
  exact hc name code (hframe.commands ▸ hcode)

/-! ## What steps report -/

namespace Step

/-- A step adds the given errors to those left for report, if the commands are of the given kind,
and keeps them so. -/
def Accounts (quiet : κ → Prop) (x : Step κ τ) (reported : Context κ → List Error) : Prop :=
  ∀ c, c.Registers quiet →
    (x c).2.diagnostics = c.diagnostics ++ reported c ∧ (x c).2.Registers quiet

variable {quiet : κ → Prop} {x : Action κ (Flow α)} {f : α → Action κ (Flow β)}
  {reported further : Context κ → List Error}

theorem Accounts.congr {x : Step κ τ} (hx : Accounts quiet x reported)
    (h : ∀ c, reported c = further c) : Accounts quiet x further := by
  intro c hc
  rw [← h c]
  exact hx c hc

theorem accounts_silent {x : Step κ τ} (hdiagnostics : ∀ c, (x c).2.diagnostics = c.diagnostics)
    (hcommands : ∀ c, (x c).2.commands = c.commands) : Accounts quiet x (fun _ => []) := by
  intro c hc
  refine ⟨by rw [hdiagnostics, List.append_nil], fun name code hcode => ?_⟩
  exact hc name code (hcommands c ▸ hcode)

theorem accounts_pure (a : α) : Accounts quiet (pure a : Action κ α) (fun _ => []) :=
  accounts_silent (fun _ => rfl) (fun _ => rfl)

theorem accounts_fail (e : Error) :
    Accounts quiet (Action.fail e : Action κ (Flow Value)) (fun _ => []) :=
  accounts_silent (fun _ => rfl) (fun _ => rfl)

theorem accounts_readVariable (name : String) :
    Accounts quiet (readVariable name : Action κ (Flow Value)) (fun _ => []) := by
  refine accounts_silent (fun c => ?_) (fun c => ?_) <;>
  · unfold readVariable
    cases c.valueOf? name with
    | some v => rfl
    | none => cases c.interpreter.lenient <;> rfl

/-- One action reports first, and if it ends with a value so does the other. -/
theorem Accounts.andThen (hx : Accounts quiet x reported)
    (hf : ∀ a, Accounts quiet (f a) further) :
    Accounts quiet (Action.andThen x f) (fun c => reported c ++ x.onward further c) := by
  intro c hc
  have hself := hx c hc
  rcases hresult : x c with ⟨e | ⟨a⟩ | ⟨code⟩, d⟩ <;> rw [hresult] at hself <;>
    simp only [andThen_apply, Action.onward, hresult]
  · rw [List.append_nil]
    exact hself
  · obtain ⟨hdiagnostics, hregisters⟩ := hf a d hself.2
    rw [hdiagnostics, hself.1, List.append_assoc]
    exact ⟨rfl, hregisters⟩
  · rw [List.append_nil]
    exact hself

theorem Accounts.andThen_silent (hx : Accounts quiet x reported)
    (hf : ∀ a, Accounts quiet (f a) (fun _ => [])) :
    Accounts quiet (Action.andThen x f) reported := by
  refine (hx.andThen hf).congr (fun c => ?_)
  have hnone : x.onward (fun _ => ([] : List Error)) c = [] := by
    unfold Action.onward
    split <;> rfl
  rw [hnone, List.append_nil]

theorem Accounts.nested (hx : Accounts quiet x reported) :
    Accounts quiet (Action.nested x) (fun c =>
      if c.depth < c.interpreter.maxDepth then reported (enter c) else []) := by
  intro c hc
  by_cases hdepth : c.depth < c.interpreter.maxDepth
  · simp only [nested_of_lt x hdepth, if_pos hdepth]
    exact hx (enter c) hc
  · simp only [nested_of_not_lt x hdepth, if_neg hdepth, List.append_nil]
    exact ⟨rfl, hc⟩

/-- An embedded command that fails adds its error behind those from inside it. -/
theorem Accounts.embedded {x : Action κ (Flow Value)} (hx : Accounts quiet x reported) (n : Node) :
    Accounts quiet (embedded n x) (fun c => reported c ++ failures [⟨[], n, (x c).1⟩]) := by
  intro c hc
  have hself := hx c hc
  cases n with
  | command name arguments flags =>
    simp only [CommandShell.embedded, contain]
    rcases hresult : x c with ⟨e | flow, d⟩
    · rw [hresult] at hself
      refine ⟨?_, hself.2⟩
      show d.diagnostics ++ [e] = c.diagnostics ++ (reported c ++ [e])
      rw [hself.1, List.append_assoc]
    · rw [hresult] at hself
      exact ⟨hself.1.trans (congrArg _ (List.append_nil _).symm), hself.2⟩
  | _ => exact ⟨hself.1.trans (congrArg _ (List.append_nil _).symm), hself.2⟩

end Step

namespace Completion

theorem failures_append (xs ys : List Completion) :
    failures (xs ++ ys) = failures xs ++ failures ys :=
  List.filterMap_append

theorem failures_within (k : Nat) (xs : List Completion) :
    failures (xs.map (·.within k)) = failures xs := by
  rw [failures, List.filterMap_map]
  rfl

theorem failures_onward (x : Action κ (Flow α)) (next : Context κ → List Completion)
    (c : Context κ) : failures (x.onward next c) = x.onward (fun d => failures (next d)) c := by
  unfold Action.onward
  split <;> rfl

end Completion

/-! ## What nodes report -/

section Nodes

variable {quiet : κ → Prop} {dispatch : Dispatch κ}

/-- Places report what fails in them. -/
theorem accounts_places {places : List (Place κ α)}
    (h : ∀ p ∈ places, Accounts quiet p.action (fun c => failures (p.completions c))) (k : Nat) :
    Accounts quiet (Place.evaluateAll places)
      (fun c => failures (Place.completionsFrom k places c)) := by
  induction places generalizing k with
  | nil => exact accounts_pure _
  | cons p rest ih =>
    have hrest := ih (fun q hq => h q (List.mem_cons_of_mem p hq)) (k + 1)
    -- the list of values that is put together at the end reports nothing
    have hall := (h p List.mem_cons_self).andThen
      (fun a => hrest.andThen_silent (fun more => accounts_pure (.value (a :: more))))
    refine hall.congr (fun c => ?_)
    rw [Place.completionsFrom, failures_append, failures_within, failures_onward]

theorem completions_eq_nil {n : Node} (h : n.inside = []) (c : Context κ) :
    n.completions dispatch c = [] := by
  refine List.eq_nil_iff_forall_not_mem.mpr (fun x hx => ?_)
  obtain ⟨k, m, d, y, hm, -⟩ := Node.mem_completions hx
  rw [h] at hm
  cases hm

/-- At the place of an argument there is reported what fails inside it, and itself if it is a
command that fails. -/
theorem accounts_ofArgument {n : Node}
    (h : Accounts quiet (n.evaluate dispatch) (fun c => failures (n.completions dispatch c))) :
    Accounts quiet (Place.ofArgument dispatch n).action
      (fun c => failures ((Place.ofArgument dispatch n).completions c)) :=
  (h.embedded n).congr (fun _ => (failures_append _ _).symm)

theorem accounts_ofPart {p : Part} (h : ∀ n, p = .node n →
      Accounts quiet (n.evaluate dispatch) (fun c => failures (n.completions dispatch c))) :
    Accounts quiet (Place.ofPart dispatch p).action
      (fun c => failures ((Place.ofPart dispatch p).completions c)) := by
  rw [Place.action_ofPart]
  cases p with
  | text s =>
    rw [Part.evaluate]
    exact accounts_pure _
  | node n =>
    -- the substitution is noted, which reports nothing
    rw [evaluate_part_node]
    exact (accounts_ofArgument (h n rfl)).andThen_silent
      (fun v => accounts_silent (fun _ => rfl) (fun _ => rfl))

/-- A node reports the failures of the commands inside it, by induction on what stands inside. -/
theorem accounts_evaluate
    (hdispatch : ∀ name values flags, Accounts quiet (dispatch name values flags) (fun _ => []))
    (n : Node) :
    Accounts quiet (n.evaluate dispatch) (fun c => failures (n.completions dispatch c)) := by
  induction n using Node.inside_induction with
  | step n ih =>
    -- where nothing stands inside, nothing completes
    have hsilent : n.inside = [] → Accounts quiet (n.evaluate dispatch) (fun _ => []) →
        Accounts quiet (n.evaluate dispatch) (fun c => failures (n.completions dispatch c)) := by
      intro hinside hn
      refine hn.congr (fun c => ?_)
      rw [completions_eq_nil hinside]
      rfl
    cases n with
    | literal l =>
      refine hsilent rfl ?_
      rw [Node.evaluate]
      exact accounts_pure _
    | flag f =>
      refine hsilent rfl ?_
      rw [Node.evaluate]
      exact accounts_fail _
    | «variable» name =>
      refine hsilent rfl ?_
      rw [Node.evaluate]
      exact accounts_readVariable name
    | interpolated parts =>
      have hparts : ∀ p ∈ parts.map (Place.ofPart dispatch),
          Accounts quiet p.action (fun c => failures (p.completions c)) := by
        intro p hp
        obtain ⟨part, hpart, rfl⟩ := List.mem_map.mp hp
        refine accounts_ofPart (fun m hm => ih m (List.mem_map.mpr ⟨part, hpart, ?_⟩))
        rw [hm]
      rw [evaluate_interpolated, evaluateParts_eq_places]
      refine (((accounts_places hparts 0).andThen_silent
        (fun _ => accounts_pure _)).andThen_silent (fun _ => accounts_pure _)).congr (fun c => ?_)
      rw [Node.completions, Place.partPlaces_eq_map]
    | command name arguments flags =>
      have harguments : ∀ p ∈ arguments.map (Place.ofArgument dispatch),
          Accounts quiet p.action (fun c => failures (p.completions c)) := by
        intro p hp
        obtain ⟨m, hm, rfl⟩ := List.mem_map.mp hp
        exact accounts_ofArgument (ih m (List.mem_map_of_mem hm))
      rw [evaluate_command, evaluateAll_eq_places]
      refine ((accounts_places harguments 0).andThen_silent
        (fun values => hdispatch name values flags)).nested.congr (fun c => ?_)
      rw [Node.completions, Place.argumentPlaces_eq_map, apply_ite failures]
      rfl

end Nodes

/-- A call of a command reports nothing, registered or not. -/
theorem CommandSet.Quiet.accounts_dispatch {set : CommandSet κ} {quiet : κ → Prop}
    (hset : set.Quiet quiet) (reenter : Reentry κ) (name : String) (values : List Value)
    (flags : List Flag) :
    Accounts quiet (set.dispatch reenter name values flags) (fun _ => []) := by
  intro c hc
  rw [CommandSet.dispatch_eq_seq, seq_noting]
  show _ ∧ _
  simp only [Context.note]
  cases hcode : c.commands.get? name with
  | none => exact ⟨(List.append_nil _).symm, hc⟩
  | some code =>
    obtain ⟨hdiagnostics, hregisters⟩ := hset reenter code values flags
      ((c.note (.called name values flags)).note (.invoked name values flags))
      (hc name code hcode) hc
    exact ⟨hdiagnostics.trans (List.append_nil _).symm, hregisters⟩

/-! ## Statements -/

/-- The outcome of a statement with the given result. -/
def Outcome.ofResult : Except Error (Flow Value) → Outcome
  | .ok (.value v) => .value v
  | .ok (.exit code) => .exited code
  | .error e => .failed e

theorem Outcome.ofResult_eq_failed_iff {r : Except Error (Flow Value)} {e : Error} :
    ofResult r = .failed e ↔ r = .error e := by
  rcases r with e' | ⟨v⟩ | ⟨code⟩ <;> simp [ofResult]

section Statements

variable {evaluate : Node → Action κ (Flow Value)}

/-- The statements that are evaluated, each with the context in which it is. -/
def reached (evaluate : Node → Action κ (Flow Value)) :
    List Node → Context κ → List (Node × Context κ)
  | [], _ => []
  | n :: rest, c => (n, c) ::
    match evaluate n c with
    | (.ok (.value _), next) => reached evaluate rest next
    | (.ok (.exit _), _) => []
    | (.error e, next) => reached evaluate rest (next.note (.statementFailed e))

theorem reached_statements (ns : List Node) (c : Context κ) :
    (reached evaluate ns c).map Prod.fst <+: ns := by
  induction ns generalizing c with
  | nil => exact List.prefix_refl _
  | cons n rest ih =>
    rw [reached, List.map_cons, List.cons_prefix_cons]
    refine ⟨rfl, ?_⟩
    rcases evaluate n c with ⟨e | ⟨v⟩ | ⟨code⟩, next⟩
    · exact ih _
    · exact ih _
    · exact List.nil_prefix

/-- The outcomes are the results of the statements that are evaluated. -/
theorem statementsStep_outcomes (ns : List Node) (acc : List Outcome) (c : Context κ) :
    (statementsStep evaluate ns acc c).1.2 = acc ++ (reached evaluate ns c).map
      (fun run => Outcome.ofResult (evaluate run.1 run.2).1) := by
  induction ns generalizing acc c with
  | nil =>
    rw [statementsStep_nil, reached, List.map_nil, List.append_nil]
    rfl
  | cons n rest ih =>
    rw [statementsStep_cons, reached, List.map_cons]
    unfold seq
    rcases evaluate n c with ⟨e | ⟨v⟩ | ⟨code⟩, next⟩
    · exact (ih _ _).trans (List.append_assoc _ _ _)
    · exact (ih _ _).trans (List.append_assoc _ _ _)
    · rfl

/-- The errors left for report are those of the statements that are evaluated, one statement after
the other. -/
theorem statementsStep_diagnostics {quiet : κ → Prop} {reported : Node → Context κ → List Error}
    (h : ∀ n, Accounts quiet (evaluate n) (reported n)) (ns : List Node) (acc : List Outcome)
    {c : Context κ} (hc : c.Registers quiet) :
    (statementsStep evaluate ns acc c).2.diagnostics = c.diagnostics ++
        (reached evaluate ns c).flatMap (fun run => reported run.1 run.2) ∧
      ∀ run ∈ reached evaluate ns c, run.2.Registers quiet := by
  induction ns generalizing acc c with
  | nil =>
    rw [statementsStep_nil]
    exact ⟨(List.append_nil _).symm, fun _ hrun => (List.not_mem_nil hrun).elim⟩
  | cons n rest ih =>
    obtain ⟨hdiagnostics, hregisters⟩ := h n c hc
    rw [statementsStep_cons, reached, List.flatMap_cons, ← List.append_assoc, ← hdiagnostics,
      List.forall_mem_cons]
    unfold seq
    -- a failure is noted before the next statement, which the reports do not see
    rcases hresult : evaluate n c with ⟨e | ⟨v⟩ | ⟨code⟩, next⟩ <;> rw [hresult] at hregisters
    · obtain ⟨hrest, hruns⟩ := ih (acc ++ [.failed e]) (c := next.note (.statementFailed e))
        hregisters
      exact ⟨hrest, hc, hruns⟩
    · obtain ⟨hrest, hruns⟩ := ih (acc ++ [.value v]) hregisters
      exact ⟨hrest, hc, hruns⟩
    · exact ⟨(List.append_nil _).symm, hc, fun _ hrun => (List.not_mem_nil hrun).elim⟩

end Statements

/-! ## Programs -/

/-- The failures around a node are told once, and where they belong. -/
structure Node.Accounted (dispatch : Dispatch κ) (n : Node) (c : Context κ) : Prop where
  /-- As a statement the node fails if its own evaluation does. -/
  failed : ∀ e, Outcome.ofResult (n.evaluate dispatch c).1 = .failed e ↔
    (n.evaluate dispatch c).1 = .error e
  /-- Its evaluation fails with an error of its own, or with one from inside it. -/
  raised : ∀ e, (n.evaluate dispatch c).1 = .error e ↔ ∃ path, n.Raises dispatch c path e
  /-- An error from inside it comes neither from an embedded command nor through one. -/
  passed : ∀ path e, n.Raises dispatch c path e → ∀ start, start <+: path → start ≠ [] →
    ∃ m, n.at? start = some m ∧ m.isCommand = false
  /-- The errors of the embedded commands that failed are left for report, as they completed. -/
  reported : (n.evaluate dispatch c).2.diagnostics =
    c.diagnostics ++ failures (n.completions dispatch c)
  /-- What completed is what stands inside the node. -/
  located : ∀ x ∈ n.completions dispatch c, x.path ≠ [] ∧ n.at? x.path = some x.node
  /-- Nothing that stands inside the node completed twice. -/
  once : ((n.completions dispatch c).map Completion.path).Nodup

theorem accounted_of_silent {quiet : κ → Prop} {dispatch : Dispatch κ}
    (hdispatch : ∀ name values flags, Accounts quiet (dispatch name values flags) (fun _ => []))
    (n : Node) {c : Context κ} (hc : c.Registers quiet) : n.Accounted dispatch c where
  failed _ := Outcome.ofResult_eq_failed_iff
  raised _ := Node.evaluate_error_iff
  passed _ _ h _ hstart hne := h.no_command hstart hne
  reported := (accounts_evaluate hdispatch n c hc).1
  located _ hx := Node.completions_at? hx
  once := Node.nodup_completions n c

namespace Interpreter

/-- The statements of a program that are evaluated, each with the context in which it is. -/
def runs (i : Interpreter) (set : CommandSet κ) (p : Program) (c : Context κ) :
    List (Node × Context κ) :=
  reached (i.evaluateNode set c) p.statements (c.under i)

/-- No failure is lost, told twice or told in the wrong place, if the registered commands report
nothing themselves. The outcomes of a program are the results of its statements; what is left for
report are the errors of the embedded commands that failed, statement by statement and in the order
in which they completed; and no embedded command makes what is around it fail. -/
theorem failures_accounted {set : CommandSet κ} {quiet : κ → Prop} (hset : set.Quiet quiet)
    (i : Interpreter) (p : Program) (c : Context κ) (hc : c.Registers quiet) :
    (i.runs set p c).map Prod.fst <+: p.statements ∧
    (i.evaluateProgram set p c).1 = (i.runs set p c).map
      (fun run => Outcome.ofResult (i.evaluateNode set c run.1 run.2).1) ∧
    (i.evaluateProgram set p c).2.diagnostics = c.diagnostics ++ (i.runs set p c).flatMap
      (fun run => failures (run.1.completions
        (set.dispatch (set.reenterWithin (CommandSet.levels i c))) run.2)) ∧
    ∀ run ∈ i.runs set p c, run.1.Accounted
      (set.dispatch (set.reenterWithin (CommandSet.levels i c))) run.2 := by
  have hdispatch := hset.accounts_dispatch (set.reenterWithin (CommandSet.levels i c))
  obtain ⟨hdiagnostics, hregisters⟩ := statementsStep_diagnostics (accounts_evaluate hdispatch)
    p.statements [] (c := c.under i) hc
  refine ⟨reached_statements _ _, ?_, hdiagnostics, ?_⟩
  · exact statementsStep_outcomes p.statements [] (c.under i)
  · exact fun run hrun => accounted_of_silent hdispatch run.1 (hregisters run hrun)

end Interpreter

/-- What is registered at once is one of the commands given, or was there before. -/
theorem Context.mem_of_registered {commands : List (String × κ)} {c : Context κ} {name : String}
    {code : κ} (h : (c.withCommands commands).commands.get? name = some code) :
    (name, code) ∈ commands ∨ c.commands.get? name = some code := by
  induction commands generalizing c with
  | nil => exact .inr h
  | cons entry rest ih =>
    rcases ih (c := c.setCommand entry.1 entry.2) h with hrest | hbefore
    · exact .inl (List.mem_cons_of_mem _ hrest)
    · rw [show (c.setCommand entry.1 entry.2).commands = c.commands.insert entry.1 entry.2 from rfl,
        NameMap.get?_insert] at hbefore
      split at hbefore
      · next hname =>
        cases hbefore
        rw [← hname]
        exact .inl List.mem_cons_self
      · exact .inr hbefore

namespace Builtin

/-- A shell with all builtins but `eval`. -/
def shellWithoutEval : Context Builtin :=
  ((Context.new {} "/").withCommands registry).removeCommand "eval"

theorem registers_shellWithoutEval : shellWithoutEval.Registers (· ≠ .eval) := by
  intro name code hcode heval
  change (NameMap.erase _ "eval").get? name = some code at hcode
  rw [NameMap.get?_erase] at hcode
  split at hcode
  · cases hcode
  · next hname =>
    rcases Context.mem_of_registered hcode with hmem | hbefore
    · -- the builtins stand under their own names
      obtain ⟨b, -, hb⟩ := List.mem_map.mp hmem
      cases hb
      rw [heval] at hname
      exact hname rfl
    · cases hbefore

end Builtin

namespace Interpreter

/-- A statement in which two commands fail, and one that fails by a variable. -/
def failingProgram : Program :=
  ⟨[.command "echo" [.command "nosuch" [] [],
      .interpolated [.text "a", .node (.command "set" [] [])]] [],
    .command "cd" [.variable "nowhere"] []]⟩

/-- The embedded commands leave their errors for report and what is around them goes on; the error
of the variable is the outcome of its statement. -/
theorem failures_accounted_embedded :
    ((Builtin.commandSet .empty).Quiet (· ≠ .eval) ∧
      Builtin.shellWithoutEval.Registers (· ≠ .eval)) ∧
    (evaluateProgram {} (Builtin.commandSet .empty) failingProgram
      Builtin.shellWithoutEval).2.diagnostics.length = 2 ∧
    (evaluateProgram {} (Builtin.commandSet .empty) failingProgram Builtin.shellWithoutEval).1 =
      (runs {} (Builtin.commandSet .empty) failingProgram Builtin.shellWithoutEval).map (fun run =>
        Outcome.ofResult (evaluateNode {} (Builtin.commandSet .empty) Builtin.shellWithoutEval
          run.1 run.2).1) ∧
    ∀ run ∈ runs {} (Builtin.commandSet .empty) failingProgram Builtin.shellWithoutEval,
      run.1.Accounted ((Builtin.commandSet .empty).dispatch
        ((Builtin.commandSet .empty).reenterWithin
          (CommandSet.levels {} Builtin.shellWithoutEval))) run.2 := by
  have hset := Builtin.quiet_commandSet .empty
  have hregisters := Builtin.registers_shellWithoutEval
  obtain ⟨-, houtcomes, -, haccounted⟩ :=
    failures_accounted hset {} failingProgram Builtin.shellWithoutEval hregisters
  exact ⟨⟨hset, hregisters⟩, by decide +kernel, houtcomes, haccounted⟩

end Interpreter

end CommandShell
