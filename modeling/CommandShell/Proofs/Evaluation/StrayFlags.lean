/-
# CommandShell.Proofs.Evaluation.StrayFlags -- no text leads to a stray flag

Evaluation refuses a flag that stands outside of a command. In a program that was read there is none
(`Node.Normal`), and whatever evaluation runs was read before, texts that commands run included: so
this error never comes up, neither as the outcome of a statement nor among the errors that are kept
for report.

A step is described by the kind of its result and by the errors that it puts up for report
(`Gives`). Errors other than that about a stray flag are proper; the evaluation of a node without
stray flags fails with a proper error if it fails, and reports proper errors only.
-/
import CommandShell.Proofs.Evaluation.BuiltinSteps
import CommandShell.Proofs.Program.NormalForm

namespace CommandShell

open Step CommandShell.Action

variable {κ τ υ α β : Type}

/-! ## Kinds of results -/

/-- A result that fails with a proper error, if it fails. -/
def FailsProperly (r : Except Error α) : Prop := ∀ e, r = .error e → e.Proper

theorem failsProperly_ok (a : α) : FailsProperly (.ok a : Except Error α) := by
  rintro e ⟨⟩

theorem failsProperly_error {e : Error} (he : e.Proper) :
    FailsProperly (.error e : Except Error α) := by
  rintro _ ⟨⟩
  exact he

/-- Outcomes whose failures are proper. -/
def EndProperly (os : List Outcome) : Prop := ∀ e, Outcome.failed e ∈ os → e.Proper

theorem endProperly_nil : EndProperly [] := fun _ h => (List.not_mem_nil h).elim

theorem EndProperly.append {os : List Outcome} (hos : EndProperly os) {o : Outcome}
    (ho : ∀ e, o = .failed e → e.Proper) : EndProperly (os ++ [o]) := by
  intro e he
  rcases List.mem_append.mp he with he | he
  · exact hos e he
  · exact ho e (List.mem_singleton.mp he).symm

theorem EndProperly.failed {os : List Outcome} (hos : EndProperly os) {e : Error}
    (he : e.Proper) : EndProperly (os ++ [.failed e]) := by
  refine hos.append ?_
  rintro _ ⟨⟩
  exact he

/-- The answer of a text that is run inside a command. -/
def AnswersProperly (r : Except Error (List Outcome)) : Prop :=
  FailsProperly r ∧ ∀ os, r = .ok os → EndProperly os

/-! ## Steps -/

namespace Step

/-- A step has a result of the given kind, and the errors it puts up for report are proper. -/
def Gives (Q : τ → Prop) (x : Step κ τ) : Prop :=
  ∀ c, Q (x c).1 ∧ ∃ new, (x c).2.diagnostics = c.diagnostics ++ new ∧ ∀ e ∈ new, e.Proper

variable {P : τ → Prop} {Q : υ → Prop}

/-- A step that puts nothing up for report. -/
theorem gives_of_eq {x : Step κ υ} (hresult : ∀ c, Q (x c).1)
    (hreports : ∀ c, (x c).2.diagnostics = c.diagnostics) : Gives Q x := by
  intro c
  refine ⟨hresult c, [], ?_, fun _ he => (List.not_mem_nil he).elim⟩
  rw [hreports c, List.append_nil]

theorem gives_result {t : υ} (ht : Q t) : Gives Q (result t : Step κ υ) :=
  gives_of_eq (fun _ => ht) (fun _ => rfl)

theorem gives_noting (e : Event) : Gives (fun _ => True) (noting e : Step κ Unit) :=
  gives_of_eq (fun _ => trivial) (fun _ => rfl)

theorem Gives.seq {x : Step κ τ} {f : τ → Step κ υ} (hx : Gives P x)
    (hf : ∀ t, P t → Gives Q (f t)) : Gives Q (seq x f) := by
  intro c
  obtain ⟨hresult, new, hnew, hproper⟩ := hx c
  obtain ⟨hresult', more, hmore, hproper'⟩ := hf _ hresult (x c).2
  refine ⟨hresult', new ++ more, ?_, fun e he => ?_⟩
  · show (f (x c).1 (x c).2).2.diagnostics = _
    rw [hmore, hnew, List.append_assoc]
  · exact (List.mem_append.mp he).elim (hproper e) (hproper' e)

/-- A step behind a note. -/
theorem Gives.noted {x : Step κ υ} (hx : Gives Q x) (e : Event) :
    Gives Q (Step.seq (noting e) (fun _ => x)) :=
  (gives_noting e).seq (fun _ _ => hx)

end Step

namespace Action

theorem gives_pure (a : α) : Gives FailsProperly (pure a : Action κ α) :=
  gives_result (failsProperly_ok a)

theorem gives_fail {e : Error} (he : e.Proper) : Gives FailsProperly (fail e : Action κ α) :=
  gives_result (failsProperly_error he)

theorem gives_bind {x : Action κ α} {f : α → Action κ β} (hx : Gives FailsProperly x)
    (hf : ∀ a, Gives FailsProperly (f a)) : Gives FailsProperly (x >>= f : Action κ β) := by
  rw [bind_eq_seq]
  refine hx.seq (fun r hr => ?_)
  cases r with
  | ok a => exact hf a
  | error e => exact gives_result (failsProperly_error (hr e rfl))

/-- A refusal to go deeper is a proper error. -/
theorem gives_nested {Q : Except Error α → Prop}
    (hrefused : ∀ limit, Q (.error (.depthExceeded limit))) {x : Action κ α} (hx : Gives Q x) :
    Gives Q (nested x) := by
  intro c
  by_cases hdepth : c.depth < c.interpreter.maxDepth
  · rw [nested_of_lt x hdepth]
    exact hx (enter c)
  · rw [nested_of_not_lt x hdepth]
    exact gives_of_eq (x := refuse) (fun _ => hrefused _) (fun _ => rfl) c

theorem gives_tryUpdate {f : Context κ → Except Error (Context κ)}
    (hok : ∀ c next, f c = .ok next → next.diagnostics = c.diagnostics)
    (herror : ∀ c e, f c = .error e → e.Proper) :
    Gives FailsProperly (tryUpdate f : Action κ Unit) := by
  refine gives_of_eq (fun c => ?_) (fun c => ?_)
  · unfold tryUpdate
    split
    · exact failsProperly_ok ()
    · next e he => exact failsProperly_error (herror c e he)
  · unfold tryUpdate
    split
    · next next hnext => exact hok c next hnext
    · rfl

end Action

/-! ## Nodes -/

/-- Evaluation keeps to proper errors wherever it puts steps together. -/
theorem carried_gives : @Carried κ (fun x _ => Gives FailsProperly x) where
  value _ := gives_result (failsProperly_ok _)
  readVariable name := by
    rw [readVariable_eq_seq]
    intro c
    dsimp only
    split
    · exact gives_result (failsProperly_ok _) c
    · refine Gives.noted (gives_result ?_) _ c
      split
      · exact failsProperly_ok _
      · exact failsProperly_error (by rintro f ⟨⟩)
  andThen hx hf := by
    refine gives_bind hx (fun flow => ?_)
    cases flow with
    | value a => exact hf a
    | exit code => exact gives_result (failsProperly_ok _)
  contain n hx := by
    rw [contain_eq_seq]
    refine hx.seq (fun r hr => ?_)
    cases r with
    | ok flow => exact gives_result (failsProperly_ok _)
    | error e =>
      refine Gives.noted (fun c => ⟨failsProperly_ok _, [e], rfl, fun e' he' => ?_⟩) _
      rw [List.mem_singleton.mp he']
      exact hr e rfl
  nested := gives_nested (fun _ => failsProperly_error (by rintro f ⟨⟩))
  substituted n v := gives_bind (gives_of_eq (fun _ => failsProperly_ok _) (fun _ => rfl))
    (fun _ => gives_pure _)

/-! ## Texts -/

section Runs

variable {evaluate : Node → Action κ (Flow Value)}

theorem gives_statementsStep {ns : List Node} (h : ∀ n ∈ ns, Gives FailsProperly (evaluate n))
    {acc : List Outcome} (hacc : EndProperly acc) :
    Gives (fun after => EndProperly after.2) (statementsStep evaluate ns acc) := by
  induction ns generalizing acc with
  | nil =>
    rw [statementsStep_nil]
    exact gives_result hacc
  | cons n rest ih =>
    have hrest : ∀ {acc}, EndProperly acc →
        Gives (fun after => EndProperly after.2) (statementsStep evaluate rest acc) :=
      ih (fun m hm => h m (List.mem_cons_of_mem _ hm))
    rw [statementsStep_cons]
    refine (h n List.mem_cons_self).seq (fun r hr => ?_)
    rcases r with e | ⟨v⟩ | ⟨code⟩
    · exact (hrest (hacc.failed (hr e rfl))).noted _
    · exact hrest (hacc.append (by rintro _ ⟨⟩))
    · exact gives_result (hacc.append (by rintro _ ⟨⟩))

variable {reader : Reader}
  (h : ∀ source p, reader.program source = .ok p →
    ∀ n ∈ p.statements, Gives FailsProperly (evaluate n))

include h

theorem gives_linesStep (lines : List String) {acc : List Outcome} (hacc : EndProperly acc) :
    Gives EndProperly (linesStep reader evaluate lines acc) := by
  induction lines generalizing acc with
  | nil =>
    rw [linesStep_nil]
    exact gives_result hacc
  | cons line rest ih =>
    rw [linesStep_cons]
    refine Gives.noted ?_ _
    cases hp : reader.program line with
    | error e => exact ih (hacc.failed (by rintro f ⟨⟩))
    | ok p =>
      refine (gives_statementsStep (h line p hp) hacc).seq (fun after hafter => ?_)
      rcases after with ⟨_ | _, outcomes⟩
      · exact ih hafter
      · exact gives_result hafter

/-- A text ends properly if the nodes that are read from it do. -/
theorem gives_textStep (source : String) {acc : List Outcome} (hacc : EndProperly acc) :
    Gives EndProperly (textStep reader evaluate source acc) := by
  rw [textStep_eq]
  refine Gives.noted ?_ _
  cases hp : reader.program source with
  | ok p => exact (gives_statementsStep (h source p hp) hacc).seq (fun _ => gives_result)
  | error e =>
    refine Gives.noted ?_ _
    split
    · exact gives_linesStep h _ hacc
    · exact gives_result (hacc.failed (by rintro f ⟨⟩))

end Runs

/-! ## Builtins -/

namespace Builtin

/-- The steps of the builtins fail properly and put nothing up for report. -/
theorem closed_gives : @Closed κ (fun x => Gives FailsProperly x) where
  pure := gives_pure
  fail := gives_fail
  bind := gives_bind
  look hf _ := fun c => hf c c
  moved _ := gives_of_eq (fun _ => failsProperly_ok _) (fun _ => rfl)
  moveTo files path := by
    refine gives_tryUpdate (fun c next h => ?_) (fun c e h => ?_) <;>
      simp only [Context.moveTo] at h <;> split at h <;> cases h
    · rfl
    · rintro f ⟨⟩
  setVariable _ _ _ := gives_of_eq (fun _ => failsProperly_ok _) (fun _ => rfl)
  unsetVariable _ := gives_of_eq (fun _ => failsProperly_ok _) (fun _ => rfl)
  exportVariable name := by
    refine gives_tryUpdate (fun c next h => ?_) (fun c e h => ?_) <;>
      simp only [Context.exportVariable?] at h <;> cases hget : c.bindings.get? name <;>
      rw [hget] at h <;> cases h
    · rfl
    · rintro f ⟨⟩
  pushOption name value := by
    refine gives_tryUpdate (fun c next h => ?_) (fun c e h => ?_) <;>
      simp only [Context.pushOption, OptionTable.push] at h <;> split at h <;> cases h
    · rfl
    · rintro f ⟨⟩
  popOption name := by
    have hpop : ∀ c : Context κ,
        (∃ value options, c.popOption name =
          .ok (value, { c with options := options }.note (.popped name value))) ∨
        ∃ e : Error, e.Proper ∧ c.popOption name = .error e := by
      intro c
      unfold Context.popOption OptionTable.pop
      split
      · exact .inr ⟨.undeclaredOption name, by rintro f ⟨⟩, rfl⟩
      · exact .inl ⟨_, _, rfl⟩
      · exact .inr ⟨.optionAtDefault name, by rintro f ⟨⟩, rfl⟩
    refine gives_of_eq (fun c => ?_) (fun c => ?_)
    · obtain ⟨value, options, hok⟩ | ⟨e, he, herror⟩ := hpop c
      · simp only [hok]
        exact failsProperly_ok value
      · simp only [herror]
        exact failsProperly_error he
    · obtain ⟨value, options, hok⟩ | ⟨e, he, herror⟩ := hpop c
      · simp only [hok]
        rfl
      · simp only [herror]

theorem gather_error_mem {os : List Outcome} {e : Error} (h : gather os = .error e) :
    Outcome.failed e ∈ os := by
  induction os with
  | nil => cases h
  | cons o rest ih =>
    cases o with
    | value v =>
      rw [gather] at h
      cases hrest : gather rest with
      | ok flow =>
        rw [hrest] at h
        cases flow <;> cases h
      | error e' =>
        rw [hrest] at h
        cases h
        exact List.mem_cons_of_mem _ (ih hrest)
    | failed e' =>
      cases h
      exact List.mem_cons_self
    | exited code => cases h

/-- What `eval` fails with is a failure of the text it runs. -/
theorem gives_invoke {files : Files.Tree} {describe : κ → String} {reenter : Reentry κ}
    (hreenter : ∀ source, Gives AnswersProperly (reenter source)) (b : Builtin)
    (values : List Value) (flags : List Flag) :
    Gives FailsProperly (invoke files describe reenter b values flags) := by
  by_cases heval : b = .eval
  · rw [heval]
    show Gives FailsProperly (evaluateText reenter values)
    unfold evaluateText
    rw [bind_eq_seq]
    refine (hreenter _).seq (fun r hr => ?_)
    cases r with
    | error e => exact gives_result (failsProperly_error (hr.1 e rfl))
    | ok outcomes =>
      refine gives_bind ?_ (fun flow => ?_)
      · cases hgather : gather outcomes with
        | ok flow => exact gives_pure flow
        | error e => exact gives_fail (hr.2 _ rfl e (gather_error_mem hgather))
      · cases flow with
        | value vs => exact gives_pure _
        | exit code => exact gives_pure _
  · exact closed_gives.invoke heval files describe reenter values flags

/-! ## Whole evaluations -/

variable (files : Files.Tree)

theorem gives_dispatch {reenter : Reentry Builtin}
    (hreenter : ∀ source, Gives AnswersProperly (reenter source)) (name : String)
    (values : List Value) (flags : List Flag) :
    Gives FailsProperly ((commandSet files).dispatch reenter name values flags) := by
  rw [CommandSet.dispatch_eq_seq]
  refine Gives.noted (fun c => ?_) _
  cases c.commands.get? name with
  | none => exact gives_result (failsProperly_error (by rintro f ⟨⟩)) c
  | some code =>
    refine Gives.noted ?_ _ c
    refine (gives_invoke hreenter code values flags).seq (fun answer hanswer => ?_)
    exact (gives_result hanswer).noted _

/-- In a node in normal form there is no stray flag to fail for. -/
theorem gives_evaluate {reenter : Reentry Builtin}
    (hreenter : ∀ source, Gives AnswersProperly (reenter source)) {n : Node}
    (hn : n.Everywhere Node.Normal) :
    Gives FailsProperly (n.evaluate ((commandSet files).dispatch reenter)) := by
  refine @Carried.evaluate _ _ carried_gives _ ((commandSet files).dispatch reenter)
    (gives_dispatch files hreenter) n (hn.mono ?_)
  rintro _ hnormal f rfl
  exact hnormal.elim

theorem gives_textStep_read {reenter : Reentry Builtin}
    (hreenter : ∀ source, Gives AnswersProperly (reenter source)) (reader : Reader)
    (source : String) :
    Gives EndProperly
      (textStep reader (Node.evaluate ((commandSet files).dispatch reenter)) source []) := by
  refine gives_textStep (fun line p hp n hn => ?_) source endProperly_nil
  exact gives_evaluate files hreenter (Reader.program_normal hp n hn)

/-- Texts that are run inside a command end properly, by induction on how many more there may be. -/
theorem gives_reenterWithin (levels : Nat) :
    ∀ source, Gives AnswersProperly ((commandSet files).reenterWithin levels source) := by
  have hrefused : ∀ limit, AnswersProperly (.error (.depthExceeded limit)) :=
    fun limit => ⟨failsProperly_error (by rintro f ⟨⟩), by rintro os ⟨⟩⟩
  induction levels with
  | zero => exact fun _ => gives_of_eq (fun _ => hrefused _) (fun _ => rfl)
  | succ levels ih =>
    intro source
    rw [CommandSet.reenterWithin_succ]
    refine gives_nested hrefused (Gives.seq (P := EndProperly) ?_ (fun outcomes hos => ?_))
    · exact fun c => gives_textStep_read files ih c.interpreter.reader source c
    · refine gives_result ⟨failsProperly_ok _, ?_⟩
      rintro os ⟨⟩
      exact hos

end Builtin

namespace Interpreter

open Grammar in
/-- What is read is in normal form, so that no text leads to a stray flag.

* In a program or an expression that was read, commands have flags that carry the number one and no
  flag stands anywhere else; and the strings with substitutions have at least one of them, no text
  that is empty or stands next to text, and no such string inside a substitution.
* An unquoted word is the literal of its own text.
* No outcome of an evaluation with the builtins is the error about a stray flag, and neither is an
  error that is kept for report, whatever texts are run on the way. -/
theorem stray_flags_never (files : Files.Tree) (i : Interpreter) (source : String)
    (c : Context Builtin) :
    (∀ r : Reader,
      (∀ p, r.program source = .ok p → ∀ n ∈ p.statements, n.Everywhere Node.Normal) ∧
      (∀ n, r.expression source = .ok n → n.Everywhere Node.Normal) ∧
      (∀ t, r.programTree source = .ok t → ∀ w ∈ Statement.bareWordsOf t,
        Reader.exprNode (r.stringNode r.expression) (.bare w) = .ok (.literal (.string w))) ∧
      ∀ b, r.expressionTree source = .ok b → ∀ w ∈ b.bareWords,
        Reader.exprNode (r.stringNode r.expression) (.bare w) = .ok (.literal (.string w))) ∧
    (∀ f, Outcome.failed (.strayFlag f) ∉ (i.evaluate (Builtin.commandSet files) source c).1) ∧
    ∃ new,
      (i.evaluate (Builtin.commandSet files) source c).2.diagnostics = c.diagnostics ++ new ∧
        ∀ f, Error.strayFlag f ∉ new := by
  refine ⟨fun r => ⟨fun p => Reader.program_normal, fun n => Reader.expression_normal, ?_, ?_⟩, ?_⟩
  · intro t ht w hw
    exact r.stringNode_bare _ ((Reader.programTree_eq_ok_iff.mp ht).2.bareText w hw)
  · intro b hb w hw
    exact r.stringNode_bare _ ((Reader.expressionTree_eq_ok_iff.mp hb).2.bareText w hw)
  · obtain ⟨houtcomes, new, hnew, hproper⟩ :=
      Builtin.gives_textStep_read files (Builtin.gives_reenterWithin files (CommandSet.levels i c))
        i.reader source { c with interpreter := i }
    exact ⟨fun f hf => houtcomes _ hf f rfl, new, hnew, fun f hf => hproper _ hf f rfl⟩

/-- A flag inside a substitution belongs to the command there. -/
theorem stray_flags_never_substituted :
    Reader.program ⟨false, 1⟩ "ls -a \"x$(pwd -b $c)\" z" = .ok ⟨[.command "ls"
      [.interpolated [.text "x",
        .node (.command "pwd" [.variable "c"] [.written "b" false])],
        .literal (.string "z")] [.written "a" false]]⟩ ∧
    (Node.command "ls"
      [.interpolated [.text "x",
        .node (.command "pwd" [.variable "c"] [.written "b" false])],
        .literal (.string "z")] [.written "a" false]).Everywhere Node.Normal ∧
    ∀ f, Outcome.failed (.strayFlag f) ∉ (({} : Interpreter).evaluate (Builtin.commandSet .empty)
      "ls -a \"x$(pwd -b $c)\" z" ((Context.new {} "/").withCommands Builtin.registry)).1 := by
  have htree : Reader.programTree ⟨false, 1⟩ "ls -a \"x$(pwd -b $c)\" z" = .ok [⟨some (.command "ls"
      [.flag "a" false, .expr (.quoted "x$(pwd -b $c)"), .expr (.bare "z")]), none⟩] := by
    cbv
  have hquoted : Reader.stringNode ⟨false, 1⟩ (Reader.expression ⟨false, 1⟩) "x$(pwd -b $c)" =
      .ok (.interpolated [.text "x",
        .node (.command "pwd" [.variable "c"] [.written "b" false])]) := by
    cbv
  obtain ⟨hforms, houtcomes, -⟩ := stray_flags_never .empty {} "ls -a \"x$(pwd -b $c)\" z"
    ((Context.new {} "/").withCommands Builtin.registry)
  obtain ⟨hprogram, -, hwords, -⟩ := hforms ⟨false, 1⟩
  have hbare : Reader.stringNode ⟨false, 1⟩ (Reader.expression ⟨false, 1⟩) "z" =
      .ok (.literal (.string "z")) := hwords _ htree "z" (by decide)
  have hread : Reader.program ⟨false, 1⟩ "ls -a \"x$(pwd -b $c)\" z" = .ok ⟨[.command "ls"
      [.interpolated [.text "x",
        .node (.command "pwd" [.variable "c"] [.written "b" false])],
        .literal (.string "z")] [.written "a" false]]⟩ := by
    refine Reader.program_eq_ok_iff.mpr ⟨_, htree, ?_⟩
    simp only [Reader.statementNodes, Reader.nodeOf, Reader.wordsOf, Reader.wordNode,
      Reader.exprNode, hquoted, hbare]
    rfl
  exact ⟨hread, hprogram _ hread _ List.mem_cons_self, houtcomes⟩

end Interpreter

end CommandShell
