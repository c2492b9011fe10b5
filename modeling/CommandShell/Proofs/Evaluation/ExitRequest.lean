/-
# CommandShell.Proofs.Evaluation.ExitRequest -- what becomes of a request to leave

The journal of an evaluation is read as a run of a small machine. It is idle until the command
`exit` is called; when that command grants the request, the shell is leaving, and from then on the
journal says nothing but that levels are left and that `eval`, in which the request was made, hands
it on. There is one other way out of leaving: `eval` fails, because a statement of its text had
failed before the request was made, and the request is lost.

Each step of evaluation is described by the stage it starts from and by how its result and the stage
behind it belong together. Steps compose, and so do their descriptions.
-/
import CommandShell.Proofs.Evaluation.Builtins

namespace CommandShell

open Step

variable {α β σ τ υ : Type}

/-! ## Stages of a journal -/

/-- How far a request to leave has come. -/
inductive Stage where
  | idle
  | asked
  | leaving (code : Int32)

/-- Whether an event neither calls `exit` nor answers with a request to leave. -/
def Event.Calm (m : NameMap Builtin) : Event → Prop
  | .called name _ _ => m.get? name ≠ some .exit
  | .answered _ (.ok (.exit _)) => False
  | _ => True

/-- How the events of a journal move the stage. -/
inductive Moves (m : NameMap Builtin) : Stage → Event → Stage → Prop
  | calm {e : Event} : e.Calm m → Moves m .idle e .idle
  | ask {name : String} {values : List Value} {flags : List Flag} :
      m.get? name = some .exit → Moves m .idle (.called name values flags) .asked
  | invoke {name : String} {values : List Value} {flags : List Flag} :
      Moves m .asked (.invoked name values flags) .asked
  | grant {name : String} {code : Int32} :
      m.get? name = some .exit →
      Moves m .asked (.answered name (.ok (.exit code))) (.leaving code)
  | deny {name : String} {e : Error} :
      m.get? name = some .exit → Moves m .asked (.answered name (.error e)) .idle
  | leave {code : Int32} {depth : Nat} : Moves m (.leaving code) (.left depth) (.leaving code)
  | pass {name : String} {code : Int32} :
      m.get? name = some .eval →
      Moves m (.leaving code) (.answered name (.ok (.exit code))) (.leaving code)
  | lose {name : String} {code : Int32} {e : Error} :
      m.get? name = some .eval → Moves m (.leaving code) (.answered name (.error e)) .idle

/-- How a sequence of events moves the stage. -/
inductive Follows (m : NameMap Builtin) : Stage → List Event → Stage → Prop
  | nil {s : Stage} : Follows m s [] s
  | cons {s s' s'' : Stage} {e : Event} {es : List Event} :
      Moves m s e s' → Follows m s' es s'' → Follows m s (e :: es) s''

namespace Follows

variable {m : NameMap Builtin} {s s' : Stage}

theorem one {e : Event} (h : Moves m s e s') : Follows m s [e] s' := .cons h .nil

theorem append {s'' : Stage} {es fs : List Event} (h : Follows m s es s')
    (h' : Follows m s' fs s'') : Follows m s (es ++ fs) s'' := by
  induction h with
  | nil => exact h'
  | cons hmove _ ih => exact .cons hmove (ih h')

theorem split {es fs : List Event} (h : Follows m s (es ++ fs) s') :
    ∃ mid, Follows m s es mid ∧ Follows m mid fs s' := by
  induction es generalizing s with
  | nil => exact ⟨s, .nil, h⟩
  | cons e es ih =>
    cases h with
    | cons hmove hrest =>
      obtain ⟨mid, hbefore, hafter⟩ := ih hrest
      exact ⟨mid, .cons hmove hbefore, hafter⟩

theorem of_calm {es : List Event} (h : ∀ e ∈ es, e.Calm m) : Follows m .idle es .idle := by
  induction es with
  | nil => exact .nil
  | cons e es ih =>
    exact .cons (.calm (h e List.mem_cons_self)) (ih (fun d hd => h d (List.mem_cons_of_mem _ hd)))

end Follows

/-! ## Descriptions of steps -/

/-- From a context with the given commands, a step takes the journal from one stage to another that
belongs to its result, and leaves the commands as they are. -/
def Staged (m : NameMap Builtin) (s : Stage) (x : Step Builtin τ) (Q : τ → Stage → Prop) : Prop :=
  ∀ c : Context Builtin, c.commands = m →
    ∃ es s', (x c).2.log = c.log ++ es ∧ (x c).2.commands = m ∧ Follows m s es s' ∧ Q (x c).1 s'

section Rules

variable {m : NameMap Builtin} {s : Stage}

theorem staged_result {t : τ} {Q : τ → Stage → Prop} (h : Q t s) : Staged m s (result t) Q :=
  fun _ hc => ⟨[], s, (List.append_nil _).symm, hc, .nil, h⟩

theorem Staged.seq {x : Step Builtin τ} {f : τ → Step Builtin υ} {Q : τ → Stage → Prop}
    {R : υ → Stage → Prop} (hx : Staged m s x Q) (hf : ∀ t s', Q t s' → Staged m s' (f t) R) :
    Staged m s (seq x f) R := by
  intro c hc
  obtain ⟨es, s', hlog, hcommands, hes, hQ⟩ := hx c hc
  obtain ⟨fs, s'', hlog', hcommands', hfs, hR⟩ := hf _ s' hQ (x c).2 hcommands
  refine ⟨es ++ fs, s'', ?_, hcommands', hes.append hfs, hR⟩
  show (f (x c).1 (x c).2).2.log = _
  rw [hlog', hlog, List.append_assoc]

theorem staged_noting {e : Event} {s' : Stage} (h : Moves m s e s') :
    Staged m s (noting e) (fun _ t => t = s') :=
  fun _ hc => ⟨[e], s', List.reverse_cons, hc, .one h, rfl⟩

/-- A step that looks at the context first. -/
theorem staged_look {f : Context Builtin → Step Builtin τ} {Q : τ → Stage → Prop}
    (hf : ∀ c, c.commands = m → Staged m s (f c) Q) : Staged m s (fun c => f c c) Q :=
  fun c hc => hf c hc c hc

/-- A step that changes neither the journal nor the commands. -/
theorem staged_change {f : Context Builtin → Context Builtin} {t : τ} {Q : τ → Stage → Prop}
    (hlog : ∀ c, (f c).log = c.log) (hcommands : ∀ c, (f c).commands = c.commands) (h : Q t s) :
    Staged m s (fun c => (t, f c)) Q := by
  intro c hc
  refine ⟨[], s, ?_, (hcommands c).trans hc, .nil, h⟩
  rw [List.append_nil]
  exact hlog c

end Rules

/-! ## Nodes -/

/-- The stage that belongs to the result of a node. -/
def stageOf : Except Error (Flow α) → Stage
  | .ok (.exit code) => .leaving code
  | _ => .idle

/-- A step whose result says how far a request to leave has come. -/
def Tells (m : NameMap Builtin) (x : Action Builtin (Flow α)) : Prop :=
  Staged m .idle x (fun r s => s = stageOf r)

section Nodes

variable {m : NameMap Builtin}

theorem moves_left (r : Except Error (Flow α)) (depth : Nat) :
    Moves m (stageOf r) (.left depth) (stageOf r) := by
  rcases r with e | ⟨a⟩ | ⟨code⟩
  · exact .calm trivial
  · exact .calm trivial
  · exact .leave

theorem tells_andThen {x : Action Builtin (Flow α)} {f : α → Action Builtin (Flow β)}
    (hx : Tells m x) (hf : ∀ a, Tells m (f a)) : Tells m (Action.andThen x f) := by
  unfold Tells Action.andThen
  rw [Action.bind_eq_seq]
  refine Staged.seq hx ?_
  rintro r s rfl
  rcases r with e | ⟨a⟩ | ⟨code⟩
  · exact staged_result rfl
  · exact hf a
  · exact staged_result rfl

theorem tells_contain {x : Action Builtin (Flow Value)} (n : Node) (hx : Tells m x) :
    Tells m (contain n x) := by
  unfold Tells
  rw [Action.contain_eq_seq]
  refine Staged.seq hx ?_
  rintro r s rfl
  cases r with
  | ok flow => exact staged_result rfl
  | error e =>
    refine Staged.seq (staged_noting (.calm trivial)) ?_
    rintro ⟨⟩ s rfl
    exact staged_change (fun _ => rfl) (fun _ => rfl) rfl

/-- A level is left at whatever stage its body has come to. -/
theorem staged_nested {x : Action Builtin α} {Q : Except Error α → Stage → Prop}
    (hx : Staged m .idle x Q) (hleft : ∀ r s depth, Q r s → Moves m s (.left depth) s)
    (hrefuse : ∀ e, Q (.error e) .idle) : Staged m .idle (Action.nested x) Q := by
  intro c hc
  by_cases hdepth : c.depth < c.interpreter.maxDepth
  · rw [Action.nested_of_lt x hdepth]
    obtain ⟨es, s, hlog, hcommands, hes, hQ⟩ := hx (Action.enter c) hc
    refine ⟨.entered (c.depth + 1) :: (es ++ [.left (x (Action.enter c)).2.depth]), s, ?_,
      hcommands, .cons (.calm trivial) (hes.append (.one (hleft _ _ _ hQ))), hQ⟩
    show (Event.left _ :: (x (Action.enter c)).2.journal).reverse = _
    rw [List.reverse_cons]
    show (x (Action.enter c)).2.log ++ _ = _
    rw [hlog]
    show (Event.entered _ :: c.journal).reverse ++ es ++ _ = c.journal.reverse ++ _
    simp
  · rw [Action.nested_of_not_lt x hdepth]
    exact ⟨[.refused c.interpreter.maxDepth], .idle, List.reverse_cons, hc,
      .one (.calm trivial), hrefuse _⟩

theorem tells_nested {x : Action Builtin (Flow α)} (hx : Tells m x) :
    Tells m (Action.nested x) := by
  refine staged_nested hx ?_ (fun _ => rfl)
  rintro r s depth rfl
  exact moves_left r depth

theorem tells_readVariable (name : String) : Tells m (readVariable name) := by
  unfold Tells
  rw [Action.readVariable_eq_seq]
  refine staged_look (fun c _ => ?_)
  cases c.valueOf? name with
  | some v => exact staged_result rfl
  | none =>
    refine Staged.seq (staged_noting (.calm trivial)) ?_
    rintro ⟨⟩ s rfl
    cases c.interpreter.lenient with
    | true => exact staged_result rfl
    | false => exact staged_result rfl

theorem tells_substituted (n : Node) (v : Value) :
    Tells m (do Action.note (.substituted n v); pure (.value v.text)) := by
  unfold Tells
  rw [Action.bind_eq_seq]
  refine Staged.seq (Q := fun r s => r = .ok () ∧ s = .idle) ?_ ?_
  · intro c hc
    exact ⟨[.substituted n v], .idle, List.reverse_cons, hc, .one (.calm trivial), rfl, rfl⟩
  · rintro r s ⟨rfl, rfl⟩
    exact staged_result rfl

theorem closed_tells : @Closed Builtin (fun x => Tells m x) where
  value _ := staged_result rfl
  fail _ := staged_result rfl
  readVariable := tells_readVariable
  andThen := tells_andThen
  contain := tells_contain
  nested := tells_nested
  substituted := tells_substituted

end Nodes

/-! ## Outcomes -/

/-- The stage that belongs to the outcomes of a program: no request to leave, or one at the end. -/
inductive Ends : List Outcome → Stage → Prop
  | idle {os : List Outcome} : (∀ o ∈ os, o.isExit = false) → Ends os .idle
  | leaving {os : List Outcome} {code : Int32} :
      (∀ o ∈ os, o.isExit = false) → Ends (os ++ [.exited code]) (.leaving code)

namespace Builtin

theorem gather_ne_exit {os : List Outcome} (h : ∀ o ∈ os, o.isExit = false) (code : Int32) :
    gather os ≠ .ok (.exit code) := by
  induction os with
  | nil =>
    intro heq
    cases heq
  | cons o os ih =>
    have hrest := ih (fun o ho => h o (List.mem_cons_of_mem _ ho))
    cases o with
    | value v =>
      rw [gather]
      cases hgather : gather os with
      | error e =>
        intro heq
        cases heq
      | ok flow =>
        cases flow with
        | value vs =>
          intro heq
          cases heq
        | exit code' =>
          intro heq
          cases heq
          exact hrest hgather
    | failed e =>
      intro heq
      cases heq
    | exited code' => cases (h _ List.mem_cons_self : true = false)

/-- A request to leave is handed on exactly when no statement before it has failed. -/
theorem gather_exited {os : List Outcome} (h : ∀ o ∈ os, o.isExit = false) (code : Int32) :
    (∀ o ∈ os, ∀ e, o ≠ .failed e) ∧ gather (os ++ [.exited code]) = .ok (.exit code) ∨
      (∃ e, .failed e ∈ os) ∧ ∃ e, gather (os ++ [.exited code]) = .error e := by
  induction os with
  | nil => exact .inl ⟨fun o ho => (List.not_mem_nil ho).elim, rfl⟩
  | cons o os ih =>
    have hrest := ih (fun o ho => h o (List.mem_cons_of_mem _ ho))
    cases o with
    | value v =>
      rcases hrest with ⟨hnone, hgather⟩ | ⟨⟨e, he⟩, e', hgather⟩
      · refine .inl ⟨?_, ?_⟩
        · intro o ho e
          rcases List.mem_cons.mp ho with rfl | ho
          · intro heq
            cases heq
          · exact hnone o ho e
        · rw [List.cons_append, gather, hgather]
          rfl
      · refine .inr ⟨⟨e, List.mem_cons_of_mem _ he⟩, e', ?_⟩
        rw [List.cons_append, gather, hgather]
        rfl
    | failed e => exact .inr ⟨⟨e, List.mem_cons_self⟩, e, rfl⟩
    | exited code' => cases (h _ List.mem_cons_self : true = false)

end Builtin

/-! ## Commands -/

/-- The answers that a command can give when its text has come to a stage. -/
def Answers (r : Except Error (Flow Value)) : Stage → Prop
  | .idle => ∀ code, r ≠ .ok (.exit code)
  | .asked => False
  | .leaving code => r = .ok (.exit code) ∨ ∃ e, r = .error e

/-- The outcomes of a text that a command has run, if it was run at all. -/
def Reported : Except Error (List Outcome) → Stage → Prop
  | .ok outcomes, s => Ends outcomes s
  | .error _, s => s = .idle

section Commands

variable {m : NameMap Builtin}

theorem staged_evaluateText {reenter : Reentry Builtin}
    (hreenter : ∀ source, Staged m .idle (reenter source) Reported) (values : List Value) :
    Staged m .idle (Builtin.evaluateText reenter values) Answers := by
  unfold Builtin.evaluateText
  rw [Action.bind_eq_seq]
  refine Staged.seq (hreenter _) ?_
  intro r s hr
  cases r with
  | error e =>
    cases hr
    refine staged_result ?_
    intro code heq
    cases heq
  | ok outcomes =>
    cases hr with
    | idle hos =>
      have hgather := Builtin.gather_ne_exit hos
      show Staged m .idle
        (Action.ofExcept (Builtin.gather outcomes) >>= _ : Action Builtin _) Answers
      cases hresult : Builtin.gather outcomes with
      | error e => exact staged_result (fun code heq => by cases heq)
      | ok flow =>
        cases flow with
        | value vs => exact staged_result (fun code heq => by cases heq)
        | exit code => exact absurd hresult (hgather code)
    | @leaving os code hos =>
      show Staged m (.leaving code)
        (Action.ofExcept (Builtin.gather (os ++ [.exited code])) >>= _ : Action Builtin _) Answers
      rcases Builtin.gather_exited hos code with ⟨-, hgather⟩ | ⟨-, e, hgather⟩
      · rw [hgather]
        exact staged_result (.inl rfl)
      · rw [hgather]
        exact staged_result (.inr ⟨e, rfl⟩)

theorem Event.Minor.calm {e : Event} (h : e.Minor) : e.Calm m := by
  cases e with
  | pushed | popped | moved => trivial
  | _ => exact h.elim

theorem staged_of_logs {x : Step Builtin τ} (hx : Logs Event.Minor x) :
    Staged m .idle x (fun _ s => s = .idle) := by
  intro c hc
  obtain ⟨es, hes, hjournal⟩ := hx.journal c
  obtain ⟨_, -, -, hframe⟩ := hx c
  refine ⟨es.reverse, .idle, ?_, hframe.commands.trans hc, .of_calm ?_, rfl⟩
  · show (x c).2.journal.reverse = c.journal.reverse ++ es.reverse
    rw [hjournal, List.reverse_append]
  · intro e he
    exact (hes e (List.mem_reverse.mp he)).calm

theorem staged_plain {x : Action Builtin Value} (hx : Logs Event.Minor x) :
    Staged m .idle (Flow.value <$> x : Action Builtin (Flow Value))
      (fun r s => s = .idle ∧ Answers r s) := by
  show Staged m .idle (x >>= fun v => pure (.value v) : Action Builtin (Flow Value)) _
  rw [Action.bind_eq_seq]
  refine Staged.seq (staged_of_logs hx) ?_
  rintro r s rfl
  cases r with
  | ok v => exact staged_result ⟨rfl, fun code heq => by cases heq⟩
  | error e => exact staged_result ⟨rfl, fun code heq => by cases heq⟩

/-- The command `exit` makes a request or fails. -/
theorem staged_requestExit (values : List Value) :
    Staged m .asked (Builtin.requestExit values) (fun r s => s = .asked ∧
      ((∃ code, r = .ok (.exit code)) ∨ ∃ e, r = .error e)) := by
  unfold Builtin.requestExit
  split
  · exact staged_result ⟨rfl, .inl ⟨_, rfl⟩⟩
  · split
    · exact staged_result ⟨rfl, .inl ⟨_, rfl⟩⟩
    · exact staged_result ⟨rfl, .inr ⟨_, rfl⟩⟩
  · exact staged_result ⟨rfl, .inr ⟨_, rfl⟩⟩
  · exact staged_result ⟨rfl, .inr ⟨_, rfl⟩⟩

/-- What the journal says of an answer takes the stage to the one of the result. -/
theorem Answers.moves {name : String} {r : Except Error (Flow Value)} {s : Stage}
    (h : Answers r s) (heval : s = .idle ∨ m.get? name = some .eval) :
    Moves m s (.answered name r) (stageOf r) := by
  cases s with
  | asked => exact h.elim
  | idle =>
    rcases r with e | ⟨v⟩ | ⟨code⟩
    · exact .calm trivial
    · exact .calm trivial
    · exact absurd rfl (h code)
  | leaving code =>
    have hname : m.get? name = some .eval := heval.resolve_left (fun heq => by cases heq)
    rcases h with rfl | ⟨e, rfl⟩
    · exact .pass hname
    · exact .lose hname

theorem staged_answered {name : String} {r : Except Error (Flow Value)} {s : Stage}
    (h : Moves m s (.answered name r) (stageOf r)) :
    Staged m s (seq (noting (.answered name r)) (fun _ => result r))
      (fun r s => s = stageOf r) := by
  refine Staged.seq (staged_noting h) ?_
  rintro ⟨⟩ s rfl
  exact staged_result rfl

/-- A called command runs from the stage that its name leads to. -/
theorem tells_dispatch (files : Files.Tree) {reenter : Reentry Builtin}
    (hreenter : ∀ source, Staged m .idle (reenter source) Reported) (name : String)
    (values : List Value) (flags : List Flag) :
    Tells m ((Builtin.commandSet files).dispatch reenter name values flags) := by
  unfold Tells
  rw [CommandSet.dispatch_eq_seq]
  -- the commands stay as they are, so the name decides the way before anything is called
  cases hname : m.get? name with
  | none =>
    refine Staged.seq (staged_noting (.calm (by rw [Event.Calm, hname]; exact nofun))) ?_
    rintro ⟨⟩ s rfl
    refine staged_look (fun c hc => ?_)
    rw [hc, hname]
    exact staged_result rfl
  | some b =>
    by_cases hexit : b = .exit
    · subst hexit
      refine Staged.seq (staged_noting (.ask hname)) ?_
      rintro ⟨⟩ s rfl
      refine staged_look (fun c hc => ?_)
      rw [hc, hname]
      refine Staged.seq (staged_noting .invoke) ?_
      rintro ⟨⟩ s rfl
      refine Staged.seq (staged_requestExit values) ?_
      rintro r s ⟨rfl, ⟨code, rfl⟩ | ⟨e, rfl⟩⟩
      · exact staged_answered (.grant hname)
      · exact staged_answered (.deny hname)
    · have hcalm : (Event.called name values flags).Calm m := by
        rw [Event.Calm, hname]
        exact fun heq => hexit (Option.some.inj heq)
      refine Staged.seq (staged_noting (.calm hcalm)) ?_
      rintro ⟨⟩ s rfl
      refine staged_look (fun c hc => ?_)
      rw [hc, hname]
      refine Staged.seq (staged_noting (.calm trivial)) ?_
      rintro ⟨⟩ s rfl
      by_cases heval : b = .eval
      · subst heval
        refine Staged.seq (staged_evaluateText hreenter values) ?_
        intro r s hr
        exact staged_answered (hr.moves (.inr hname))
      · obtain ⟨x, hx, hinvoke⟩ := Builtin.closed_logs.invoke_plain heval hexit files
          Builtin.description reenter values flags
        refine Staged.seq (x := (Builtin.commandSet files).invoke reenter b values flags)
          (Q := fun r s => s = .idle ∧ Answers r s) ?_ ?_
        · show Staged m .idle (Builtin.invoke files Builtin.description reenter b values flags) _
          rw [hinvoke]
          exact staged_plain hx
        · rintro r s ⟨rfl, hr⟩
          exact staged_answered (hr.moves (.inl rfl))

end Commands

/-! ## Programs -/

section Programs

variable {m : NameMap Builtin} {evaluate : Node → Action Builtin (Flow Value)}

theorem isExit_snoc {os : List Outcome} {o : Outcome} (hos : ∀ o ∈ os, o.isExit = false)
    (ho : o.isExit = false) : ∀ d ∈ os ++ [o], d.isExit = false := by
  intro d hd
  rcases List.mem_append.mp hd with hd | hd
  · exact hos d hd
  · rw [List.mem_singleton.mp hd]
    exact ho

theorem staged_statementsStep (heval : ∀ n, Tells m (evaluate n)) (ns : List Node)
    {acc : List Outcome} (hacc : ∀ o ∈ acc, o.isExit = false) :
    Staged m .idle (statementsStep evaluate ns acc)
      (fun after s => Ends after.2 s ∧ (after.1 = false → s = .idle)) := by
  induction ns generalizing acc with
  | nil =>
    rw [statementsStep_nil]
    exact staged_result ⟨.idle hacc, fun _ => rfl⟩
  | cons n rest ih =>
    rw [statementsStep_cons]
    refine Staged.seq (heval n) ?_
    rintro r s rfl
    rcases r with e | ⟨v⟩ | ⟨code⟩
    · refine Staged.seq (staged_noting (.calm trivial)) ?_
      rintro ⟨⟩ s rfl
      exact ih (isExit_snoc hacc rfl)
    · exact ih (isExit_snoc hacc rfl)
    · exact staged_result ⟨.leaving hacc, fun heq => by cases heq⟩

theorem staged_linesStep (reader : Reader) (heval : ∀ n, Tells m (evaluate n))
    (lines : List String) {acc : List Outcome} (hacc : ∀ o ∈ acc, o.isExit = false) :
    Staged m .idle (linesStep reader evaluate lines acc) Ends := by
  induction lines generalizing acc with
  | nil =>
    rw [linesStep_nil]
    exact staged_result (.idle hacc)
  | cons line rest ih =>
    rw [linesStep_cons]
    refine Staged.seq (staged_noting (.calm trivial)) ?_
    rintro ⟨⟩ s rfl
    cases reader.program line with
    | error e => exact ih (isExit_snoc hacc rfl)
    | ok p =>
      refine Staged.seq (staged_statementsStep heval _ hacc) ?_
      rintro ⟨exits, outcomes⟩ s ⟨hends, hidle⟩
      cases exits with
      | true => exact staged_result hends
      | false =>
        -- without a request the next line starts from where this one did
        rw [hidle rfl] at hends ⊢
        cases hends with
        | idle hos => exact ih hos

theorem staged_textStep (reader : Reader) (heval : ∀ n, Tells m (evaluate n)) (source : String) :
    Staged m .idle (textStep reader evaluate source []) Ends := by
  have hnil : ∀ o ∈ ([] : List Outcome), o.isExit = false := fun o ho => (List.not_mem_nil ho).elim
  rw [textStep_eq]
  refine Staged.seq (staged_noting (.calm trivial)) ?_
  rintro ⟨⟩ s rfl
  cases reader.program source with
  | ok p =>
    refine Staged.seq (staged_statementsStep heval _ hnil) ?_
    rintro after s ⟨hends, -⟩
    exact staged_result hends
  | error e =>
    refine Staged.seq (staged_noting (.calm trivial)) ?_
    rintro ⟨⟩ s rfl
    split
    · exact staged_linesStep reader heval _ hnil
    · exact staged_result (.idle (isExit_snoc hnil rfl))

theorem staged_runOver (i : Interpreter) (heval : ∀ n, Tells m (evaluate n)) (source : String) :
    Staged m .idle (fun c => i.runOver evaluate collect source ([], c)) Ends := by
  intro c hc
  obtain ⟨es, s, hlog, hcommands, hes, hends⟩ :=
    staged_textStep i.reader heval source { c with interpreter := i } hc
  exact ⟨es, s, hlog, hcommands, hes, hends⟩

theorem Reported.moves_left {r : Except Error (List Outcome)} {s : Stage} (h : Reported r s)
    (depth : Nat) : Moves m s (.left depth) s := by
  cases r with
  | error e =>
    rw [show s = .idle from h]
    exact .calm trivial
  | ok outcomes =>
    cases h with
    | idle => exact .calm trivial
    | leaving => exact .leave

theorem staged_reenterWithin (files : Files.Tree) (levels : Nat) :
    ∀ source, Staged m .idle ((Builtin.commandSet files).reenterWithin levels source) Reported := by
  induction levels with
  | zero =>
    intro source c hc
    rw [CommandSet.reenterWithin]
    exact ⟨[.refused c.interpreter.maxDepth], .idle, List.reverse_cons, hc,
      .one (.calm trivial), rfl⟩
  | succ levels ih =>
    intro source
    rw [CommandSet.reenterWithin_succ]
    refine staged_nested ?_ (fun r s depth h => h.moves_left depth) (fun _ => rfl)
    refine Staged.seq (Q := Ends) ?_ (fun outcomes s hends => staged_result hends)
    have heval := closed_tells.evaluate (tells_dispatch files ih)
    exact staged_look (f := fun c d => c.interpreter.runOver _ collect source ([], d))
      (fun c _ => staged_runOver c.interpreter heval source)

/-- The stage that an evaluation ends at belongs to its outcomes. -/
theorem staged_evaluate (files : Files.Tree) (i : Interpreter) (source : String) :
    Staged m .idle (i.evaluate (Builtin.commandSet files) source) Ends := by
  have heval : ∀ c n, Tells m (i.evaluateNode (Builtin.commandSet files) c n) :=
    fun c => closed_tells.evaluate (tells_dispatch files (staged_reenterWithin files _))
  exact staged_look (f := fun c d => i.runOver (i.evaluateNode _ c) collect source ([], d))
    (fun c _ => staged_runOver i (heval c) source)

end Programs

/-! ## What becomes of a request -/

/-- Whether an event is the call of a command. -/
def Event.isCall : Event → Bool
  | .called _ _ _ => true
  | _ => false

/-- Whether an event is the failure of `eval`. -/
def Event.Loses (m : NameMap Builtin) : Event → Prop
  | .answered name (.error _) => m.get? name = some .eval
  | _ => False

section Requests

variable {m : NameMap Builtin} {s : Stage} {es : List Event} {code : Int32}

theorem Follows.leaving (h : Follows m (.leaving code) es s) (hes : ∀ e ∈ es, ¬ e.Loses m) :
    s = .leaving code ∧ ∀ e ∈ es, e.isCall = false := by
  induction es with
  | nil =>
    cases h
    exact ⟨rfl, fun e he => (List.not_mem_nil he).elim⟩
  | cons e es ih =>
    have hrest := fun d hd => hes d (List.mem_cons_of_mem e hd)
    cases h with
    | cons hmove h =>
      cases hmove with
      | lose hname => exact absurd hname (hes _ List.mem_cons_self)
      | leave =>
        obtain ⟨hs, hcalls⟩ := ih h hrest
        exact ⟨hs, List.forall_mem_cons.mpr ⟨rfl, hcalls⟩⟩
      | pass =>
        obtain ⟨hs, hcalls⟩ := ih h hrest
        exact ⟨hs, List.forall_mem_cons.mpr ⟨rfl, hcalls⟩⟩

theorem Follows.idle (h : Follows m .idle es s) (hes : ∀ e ∈ es, e.isCall = false) :
    s = .idle := by
  induction es with
  | nil =>
    cases h
    rfl
  | cons e es ih =>
    cases h with
    | cons hmove h =>
      cases hmove with
      | calm => exact ih h (fun d hd => hes d (List.mem_cons_of_mem e hd))
      | ask => cases hes _ List.mem_cons_self

/-- A lost request is not made again unless a command is called. -/
theorem Follows.lost {s' : Stage} (h : Follows m s' es s) {e : Event} (he : e ∈ es)
    (hloses : e.Loses m) (hes : ∀ e ∈ es, e.isCall = false) : s = .idle := by
  obtain ⟨before, after, rfl⟩ := List.append_of_mem he
  obtain ⟨mid, -, h⟩ := h.split
  have hafter : ∀ e ∈ after, e.isCall = false :=
    fun d hd => hes d (List.mem_append_right _ (List.mem_cons_of_mem _ hd))
  cases h with
  | cons hmove h =>
    cases hmove with
    | calm => exact h.idle hafter
    | deny hname =>
      -- one name is not both `exit` and `eval`
      rw [Event.Loses, hname] at hloses
      cases hloses
    | lose => exact h.idle hafter
    | _ => exact hloses.elim

theorem Ends.getLast?_eq_iff {os : List Outcome} (h : Ends os s) :
    os.getLast? = some (.exited code) ↔ s = .leaving code := by
  cases h with
  | idle hos =>
    constructor
    · intro hlast
      cases hos _ (List.mem_of_getLast? hlast)
    · intro heq
      cases heq
  | leaving hos =>
    rw [List.getLast?_append]
    simp

end Requests

namespace Interpreter

/-- When `exit` has granted a request to leave, no command is called any more and the evaluation
ends with the request, exactly when no `eval` fails after it; and an `eval` in whose text the
request was made fails exactly when a statement of the text has failed before. -/
theorem exit_kept_iff (files : Files.Tree) (i : Interpreter) (source : String)
    (c : Context Builtin) {name : String} {code : Int32} {before after : List Event}
    (hname : c.commands.get? name = some .exit)
    (hlog : (i.evaluate (Builtin.commandSet files) source c).2.log =
      c.log ++ (before ++ .answered name (.ok (.exit code)) :: after)) :
    (((∀ e ∈ after, e.isCall = false) ∧
        (i.evaluate (Builtin.commandSet files) source c).1.getLast? = some (.exited code)) ↔
      ∀ e ∈ after, ¬ e.Loses c.commands) ∧
    (∀ (reenter : Reentry Builtin) (values : List Value) (d next : Context Builtin)
        (os : List Outcome), reenter (Value.joined values) d = (.ok (os ++ [.exited code]), next) →
      (∀ o ∈ os, o.isExit = false) →
      ((Builtin.evaluateText reenter values d).1 = .ok (.exit code) ↔
        ∀ o ∈ os, ∀ e, o ≠ .failed e)) := by
  constructor
  · obtain ⟨es, s, hlog', -, hes, hends⟩ := staged_evaluate files i source c rfl
    rw [hlog'] at hlog
    rw [List.append_cancel_left hlog] at hes
    obtain ⟨mid, -, hes⟩ := hes.split
    rw [hends.getLast?_eq_iff]
    -- the answer of `exit` is a grant: it is not calm, and `eval` has another name
    cases hes with
    | cons hmove hafter =>
      cases hmove with
      | calm hcalm => exact hcalm.elim
      | pass heval =>
        rw [hname] at heval
        cases heval
      | grant =>
        constructor
        · rintro ⟨hcalls, rfl⟩ e he hloses
          cases hafter.lost he hloses hcalls
        · intro hkept
          obtain ⟨hs, hcalls⟩ := hafter.leaving hkept
          exact ⟨hcalls, hs⟩
  · intro reenter values d next os hreenter hos
    rw [Builtin.evaluateText, Action.bind_ok hreenter]
    rcases Builtin.gather_exited hos code with ⟨hnone, hgather⟩ | ⟨⟨e, he⟩, e', hgather⟩
    · rw [hgather]
      exact ⟨fun _ => hnone, fun _ => rfl⟩
    · rw [hgather]
      constructor
      · intro heq
        cases heq
      · intro hnone
        exact absurd rfl (hnone _ he e)

/-- A shell with the builtins under their own names. -/
def fresh : Context Builtin := (Context.new {} "/").withCommands Builtin.registry

/-- Whether an event grants a request to leave with the given code. -/
def grants (name : String) (code : Int32) : Event → Bool
  | .answered other (.ok (.exit given)) => other == name && given == code
  | _ => false

theorem exists_granted {es : List Event} {name : String} {code : Int32}
    (h : es.any (grants name code) = true) :
    ∃ before after, es = before ++ .answered name (.ok (.exit code)) :: after := by
  obtain ⟨e, he, hgrants⟩ := List.any_eq_true.mp h
  unfold grants at hgrants
  split at hgrants
  · rw [Bool.and_eq_true, beq_iff_eq, beq_iff_eq] at hgrants
    rw [hgrants.1, hgrants.2] at he
    exact List.append_of_mem he
  · cases hgrants

/-- The request that a text makes inside `eval` is kept. -/
theorem exit_kept_in_eval :
    ∃ before after,
      (evaluate {} (Builtin.commandSet .empty) "eval \"exit 3\"" fresh).2.log =
        fresh.log ++ (before ++ .answered "exit" (.ok (.exit 3)) :: after) ∧
      (((∀ e ∈ after, e.isCall = false) ∧
        (evaluate {} (Builtin.commandSet .empty) "eval \"exit 3\"" fresh).1.getLast? =
          some (.exited 3)) ↔ ∀ e ∈ after, ¬ e.Loses fresh.commands) := by
  have hgranted : (evaluate {} (Builtin.commandSet .empty) "eval \"exit 3\"" fresh).2.log.any
      (grants "exit" 3) = true := by decide +kernel
  obtain ⟨before, after, hlog⟩ := exists_granted hgranted
  have hname : fresh.commands.get? "exit" = some .exit := by decide +kernel
  exact ⟨before, after, hlog,
    (exit_kept_iff .empty {} "eval \"exit 3\"" fresh hname hlog).1⟩

/-- A request that comes after a failure is lost. -/
theorem exit_lost_in_eval :
    fresh.commands.get? "exit" = some .exit ∧ ∃ before after,
      (evaluate {} (Builtin.commandSet .empty) "eval \"nosuch; exit 3\"" fresh).2.log =
        fresh.log ++ (before ++ .answered "exit" (.ok (.exit 3)) :: after) ∧
      ¬ ((∀ e ∈ after, e.isCall = false) ∧
        (evaluate {} (Builtin.commandSet .empty) "eval \"nosuch; exit 3\"" fresh).1.getLast? =
          some (.exited 3)) := by
  have hgranted : (evaluate {} (Builtin.commandSet .empty)
      "eval \"nosuch; exit 3\"" fresh).2.log.any (grants "exit" 3) = true := by decide +kernel
  have hnone : (evaluate {} (Builtin.commandSet .empty) "eval \"nosuch; exit 3\"" fresh).1.any
      Outcome.isExit = false := by decide +kernel
  obtain ⟨before, after, hlog⟩ := exists_granted hgranted
  refine ⟨by decide +kernel, before, after, hlog, ?_⟩
  rintro ⟨-, hlast⟩
  have hexit := List.any_eq_false.mp hnone _ (List.mem_of_getLast? hlast)
  exact hexit rfl

end Interpreter

end CommandShell
