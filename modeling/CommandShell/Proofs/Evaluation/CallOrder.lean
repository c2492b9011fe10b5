/-
# CommandShell.Proofs.Evaluation.CallOrder -- which commands are called, and in which order

The commands of a node are called from the inside out and from left to right, each at most once.
As long as the registered commands do not go back to evaluation, the calls that evaluation makes are
those that the account of the node tells of, in its order.
-/
import CommandShell.Proofs.Evaluation.Accounts
import CommandShell.Proofs.Evaluation.Diagnostics

namespace CommandShell

open Step CommandShell.Action

variable {κ : Type}

/-! ## The calls of an evaluation -/

/-- The call that an event tells of. -/
def Event.call? : Event → Option Invocation
  | .called name values flags => some (name, values, flags)
  | _ => none

namespace Context

/-- The calls that the journal tells of, oldest first. -/
def calls (c : Context κ) : List Invocation := c.log.filterMap Event.call?

theorem calls_of_journal {c d : Context κ} {e : Event} (h : d.journal = e :: c.journal) :
    d.calls = c.calls ++ e.call?.toList := by
  rw [calls, calls, log, log, h, List.reverse_cons, List.filterMap_append]
  cases hcall : e.call? with
  | none => rw [List.filterMap_cons_none hcall]; rfl
  | some call => rw [List.filterMap_cons_some hcall]; rfl

end Context

/-- Commands of the given kind make no calls, whatever the texts that they could run would do, and
leave none of another kind registered. -/
def CommandSet.Direct (set : CommandSet κ) (direct : κ → Prop) : Prop :=
  ∀ (reenter : Reentry κ) (code : κ) (values : List Value) (flags : List Flag) (c : Context κ),
    direct code → c.Registers direct →
      (set.invoke reenter code values flags c).2.calls = c.calls ∧
      (set.invoke reenter code values flags c).2.Registers direct

/-- From one context to another these calls are made, and the registered commands stay of the given
kind. -/
structure Makes (direct : κ → Prop) (calls : List Invocation) (c d : Context κ) : Prop where
  calls : d.calls = c.calls ++ calls
  registers : c.Registers direct → d.Registers direct

namespace Makes

variable {direct : κ → Prop} {calls more : List Invocation} {b c d : Context κ}

theorem refl (c : Context κ) : Makes direct [] c c := ⟨(List.append_nil _).symm, id⟩

theorem trans (h : Makes direct calls b c) (h' : Makes direct more c d) :
    Makes direct (calls ++ more) b d :=
  ⟨by rw [h'.calls, h.calls, List.append_assoc], fun hb => h'.registers (h.registers hb)⟩

theorem silent_trans (h : Makes direct [] b c) (h' : Makes direct calls c d) :
    Makes direct calls b d :=
  h.trans h'

theorem trans_silent (h : Makes direct calls b c) (h' : Makes direct [] c d) :
    Makes direct calls b d := by
  simpa using h.trans h'

/-- An event is noted, and the commands are left alone. -/
theorem noted {e : Event} (he : e.call? = none) (hjournal : d.journal = e :: c.journal)
    (hcommands : d.commands = c.commands) : Makes direct [] c d := by
  refine ⟨?_, fun hc name code hcode => hc name code (hcommands ▸ hcode)⟩
  rw [Context.calls_of_journal hjournal, he]
  rfl

theorem leave (c : Context κ) : Makes direct [] c (leave c) := noted rfl rfl rfl

theorem deliver (n : Node) (v : Value) (pending : List Pending) (c : Context κ) :
    Makes direct [] c (Walk.deliver n v pending c).context := by
  cases pending with
  | nil => exact refl c
  | cons p around =>
    cases p with
    | string s => exact noted rfl rfl rfl
    | command values => exact refl c

theorem giveUp (e : Error) (pending : List Pending) (c : Context κ) :
    Makes direct [] c (Walk.giveUp e pending c).context := by
  induction pending with
  | nil => exact refl c
  | cons p around ih =>
    cases p with
    | string s => exact ih
    | command values => exact leave c

theorem failCommand (n : Node) (e : Error) (pending : List Pending) (c : Context κ) :
    Makes direct [] c (Walk.failCommand n e pending c).context := by
  cases pending with
  | nil => exact refl c
  | cons p around =>
    have hnoted : Makes direct [] c ((c.note (.contained n e)).report e) := noted rfl rfl rfl
    exact hnoted.silent_trans (deliver n .unit (p :: around) _)

theorem leaveAll (pending : List Pending) (c : Context κ) :
    Makes direct [] c (Walk.leaveAll pending c) := by
  induction pending generalizing c with
  | nil => exact refl c
  | cons p around ih =>
    cases p with
    | string s => exact ih c
    | command values => exact (leave c).silent_trans (ih _)

theorem land (n : Node) (result : Except Error (Flow Value)) (pending : List Pending)
    (c : Context κ) : Makes direct [] c (Walk.land n result pending c).context := by
  rcases result with e | ⟨v⟩ | ⟨code⟩
  · cases n with
    | command name arguments flags => exact failCommand _ e pending c
    | _ => exact giveUp e pending c
  · exact deliver n v pending c
  · exact leaveAll pending c

theorem readVariable (name : String) (c : Context κ) :
    Makes direct [] c (CommandShell.readVariable name c).2 := by
  unfold CommandShell.readVariable
  cases c.valueOf? name with
  | some v => exact refl c
  | none => cases c.interpreter.lenient <;> exact noted rfl rfl rfl

/-- A call is made, and what the command does by itself is none. -/
theorem dispatch {set : CommandSet κ} (hset : set.Direct direct) (reenter : Reentry κ)
    (name : String) (values : List Value) (flags : List Flag) {c : Context κ}
    (hc : c.Registers direct) :
    Makes direct [(name, values, flags)] c (set.dispatch reenter name values flags c).2 := by
  have hcalled : Makes direct [(name, values, flags)] c (c.note (.called name values flags)) :=
    ⟨Context.calls_of_journal (e := .called name values flags) rfl, id⟩
  rw [CommandSet.dispatch_eq_seq, seq_noting]
  refine hcalled.trans_silent ?_
  simp only [show (c.note (.called name values flags)).commands = c.commands from rfl]
  cases hcode : c.commands.get? name with
  | none => exact refl _
  | some code =>
    obtain ⟨hcalls, hregisters⟩ := hset reenter code values flags
      ((c.note (.called name values flags)).note (.invoked name values flags))
      (hc name code hcode) hc
    have hnoted : Makes direct [] (c.note (.called name values flags))
        ((c.note (.called name values flags)).note (.invoked name values flags)) :=
      noted rfl rfl rfl
    have hinvoked : Makes direct []
        ((c.note (.called name values flags)).note (.invoked name values flags))
        (set.invoke reenter code values flags
          ((c.note (.called name values flags)).note (.invoked name values flags))).2 :=
      ⟨hcalls.trans (List.append_nil _).symm, fun _ => hregisters⟩
    exact (hnoted.silent_trans hinvoked).silent_trans
      (noted (e := .answered name _) rfl rfl rfl)

end Makes

namespace Walk

variable {set : CommandSet κ} {direct : κ → Prop} (hset : set.Direct direct) (reenter : Reentry κ)

include hset

/-- Where a walk goes on, the command that is finished is called. -/
theorem makes_finish (n : Node) (pending : List Pending) {c : Context κ}
    (hc : c.Registers direct) :
    Makes direct (((⟨c, pending, .walking⟩ : Walk κ).account? (set.dispatch reenter)
      (.finish n)).bind Account.call?).toList c
      (finish (set.dispatch reenter) n pending c).context := by
  cases n with
  | literal l => exact .land _ _ pending c
  | flag f => exact .land _ _ pending c
  | «variable» name => exact (Makes.readVariable name c).silent_trans (.land _ _ pending _)
  | interpolated parts =>
    rcases pending with _ | ⟨s | values, around⟩
    · exact .refl c
    · exact .land _ _ around c
    · exact .refl c
  | command name arguments flags =>
    rcases pending with _ | ⟨s | values, around⟩
    · exact .refl c
    · exact .refl c
    · have hcall := Makes.dispatch hset reenter name values flags hc
      exact hcall.trans_silent ((Makes.leave _).silent_trans (.land _ _ around _))

/-- One move of a walk makes the call of the command that it finishes, if that is called. -/
theorem makes_step (w : Walk κ) (hw : w.context.Registers direct) (m : Move) :
    Makes direct ((w.account? (set.dispatch reenter) m).bind Account.call?).toList w.context
      (w.step (set.dispatch reenter) m).context := by
  obtain ⟨c, pending, mode⟩ := w
  cases mode with
  | ended result =>
    cases m with
    | finish n => cases n <;> exact .refl c
    | _ => exact .refl c
  | passing e inner =>
    cases m with
    | text s => exact .refl c
    | enter n => cases n <;> exact .refl c
    | finish n =>
      cases n with
      | command name arguments flags =>
        cases inner with
        | zero => exact .failCommand _ e pending c
        | succ inner => exact .refl c
      | _ => exact .refl c
  | walking =>
    cases m with
    | finish n => exact makes_finish hset reenter n pending hw
    | text s => rcases pending with _ | ⟨_ | _, _⟩ <;> exact .refl c
    | enter n =>
      cases n with
      | command name arguments flags =>
        by_cases hdepth : c.depth < c.interpreter.maxDepth
        · rw [step_enter_of_lt _ _ _ _ _ hdepth]
          exact .noted rfl rfl rfl
        · rw [step_enter_of_not_lt _ _ _ _ _ hdepth]
          exact .noted rfl rfl rfl
      | _ => exact .refl c

/-- The calls of a walk are those of the commands that it accounts for as called, in order. -/
theorem makes_run (moves : List Move) (w : Walk κ) (hw : w.context.Registers direct) :
    Makes direct ((accounts (set.dispatch reenter) moves w).filterMap Account.call?) w.context
      (run (set.dispatch reenter) moves w).context := by
  induction moves generalizing w with
  | nil => exact .refl _
  | cons m rest ih =>
    have hstep := makes_step hset reenter w hw m
    have hrest := ih (w.step (set.dispatch reenter) m) (hstep.registers hw)
    rw [accounts, List.filterMap_append, run_cons]
    have hfirst : (w.account? (set.dispatch reenter) m).toList.filterMap Account.call? =
        ((w.account? (set.dispatch reenter) m).bind Account.call?).toList := by
      cases w.account? (set.dispatch reenter) m with
      | none => rfl
      | some x => cases hcall : x.call? <;> simp [hcall]
    rw [hfirst]
    exact hstep.trans hrest

end Walk

/-! ## The order of the calls -/

/-- The commands of a node, in the order in which they are finished, with what becomes of each of
them when the node is evaluated. -/
def Node.accounts (dispatch : Dispatch κ) (n : Node) (c : Context κ) : List Account :=
  Walk.accounts dispatch n.tour (Walk.start c)

/-- The commands of a node run once at most, from the inside out and from left to right, if the
registered commands do not go back to evaluation.

* The account has all commands of the node in this order, and the calls that evaluation makes are
  those that it tells of: with the name, the evaluated arguments and the flags of each.
* The walk that it is taken from ends with the result and the context of the evaluation. On it a
  command is called in the context that everything before it has left.
* Behind a command that asks to leave all others are skipped, and the node ends with that request.
* A command is given up for a variable that is not set, a stray flag or the limit of the depth.
* A command is skipped only behind a request to leave, inside a command that is given up, or where
  the node fails without a command around the failure. -/
theorem Node.calls_in_order {set : CommandSet κ} {direct : κ → Prop} (hset : set.Direct direct)
    (reenter : Reentry κ) (n : Node) (c : Context κ) (hc : c.Registers direct) :
    (n.accounts (set.dispatch reenter) c).map Account.node = n.postorder ∧
    (n.evaluate (set.dispatch reenter) c).2.calls =
      c.calls ++ (n.accounts (set.dispatch reenter) c).filterMap Account.call? ∧
    Walk.run (set.dispatch reenter) n.tour (Walk.start c) =
      ⟨(n.evaluate (set.dispatch reenter) c).2, [],
        .ended (n.evaluate (set.dispatch reenter) c).1⟩ ∧
    (∀ before x after values code, n.accounts (set.dispatch reenter) c = before ++ x :: after →
      x.fate = .called values (.ok (.exit code)) →
        (n.evaluate (set.dispatch reenter) c).1 = .ok (.exit code) ∧
        ∀ y ∈ after, y.fate = .skipped) ∧
    (∀ x ∈ n.accounts (set.dispatch reenter) c, ∀ e, x.fate = .givenUp e → e.GivesUp) ∧
    ∀ before x after, n.accounts (set.dispatch reenter) c = before ++ x :: after →
      x.fate = .skipped → Account.Excused before x after ∨
        n.isCommand = false ∧ ∃ e, (n.evaluate (set.dispatch reenter) c).1 = .error e := by
  have hrun := Walk.run_tour_start (set.dispatch reenter) n c
  refine ⟨?_, ?_, hrun, ?_, ?_, ?_⟩
  · exact (Walk.accounts_nodes _ _ _).trans n.commands_tour
  · have hmakes := Walk.makes_run hset reenter n.tour (Walk.start c) hc
    rw [hrun] at hmakes
    exact hmakes.calls
  · intro before x after values code hsplit hfate
    obtain ⟨hended, hskipped⟩ := Walk.accounts_of_exit _ hsplit hfate
    rw [hrun] at hended
    exact ⟨Mode.ended.inj hended, hskipped⟩
  · intro x hx e hfate
    exact Walk.givesUp_of_accounts _ (Walk.warranted_of_mode (fun _ _ h => by cases h)) hx hfate
  · intro before x after hsplit hskipped
    have hexplains := Walk.explains_tour (set.dispatch reenter) n [] c
    rcases hexplains.excused with hexcused | ⟨e, herror⟩
    · exact .inl (hexcused before x after hsplit hskipped)
    · obtain ⟨hcommand, hfailed⟩ := embedded_error_iff.mp herror
      exact .inr ⟨hcommand, e, hfailed⟩

/-- What writes nothing but minor events to the journal makes no calls. -/
theorem Step.Logs.calls {τ : Type} {x : Step κ τ} (hx : Logs Event.Minor x) (c : Context κ) :
    (x c).2.calls = c.calls := by
  obtain ⟨es, hes, hjournal⟩ := hx.journal c
  have hnone : es.reverse.filterMap Event.call? = [] := by
    refine List.filterMap_eq_nil_iff.mpr (fun e he => ?_)
    have hminor := hes e (List.mem_reverse.mp he)
    cases e with
    | called name values flags => exact hminor.elim
    | _ => rfl
  rw [Context.calls, Context.log, hjournal, List.reverse_append, List.filterMap_append, hnone,
    List.append_nil]
  rfl

/-- Every builtin but `eval` makes no calls. -/
theorem Builtin.direct_commandSet (files : Files.Tree) : (commandSet files).Direct (· ≠ .eval) := by
  intro reenter b values flags c heval hc
  have hlogs : Logs Event.Minor (invoke files description reenter b values flags) :=
    closed_logs.invoke heval files description reenter values flags
  refine ⟨hlogs.calls c, ?_⟩
  exact (quiet_commandSet files reenter b values flags c heval hc).2

/-- A node in which a command is given up for a variable, one is not known, and one asks to leave
before the last is reached. -/
def Node.interrupted : Node :=
  .command "echo"
    [.command "echo" [.variable "nowhere", .command "pwd" [] []] [],
      .interpolated [.text "a", .node (.command "nosuch" [] [])],
      .command "exit" [.literal (.integer 3)] [],
      .command "pwd" [] []] []

theorem Node.calls_in_order_interrupted :
    ((Builtin.commandSet .empty).Direct (· ≠ .eval) ∧
      Builtin.shellWithoutEval.Registers (· ≠ .eval)) ∧
    (Node.interrupted.evaluate
      ((Builtin.commandSet .empty).dispatch ((Builtin.commandSet .empty).reenterWithin 0))
      Builtin.shellWithoutEval).2.calls =
      [("nosuch", [], []), ("exit", [.integer 3], [])] := by
  have hset := Builtin.direct_commandSet .empty
  have hc := Builtin.registers_shellWithoutEval
  refine ⟨⟨hset, hc⟩, ?_⟩
  rw [(Node.calls_in_order hset ((Builtin.commandSet .empty).reenterWithin 0) Node.interrupted
    Builtin.shellWithoutEval hc).2.1]
  rfl

end CommandShell
