/-
# CommandShell.Proofs.Evaluation.Steps -- evaluation as one step after another

Everything that evaluation does, from a node up to a text inside a command, is put together from a
few steps: a result, a note in the journal, a look at the context, a report, one step after another,
and a level that is entered and left. Here evaluation is written in these terms, and a relation that
each of them keeps (`Congruent`) holds between two evaluations whose commands are related. For the
statements of a text, one after another, less is enough (`Sequential`). A property of single steps
is such a relation too, one that does not look at its second argument.
-/
import CommandShell.Proofs.Evaluation.Closure

namespace CommandShell

variable {κ σ τ υ α β : Type}

/-! ## Steps -/

/-- The context with another journal. -/
def Context.withJournal (c : Context κ) (j : List Event) : Context κ := { c with journal := j }

/-- The context with other records: another journal, and other errors left for report. -/
def Context.withRecords (c : Context κ) (j : List Event) (es : List Error) : Context κ :=
  { c with journal := j, diagnostics := es }

/-- Something that depends on a context and may change it. Actions are steps. -/
abbrev Step (κ τ : Type) : Type := Context κ → τ × Context κ

namespace Step

/-- A step that does nothing. -/
def result (t : τ) : Step κ τ := fun c => (t, c)

/-- One step, then another that may depend on the result of the first. -/
def seq (x : Step κ τ) (f : τ → Step κ υ) : Step κ υ := fun c => f (x c).1 (x c).2

/-- Adds to the journal. -/
def noting (e : Event) : Step κ Unit := fun c => ((), c.note e)

/-- A step that does the same behind a change of the context, and leaves the change as it is. -/
def Commutes (T : Context κ → Context κ) (x : Step κ τ) : Prop :=
  ∀ c, x (T c) = ((x c).1, T (x c).2)

/-- Puts the settings of the context back behind a step. -/
def restoring (x : Step κ τ) : Step κ τ := fun c =>
  ((x c).1, { (x c).2 with interpreter := c.interpreter })

end Step

open Step

/-! ## Actions and commands as steps -/

namespace Action

theorem bind_eq_seq (x : Action κ α) (f : α → Action κ β) :
    x >>= f = seq x (fun
      | .ok a => f a
      | .error e => result (.error e)) := by
  funext c
  show Action.bind x f c = _
  unfold Action.bind seq
  rcases x c with ⟨_ | a, next⟩ <;> rfl

theorem readVariable_eq_seq (name : String) :
    (readVariable name : Action κ (Flow Value)) = fun c =>
      (match c.valueOf? name with
      | some v => result (.ok (.value v))
      | none => seq (noting (.missed name)) (fun _ => result
          (if c.interpreter.lenient then .ok (.value (.string ""))
          else .error (.unsetVariable name))) : Step κ (Except Error (Flow Value))) c := by
  funext c
  unfold readVariable
  cases c.valueOf? name with
  | some v => rfl
  | none => cases c.interpreter.lenient <;> rfl

theorem contain_eq_seq (n : Node) (x : Action κ (Flow Value)) :
    contain n x = seq x (fun
      | .ok flow => result (.ok flow)
      | .error e => seq (noting (.contained n e))
          (fun _ c => (.ok (.value .unit), c.report e))) := by
  funext c
  unfold contain seq
  rcases x c with ⟨_ | flow, next⟩ <;> rfl

end Action

namespace CommandSet

theorem dispatch_eq_seq {set : CommandSet κ} (reenter : Reentry κ) (name : String)
    (values : List Value) (flags : List Flag) :
    set.dispatch reenter name values flags =
      seq (noting (.called name values flags)) (fun _ c =>
        (match c.commands.get? name with
        | none => result (.error (.unknownCommand name))
        | some code => seq (noting (.invoked name values flags)) (fun _ =>
            seq (set.invoke reenter code values flags) (fun answer =>
              seq (noting (.answered name answer)) (fun _ => result answer))) :
          Step κ (Except Error (Flow Value))) c) := by
  funext c
  show (match c.commands.get? name with | none => _ | some code => _ : Action κ _) _ = _
  unfold seq
  simp only [noting, Context.note]
  cases c.commands.get? name with
  | none => rfl
  | some code => rfl

/-- What a call comes to, given what its name stands for. -/
def calling (set : CommandSet κ) (reenter : Reentry κ) (name : String) (values : List Value)
    (flags : List Flag) : Option κ → Step κ (Except Error (Flow Value))
  | none => result (.error (.unknownCommand name))
  | some code => seq (noting (.invoked name values flags)) (fun _ =>
      seq (set.invoke reenter code values flags) (fun answer =>
        seq (noting (.answered name answer)) (fun _ => result answer)))

theorem dispatch_eq_calling {set : CommandSet κ} (reenter : Reentry κ) (name : String)
    (values : List Value) (flags : List Flag) :
    set.dispatch reenter name values flags =
      seq (noting (.called name values flags))
        (fun _ c => set.calling reenter name values flags (c.commands.get? name) c) := by
  rw [dispatch_eq_seq]
  refine congrArg (seq _) (funext fun _ => funext fun c => ?_)
  cases c.commands.get? name with
  | none => rfl
  | some code => rfl

end CommandSet

/-! ## Statements, lines and texts as steps -/

section Runs

variable {reader : Reader} {evaluate : Node → Action κ (Flow Value)}

/-- Running statements after some outcomes, as a step. -/
def statementsStep (evaluate : Node → Action κ (Flow Value)) (ns : List Node)
    (acc : List Outcome) : Step κ (Bool × List Outcome) := fun c =>
  let after := runStatements evaluate collect ns (acc, c)
  ((after.1, after.2.1), after.2.2)

theorem statementsStep_nil (acc : List Outcome) :
    statementsStep evaluate [] acc = result (false, acc) := by
  funext c
  unfold statementsStep
  rw [runStatements]
  rfl

theorem statementsStep_cons (n : Node) (rest : List Node) (acc : List Outcome) :
    statementsStep evaluate (n :: rest) acc = seq (evaluate n) (fun
      | .ok (.value v) => statementsStep evaluate rest (acc ++ [.value v])
      | .ok (.exit code) => result (true, acc ++ [.exited code])
      | .error e => seq (noting (.statementFailed e))
          (fun _ => statementsStep evaluate rest (acc ++ [.failed e]))) := by
  funext c
  unfold statementsStep seq
  rw [runStatements]
  rcases evaluate n c with ⟨_ | ⟨v⟩ | ⟨code⟩, next⟩ <;> rfl

/-- Running lines after some outcomes, as a step. -/
def linesStep (reader : Reader) (evaluate : Node → Action κ (Flow Value)) (lines : List String)
    (acc : List Outcome) : Step κ (List Outcome) := fun c =>
  runLines reader evaluate collect lines (acc, c)

theorem linesStep_nil (acc : List Outcome) : linesStep reader evaluate [] acc = result acc := by
  funext c
  unfold linesStep
  rw [runLines]
  rfl

theorem linesStep_cons (line : String) (rest : List String) (acc : List Outcome) :
    linesStep reader evaluate (line :: rest) acc =
      seq (noting (.reading reader line)) (fun _ =>
        match reader.program line with
        | .ok p => seq (statementsStep evaluate p.statements acc) (fun
            | (true, outcomes) => result outcomes
            | (false, outcomes) => linesStep reader evaluate rest outcomes)
        | .error e => linesStep reader evaluate rest (acc ++ [.failed (.unreadable e)])) := by
  funext c
  unfold linesStep seq
  rw [runLines]
  cases reader.program line with
  | error e => rfl
  | ok p =>
    simp only [statementsStep, noting]
    rcases runStatements evaluate collect p.statements (acc, c.note (.reading reader line)) with
      ⟨_ | _, after⟩ <;> rfl

/-- Running a text after some outcomes, as a step. -/
def textStep (reader : Reader) (evaluate : Node → Action κ (Flow Value)) (source : String)
    (acc : List Outcome) : Step κ (List Outcome) := fun c =>
  runText reader evaluate collect source (acc, c)

theorem textStep_eq (source : String) (acc : List Outcome) :
    textStep reader evaluate source acc =
      seq (noting (.reading reader source)) (fun _ =>
        match reader.program source with
        | .ok p => seq (statementsStep evaluate p.statements acc) (fun after => result after.2)
        | .error e => seq (noting (.unreadable e)) (fun _ =>
            if Text.breaksInside source.toList then
              linesStep reader evaluate (Text.lines source) acc
            else result (acc ++ [.failed (.unreadable e)]))) := by
  funext c
  unfold textStep runText seq
  cases reader.program source with
  | ok p => rfl
  | error e =>
    cases Text.breaksInside source.toList with
    | true => rfl
    | false => rfl

/-- A context that runs a text with its own settings runs it as a step and keeps the settings. -/
theorem runOver_own (evaluate : Node → Action κ (Flow Value)) (source : String) :
    (fun c : Context κ => c.interpreter.runOver evaluate collect source ([], c)) =
      restoring (fun c => textStep c.interpreter.reader evaluate source [] c) :=
  rfl

theorem CommandSet.reenterWithin_succ {set : CommandSet κ} (levels : Nat) (source : String) :
    set.reenterWithin (levels + 1) source =
      Action.nested (fun c => seq
        (fun c => c.interpreter.runOver (Node.evaluate (set.dispatch (set.reenterWithin levels)))
          collect source ([], c))
        (fun outcomes => result (.ok outcomes)) c) := by
  funext c
  rw [reenterWithin]
  rfl

end Runs

/-! ## Relations that the steps keep -/

/-- Whether an event is a mere note, that comes without a change of the depth and without a
report. -/
def Event.Mere : Event → Prop
  | .entered _ | .left _ | .contained _ _ => False
  | _ => True

/-- A relation between steps that is kept from one step to the next. -/
structure Sequential (R : {τ : Type} → Step κ τ → Step κ τ → Prop) : Prop where
  result {τ : Type} (t : τ) : R (result t) (result t)
  noting {e : Event} : e.Mere → R (noting e) (noting e)
  seq {τ υ : Type} {x y : Step κ τ} {f g : τ → Step κ υ} :
    R x y → (∀ t, R (f t) (g t)) → R (seq x f) (seq y g)

/-- A relation between steps that is kept wherever evaluation puts steps together. Each place where
evaluation looks at the context stands for itself: where a variable is read, a command is looked up,
and a text is read as the settings say. -/
structure Coherent (R : {τ : Type} → Step κ τ → Step κ τ → Prop) : Prop extends
    Sequential R where
  reporting {τ : Type} (t : τ) (n : Node) (e : Error) :
    R (fun c => (t, (c.note (.contained n e)).report e))
      (fun c => (t, (c.note (.contained n e)).report e))
  readVariable (name : String) :
    R (readVariable name : Action κ (Flow Value)) (readVariable name)
  lookup {x y : Option κ → Step κ (Except Error (Flow Value))} (name : String) :
    (∀ code?, R (x code?) (y code?)) →
      R (fun c => x (c.commands.get? name) c) (fun c => y (c.commands.get? name) c)
  running {x y : Reader → Step κ (List Outcome)} : (∀ reader, R (x reader) (y reader)) →
    R (restoring (fun c => x c.interpreter.reader c))
      (restoring (fun c => y c.interpreter.reader c))
  nested {α : Type} {x y : Action κ α} : R x y → R (Action.nested x) (Action.nested y)

/-- A relation between steps that is kept wherever evaluation puts steps together, whatever is
looked at. A look at the context does not see its records. -/
structure Congruent (R : {τ : Type} → Step κ τ → Step κ τ → Prop) : Prop extends
    Sequential R where
  reporting {τ : Type} (t : τ) (n : Node) (e : Error) :
    R (fun c => (t, (c.note (.contained n e)).report e))
      (fun c => (t, (c.note (.contained n e)).report e))
  look {τ : Type} {f g : Context κ → Step κ τ} :
    (∀ c, R (f c) (g c)) → (∀ c j es, f (c.withRecords j es) = f c) →
      (∀ c j es, g (c.withRecords j es) = g c) → R (fun c => f c c) (fun c => g c c)
  restoring {τ : Type} {x y : Step κ τ} : R x y → R (restoring x) (restoring y)
  nested {α : Type} {x y : Action κ α} : R x y → R (Action.nested x) (Action.nested y)
  refuse {α : Type} : R (Action.refuse : Action κ α) Action.refuse

namespace Sequential

variable {R : {τ : Type} → Step κ τ → Step κ τ → Prop} (hR : Sequential R)

include hR

theorem bind {x y : Action κ α} {f g : α → Action κ β} (h : R x y) (hf : ∀ a, R (f a) (g a)) :
    R (x >>= f : Action κ β) (y >>= g : Action κ β) := by
  rw [Action.bind_eq_seq, Action.bind_eq_seq]
  refine hR.seq h (fun r => ?_)
  cases r with
  | ok a => exact hf a
  | error e => exact hR.result _

section Runs

variable {evaluate other : Node → Action κ (Flow Value)}

/-- Runs of statements are related when the evaluations of these statements are. -/
theorem statementsStep_local (ns : List Node) (h : ∀ n ∈ ns, R (evaluate n) (other n))
    (acc : List Outcome) :
    R (CommandShell.statementsStep evaluate ns acc) (CommandShell.statementsStep other ns acc) := by
  induction ns generalizing acc with
  | nil =>
    rw [statementsStep_nil, statementsStep_nil]
    exact hR.result _
  | cons n rest ih =>
    have hrest := ih (fun m hm => h m (List.mem_cons_of_mem _ hm))
    rw [statementsStep_cons, statementsStep_cons]
    refine hR.seq (h n List.mem_cons_self) (fun r => ?_)
    rcases r with e | ⟨v⟩ | ⟨code⟩
    · exact hR.seq (hR.noting trivial) (fun _ => hrest _)
    · exact hrest _
    · exact hR.result _

theorem statementsStep (h : ∀ n, R (evaluate n) (other n)) (ns : List Node) (acc : List Outcome) :
    R (statementsStep evaluate ns acc) (statementsStep other ns acc) :=
  hR.statementsStep_local ns (fun n _ => h n) acc

theorem linesStep (reader : Reader) (h : ∀ n, R (evaluate n) (other n)) (lines : List String)
    (acc : List Outcome) :
    R (linesStep reader evaluate lines acc) (linesStep reader other lines acc) := by
  induction lines generalizing acc with
  | nil =>
    rw [linesStep_nil, linesStep_nil]
    exact hR.result _
  | cons line rest ih =>
    rw [linesStep_cons, linesStep_cons]
    refine hR.seq (hR.noting trivial) (fun _ => ?_)
    cases reader.program line with
    | error e => exact ih _
    | ok p =>
      refine hR.seq (hR.statementsStep h _ _) (fun after => ?_)
      rcases after with ⟨_ | _, outcomes⟩
      · exact ih _
      · exact hR.result _

theorem textStep (reader : Reader) (h : ∀ n, R (evaluate n) (other n)) (source : String)
    (acc : List Outcome) :
    R (textStep reader evaluate source acc) (textStep reader other source acc) := by
  rw [textStep_eq, textStep_eq]
  refine hR.seq (hR.noting trivial) (fun _ => ?_)
  cases reader.program source with
  | ok p => exact hR.seq (hR.statementsStep h _ _) (fun _ => hR.result _)
  | error e =>
    refine hR.seq (hR.noting trivial) (fun _ => ?_)
    split
    · exact hR.linesStep reader h _ _
    · exact hR.result _

end Runs

/-- What is kept by all steps is kept by the steps of a node. -/
theorem related
    (hreporting : ∀ {τ : Type} (t : τ) (n : Node) (e : Error),
      R (fun c => (t, (c.note (.contained n e)).report e))
        (fun c => (t, (c.note (.contained n e)).report e)))
    (hread : ∀ name, R (readVariable name : Action κ (Flow Value)) (readVariable name))
    (hnested : ∀ {α : Type} {x y : Action κ α}, R x y → R (Action.nested x) (Action.nested y)) :
    Related (fun x y => R x y) where
  value _ := hR.result _
  fail _ := hR.result _
  readVariable := hread
  andThen h hf := by
    refine hR.bind h (fun flow => ?_)
    cases flow with
    | value a => exact hf a
    | exit code => exact hR.result _
  contain n h := by
    rw [Action.contain_eq_seq, Action.contain_eq_seq]
    refine hR.seq h (fun r => ?_)
    cases r with
    | ok flow => exact hR.result _
    | error e => exact hreporting _ n e
  nested := hnested
  substituted n v := hR.seq (hR.noting (e := .substituted n v) trivial) (fun _ => hR.result _)

section Commands

variable {set : CommandSet κ} {f g : Reentry κ}

/-- Calls of a command are related when its runs are, if the relation is kept where the command is
looked up. -/
theorem dispatch
    (hlookup : ∀ {x y : Option κ → Step κ (Except Error (Flow Value))} (name : String),
      (∀ code?, R (x code?) (y code?)) →
        R (fun c => x (c.commands.get? name) c) (fun c => y (c.commands.get? name) c))
    (h : ∀ code values flags, R (set.invoke f code values flags) (set.invoke g code values flags))
    (name : String) (values : List Value) (flags : List Flag) :
    R (set.dispatch f name values flags) (set.dispatch g name values flags) := by
  rw [CommandSet.dispatch_eq_calling, CommandSet.dispatch_eq_calling]
  refine hR.seq (hR.noting (e := .called name values flags) trivial)
    (fun _ => hlookup name (fun code? => ?_))
  cases code? with
  | none => exact hR.result _
  | some code =>
    rw [CommandSet.calling, CommandSet.calling]
    refine hR.seq (hR.noting trivial) (fun _ => hR.seq (h code values flags) (fun answer => ?_))
    exact hR.seq (hR.noting trivial) (fun _ => hR.result answer)

end Commands

end Sequential

/-- A change that has nothing to do with mere notes goes through one step after another. -/
theorem sequential_commutes {T : Context κ → Context κ}
    (hT : ∀ (c : Context κ) {e : Event}, e.Mere → T (c.note e) = (T c).note e) :
    @Sequential κ (fun x _ => Commutes T x) where
  result _ := fun _ => rfl
  noting he := fun c => congrArg (Prod.mk ()) (hT c he).symm
  seq {_ _ x _ f _} hx hf := by
    intro c
    show f (x (T c)).1 (x (T c)).2 = _
    rw [hx c]
    exact hf _ _

/-- Commands that are related when the ways back to evaluation are. -/
def CommandSet.Keeps (set : CommandSet κ) (R : {τ : Type} → Step κ τ → Step κ τ → Prop) : Prop :=
  ∀ f g : Reentry κ, (∀ source, R (f source) (g source)) →
    ∀ code values flags, R (set.invoke f code values flags) (set.invoke g code values flags)

namespace Coherent

variable {R : {τ : Type} → Step κ τ → Step κ τ → Prop} (hR : Coherent R)

include hR

theorem related : Related (fun x y => R x y) :=
  hR.toSequential.related hR.reporting hR.readVariable hR.nested

/-- Evaluations of a node are related when their ways back to evaluation are. -/
theorem evaluate {set : CommandSet κ} {f g : Reentry κ} (hset : set.Keeps R)
    (h : ∀ source, R (f source) (g source)) (n : Node) :
    R (n.evaluate (set.dispatch f)) (n.evaluate (set.dispatch g)) :=
  hR.related.evaluate (hR.dispatch hR.lookup (hset f g h)) n

/-- Texts that are run inside a command are related when the evaluations of their nodes are. -/
theorem reentry {evaluate other : Node → Action κ (Flow Value)}
    (h : ∀ n, R (evaluate n) (other n)) (source : String) :
    R (Step.seq (fun c => c.interpreter.runOver evaluate collect source ([], c))
        (fun outcomes => Step.result (Except.ok outcomes : Except Error (List Outcome))))
      (Step.seq (fun c => c.interpreter.runOver other collect source ([], c))
        (fun outcomes => Step.result (.ok outcomes))) := by
  refine hR.seq ?_ (fun _ => hR.result _)
  rw [runOver_own, runOver_own]
  exact hR.running (x := fun reader => CommandShell.textStep reader evaluate source [])
    (y := fun reader => CommandShell.textStep reader other source [])
    (fun reader => hR.textStep reader h source [])

/-- Texts inside commands are related, the second with so many levels more than the first, when they
are where the first has none left: by induction on the levels of the first. -/
theorem reenterWithin {set : CommandSet κ} (hset : set.Keeps R) (more : Nat)
    (hnone : ∀ source, R (set.reenterWithin 0 source) (set.reenterWithin more source))
    (levels : Nat) (source : String) :
    R (set.reenterWithin levels source) (set.reenterWithin (levels + more) source) := by
  induction levels generalizing source with
  | zero =>
    rw [Nat.zero_add]
    exact hnone source
  | succ levels ih =>
    rw [Nat.succ_add, CommandSet.reenterWithin_succ, CommandSet.reenterWithin_succ]
    exact hR.nested (hR.reentry (hR.evaluate hset ih) source)

end Coherent

namespace Congruent

variable {R : {τ : Type} → Step κ τ → Step κ τ → Prop} (hR : Congruent R)

include hR

theorem coherent : Coherent R where
  toSequential := hR.toSequential
  reporting := hR.reporting
  readVariable name := by
    rw [Action.readVariable_eq_seq]
    refine hR.look (fun c => ?_) (fun _ _ _ => rfl) (fun _ _ _ => rfl)
    cases c.valueOf? name with
    | some v => exact hR.result _
    | none => exact hR.seq (hR.noting trivial) (fun _ => hR.result _)
  lookup {x y} name h :=
    hR.look (f := fun c => x (c.commands.get? name)) (g := fun c => y (c.commands.get? name))
      (fun _ => h _) (fun _ _ _ => rfl) (fun _ _ _ => rfl)
  running {x y} h := hR.restoring
    (hR.look (f := fun c => x c.interpreter.reader) (g := fun c => y c.interpreter.reader)
      (fun _ => h _) (fun _ _ _ => rfl) (fun _ _ _ => rfl))
  nested := hR.nested

/-- A text that is run inside a command is related to itself. -/
theorem reenterWithin {set : CommandSet κ} (hset : set.Keeps R) (levels : Nat) (source : String) :
    R (set.reenterWithin levels source) (set.reenterWithin levels source) :=
  hR.coherent.reenterWithin hset 0 (fun _ => hR.refuse) levels source

theorem evaluateNode {set : CommandSet κ} (hset : set.Keeps R) (i : Interpreter) (c : Context κ)
    (n : Node) : R (i.evaluateNode set c n) (i.evaluateNode set c n) :=
  hR.coherent.evaluate hset (hR.reenterWithin hset _) n

end Congruent

end CommandShell
