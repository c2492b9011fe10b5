/-
# CommandShell.Proofs.Evaluation.BuiltinSteps -- properties of the builtins from their steps

A builtin that is not `eval` is put together from a few steps: a value, a complaint, one step after
another, a look at the context, and the changes of variables, options and the working directory.
The way from these steps to the builtins is gone here once; a property of the builtins is then a
list of small facts, one for each step.
-/
import CommandShell.Builtin
import CommandShell.Proofs.Evaluation.Steps

namespace CommandShell

/-- Whether an error is none about a flag that stands outside of a command. -/
def Error.Proper (e : Error) : Prop := ∀ f, e ≠ .strayFlag f

/-- The context with other settings and other errors left for report. -/
def Context.mapUnseen {κ : Type} (g : Interpreter → Interpreter) (h : List Error → List Error)
    (c : Context κ) : Context κ :=
  { c with interpreter := g c.interpreter, diagnostics := h c.diagnostics }

namespace Builtin

open Step CommandShell.Action

variable {κ : Type}

/-- A property of actions that the steps of the builtins keep. They do not complain about stray
flags, and a look at the context sees neither its records, nor the settings of evaluation, nor how
deep it is. -/
structure Closed (P : {α : Type} → Action κ α → Prop) : Prop where
  pure {α : Type} (a : α) : P (pure a : Action κ α)
  fail {α : Type} {e : Error} : e.Proper → P (Action.fail e : Action κ α)
  bind {α β : Type} {x : Action κ α} {f : α → Action κ β} :
    P x → (∀ a, P (f a)) → P (x >>= f)
  look {α : Type} {f : Context κ → Action κ α} :
    (∀ c, P (f c)) →
      (∀ c j es i d, f { c.withRecords j es with interpreter := i, depth := d } = f c) →
      P (Action.context >>= f)
  moved (path : RawText) : P (Action.note (.moved path))
  moveTo (files : Files.Tree) (path : RawText) : P (tryUpdate (·.moveTo files path))
  setVariable (name : String) (value : Value) (exported : Bool) :
    P (update (·.setVariable name value exported))
  unsetVariable (name : String) : P (update (·.unsetVariable name))
  exportVariable (name : String) : P (tryUpdate (fun c =>
    match c.exportVariable? name with
    | some next => .ok next
    | none => .error (.unsetVariable name)))
  pushOption (name : String) (value : Value) : P (tryUpdate (·.pushOption name value))
  popOption (name : String) : P (fun c =>
    match c.popOption name with
    | .ok (value, next) => (.ok value, next)
    | .error e => (.error e, c))

namespace Closed

variable {P : {α : Type} → Action κ α → Prop} (hP : Closed P)

include hP

/-! ## Arguments -/

theorem complain {α : Type} (b : Builtin) (complaint : Complaint) :
    P (b.complain complaint : Action κ α) :=
  hP.fail (by rintro f ⟨⟩)

theorem string (b : Builtin) (role : Role) (v : Value) : P (b.string role v) := by
  cases v with
  | string s => exact hP.pure s
  | _ => exact hP.complain _ _

theorem onPath {α : Type} (path : RawText) (r : Except Files.Failure α) :
    P (Builtin.onPath path r : Action κ α) := by
  cases r with
  | ok a => exact hP.pure a
  | error failure => exact hP.fail (by rintro f ⟨⟩)

/-! ## File system -/

theorem changeDirectory (files : Files.Tree) (values : List Value) :
    P (Builtin.changeDirectory files values) := by
  match values with
  | [] => exact hP.look (fun _ => hP.pure _) (fun _ _ _ _ _ => rfl)
  | [target] =>
    refine hP.bind (hP.string _ _ _) (fun path => ?_)
    refine hP.bind (hP.moveTo files path) (fun _ => ?_)
    refine hP.look (fun c => ?_) (fun _ _ _ _ _ => rfl)
    exact hP.bind (hP.moved c.workingDirectory) (fun _ => hP.pure _)
  | _ :: _ :: _ => exact hP.complain _ _

theorem listDirectory (files : Files.Tree) (values : List Value) :
    P (Builtin.listDirectory files values) := by
  have hlist : ∀ path, P (listDirectory.listAt files path) :=
    fun path => hP.bind (hP.onPath _ _) (fun _ => hP.pure _)
  match values with
  | [] => exact hP.look (fun _ => hlist _) (fun _ _ _ _ _ => rfl)
  | [directory] =>
    refine hP.bind (hP.string _ _ _) (fun path => ?_)
    exact hP.look (fun _ => hlist _) (fun _ _ _ _ _ => rfl)
  | _ :: _ :: _ => exact hP.complain _ _

theorem workingDirectory (values : List Value) : P (Builtin.workingDirectory values) := by
  match values with
  | [] => exact hP.look (fun _ => hP.pure _) (fun _ _ _ _ _ => rfl)
  | _ :: _ => exact hP.complain _ _

theorem fileStatus (files : Files.Tree) (values : List Value) :
    P (Builtin.fileStatus files values) := by
  match values with
  | [target] =>
    refine hP.bind (hP.string _ _ _) (fun path => ?_)
    refine hP.look (fun _ => ?_) (fun _ _ _ _ _ => rfl)
    exact hP.bind (hP.onPath _ _) (fun _ => hP.pure _)
  | [] => exact hP.complain _ _
  | _ :: _ :: _ => exact hP.complain _ _

/-! ## Variables -/

theorem showVariables : P (Builtin.showVariables : Action κ Value) :=
  hP.look (fun _ => hP.pure _) (fun _ _ _ _ _ => rfl)

theorem setVariables (flags : List Flag) (values : List Value) :
    P (Builtin.setVariable flags values) := by
  match values with
  | [target, value] =>
    refine hP.bind (hP.string _ _ _) (fun name => ?_)
    exact hP.bind (hP.setVariable name value _) (fun _ => hP.pure _)
  | [] => exact hP.complain _ _
  | [_] => exact hP.complain _ _
  | _ :: _ :: _ :: _ => exact hP.complain _ _

theorem exportVariables (values : List Value) : P (Builtin.exportVariable values) := by
  match values with
  | [target] =>
    refine hP.bind (hP.string _ _ _) (fun name => ?_)
    exact hP.bind (hP.exportVariable name) (fun _ => hP.pure _)
  | [target, value] =>
    refine hP.bind (hP.string _ _ _) (fun name => ?_)
    exact hP.bind (hP.setVariable name value true) (fun _ => hP.pure _)
  | [] => exact hP.complain _ _
  | _ :: _ :: _ :: _ => exact hP.complain _ _

theorem unsetVariables (values : List Value) : P (Builtin.unsetVariables values) := by
  induction values with
  | nil => exact hP.pure _
  | cons target rest ih =>
    refine hP.bind (hP.string _ _ _) (fun name => ?_)
    exact hP.bind (hP.unsetVariable name) (fun _ => ih)

/-! ## Options -/

theorem pushValue (values : List Value) : P (Builtin.pushValue values) := by
  match values with
  | [target, value] =>
    refine hP.bind (hP.string _ _ _) (fun name => ?_)
    exact hP.bind (hP.pushOption name value) (fun _ => hP.pure _)
  | [] => exact hP.complain _ _
  | [_] => exact hP.complain _ _
  | _ :: _ :: _ :: _ => exact hP.complain _ _

theorem peekValue (values : List Value) : P (Builtin.peekValue values) := by
  match values with
  | [target] =>
    refine hP.bind (hP.string _ _ _) (fun name => ?_)
    refine hP.look (fun c => ?_) (fun _ _ _ _ _ => rfl)
    unfold OptionTable.peek
    split
    · exact hP.pure _
    · exact hP.fail (by rintro f ⟨⟩)
  | [] => exact hP.complain _ _
  | _ :: _ :: _ => exact hP.complain _ _

theorem popValue (values : List Value) : P (Builtin.popValue values) := by
  match values with
  | [target] => exact hP.bind (hP.string _ _ _) (fun name => hP.popOption name)
  | [] => exact hP.complain _ _
  | _ :: _ :: _ => exact hP.complain _ _

/-! ## The shell itself -/

theorem clearScreen (values : List Value) : P (Builtin.clearScreen values) := by
  cases values with
  | nil => exact hP.pure _
  | cons _ _ => exact hP.complain _ _

theorem showCommands (describe : κ → String) : P (Builtin.showCommands describe) :=
  hP.look (fun _ => hP.pure _) (fun _ _ _ _ _ => rfl)

theorem requestExit (values : List Value) : P (Builtin.requestExit values) := by
  unfold Builtin.requestExit
  split
  · exact hP.pure _
  · split
    · exact hP.pure _
    · exact hP.complain _ _
  · exact hP.complain _ _
  · exact hP.complain _ _

/-! ## All together -/

/-- A builtin that is neither `eval` nor `exit` ends with a value or fails, and has the property. -/
theorem invoke_plain {b : Builtin} (heval : b ≠ .eval) (hexit : b ≠ .exit) (files : Files.Tree)
    (describe : κ → String) (reenter : Reentry κ) (values : List Value) (flags : List Flag) :
    ∃ x : Action κ Value, P x ∧
      invoke files describe reenter b values flags = Flow.value <$> x := by
  cases b with
  | eval => exact absurd rfl heval
  | exit => exact absurd rfl hexit
  | cd => exact ⟨_, hP.changeDirectory files values, rfl⟩
  | clear => exact ⟨_, hP.clearScreen values, rfl⟩
  | echo => exact ⟨_, hP.pure (.string (Value.joined values)), rfl⟩
  | env => exact ⟨_, hP.showVariables, rfl⟩
  | «export» => exact ⟨_, hP.exportVariables values, rfl⟩
  | help => exact ⟨_, hP.showCommands describe, rfl⟩
  | ls => exact ⟨_, hP.listDirectory files values, rfl⟩
  | peekOption => exact ⟨_, hP.peekValue values, rfl⟩
  | popOption => exact ⟨_, hP.popValue values, rfl⟩
  | pushOption => exact ⟨_, hP.pushValue values, rfl⟩
  | pwd => exact ⟨_, hP.workingDirectory values, rfl⟩
  | set => exact ⟨_, hP.setVariables flags values, rfl⟩
  | stat => exact ⟨_, hP.fileStatus files values, rfl⟩
  | unset => exact ⟨_, hP.unsetVariables values, rfl⟩

/-- A builtin other than `eval` has the property. -/
theorem invoke {b : Builtin} (heval : b ≠ .eval) (files : Files.Tree) (describe : κ → String)
    (reenter : Reentry κ) (values : List Value) (flags : List Flag) :
    P (Builtin.invoke files describe reenter b values flags) := by
  by_cases hexit : b = .exit
  · rw [hexit]
    exact hP.requestExit values
  · obtain ⟨x, hx, hinvoke⟩ := hP.invoke_plain heval hexit files describe reenter values flags
    rw [hinvoke]
    exact hP.bind hx (fun v => hP.pure (Flow.value v))

end Closed

/-! ## What builtins do not see -/

section Unseen

/-- A change of a context behind what the builtins see: it leaves variables, commands, options and
the working directory alone, and has nothing to do with changes of these, nor with mere notes. -/
structure Unseen (T : Context κ → Context κ) : Prop where
  behind (c : Context κ) : ∃ j es i d,
    T c = { c.withRecords j es with interpreter := i, depth := d }
  note (c : Context κ) {e : Event} : e.Mere → T (c.note e) = (T c).note e
  bindings (c : Context κ) (b : NameMap Variable) :
    T { c with bindings := b } = { T c with bindings := b }
  options (c : Context κ) (o : OptionTable) : T { c with options := o } = { T c with options := o }
  workingDirectory (c : Context κ) (path : RawText) :
    T { c with workingDirectory := path } = { T c with workingDirectory := path }

variable {T : Context κ → Context κ}

namespace Unseen

variable (hT : Unseen T)

include hT

theorem get (c : Context κ) : (T c).bindings = c.bindings ∧ (T c).options = c.options ∧
    (T c).workingDirectory = c.workingDirectory := by
  obtain ⟨_, _, _, _, h⟩ := hT.behind c
  rw [h]
  exact ⟨rfl, rfl, rfl⟩

end Unseen

theorem unseen_mapUnseen (g : Interpreter → Interpreter) (h : List Error → List Error) :
    Unseen (Context.mapUnseen (κ := κ) g h) where
  behind c := ⟨c.journal, h c.diagnostics, g c.interpreter, c.depth, rfl⟩
  note _ _ _ := rfl
  bindings _ _ := rfl
  options _ _ := rfl
  workingDirectory _ _ := rfl

theorem commutes_update {f : Context κ → Context κ} (hf : ∀ c, f (T c) = T (f c)) :
    Commutes T (update f : Action κ Unit) :=
  fun c => congrArg (Prod.mk (Except.ok ())) (hf c)

theorem commutes_tryUpdate {f : Context κ → Except Error (Context κ)}
    (hf : ∀ c, f (T c) = (f c).map T) : Commutes T (tryUpdate f : Action κ Unit) := by
  intro c
  simp only [tryUpdate, hf c]
  cases f c with
  | ok next => rfl
  | error e => rfl

/-- The steps of the builtins do not see what stands behind, such as the settings of evaluation and
the errors left for report, and leave it alone. -/
theorem closed_commutes (hT : Unseen T) : @Closed κ (fun x => Commutes T x) where
  pure _ := fun _ => rfl
  fail _ := fun _ => rfl
  bind {_ _ x f} hx hf := (sequential_commutes hT.note).bind (y := x) (g := f) hx hf
  look {_ f} hf hlook := by
    intro c
    have hsame : f (T c) = f c := by
      obtain ⟨j, es, i, d, hbehind⟩ := hT.behind c
      rw [hbehind]
      exact hlook c j es i d
    show f (T c) (T c) = _
    rw [hsame]
    exact hf c c
  moved _ := commutes_update (fun c => (hT.note c (e := .moved _) trivial).symm)
  moveTo files path := by
    apply commutes_tryUpdate
    intro c
    have hpath : (T c).absolutePath path = c.absolutePath path := by
      rw [Context.absolutePath, (hT.get c).2.2]
      rfl
    simp only [Context.moveTo, hpath]
    cases files.enter (c.absolutePath path) with
    | ok directory => exact congrArg Except.ok (hT.workingDirectory c directory).symm
    | error failure => rfl
  setVariable name value exported := by
    apply commutes_update
    intro c
    rw [Context.setVariable, (hT.get c).1]
    exact (hT.bindings c _).symm
  unsetVariable name := by
    apply commutes_update
    intro c
    rw [Context.unsetVariable, (hT.get c).1]
    exact (hT.bindings c _).symm
  exportVariable name := by
    apply commutes_tryUpdate
    intro c
    simp only [Context.exportVariable?, Context.setVariable, (hT.get c).1]
    cases c.bindings.get? name with
    | some v => exact congrArg Except.ok (hT.bindings c _).symm
    | none => rfl
  pushOption name value := by
    apply commutes_tryUpdate
    intro c
    simp only [Context.pushOption, (hT.get c).2.1]
    cases c.options.push name value with
    | ok options =>
      have hpushed : T ({ c with options := options }.note (.pushed name value)) =
          { T c with options := options }.note (.pushed name value) := by
        rw [hT.note _ (e := .pushed name value) trivial, hT.options]
      exact congrArg Except.ok hpushed.symm
    | error e => rfl
  popOption name := by
    intro c
    simp only [Context.popOption, (hT.get c).2.1]
    cases c.options.pop name with
    | ok popped =>
      have hpopped : T ({ c with options := popped.2 }.note (.popped name popped.1)) =
          { T c with options := popped.2 }.note (.popped name popped.1) := by
        rw [hT.note _ (e := .popped name popped.1) trivial, hT.options]
      exact congrArg (Prod.mk (Except.ok popped.1)) hpopped.symm
    | error e => rfl

end Unseen

/-- Only `eval` goes back to evaluation. -/
theorem invoke_reenter {b : Builtin} (heval : b ≠ .eval) (files : Files.Tree)
    (describe : κ → String) (f g : Reentry κ) (values : List Value) (flags : List Flag) :
    invoke files describe f b values flags = invoke files describe g b values flags := by
  cases b with
  | eval => exact absurd rfl heval
  | _ => rfl

/-- What evaluation keeps, the builtins keep, if those do that do not go back to it: `eval` is put
together from the text it runs and its outcomes. -/
theorem keeps_of_plain {R : {τ : Type} → Step Builtin τ → Step Builtin τ → Prop}
    (hR : Sequential R) (files : Files.Tree)
    (hplain : ∀ b ≠ Builtin.eval, ∀ reenter values flags,
      R (invoke files description reenter b values flags)
        (invoke files description reenter b values flags)) : (commandSet files).Keeps R := by
  intro f g hfg b values flags
  show R (invoke files description f b values flags) (invoke files description g b values flags)
  by_cases heval : b = .eval
  · rw [heval]
    refine hR.bind (hfg _) (fun outcomes => hR.bind ?_ (fun flow => ?_))
    · cases gather outcomes with
      | ok flow => exact hR.result _
      | error e => exact hR.result _
    · cases flow with
      | value vs => exact hR.result _
      | exit code => exact hR.result _
  · rw [← invoke_reenter heval files description f g values flags]
    exact hplain b heval f values flags

end Builtin

end CommandShell
