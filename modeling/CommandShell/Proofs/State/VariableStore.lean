/-
# CommandShell.Proofs.State.VariableStore -- variables are a map, and `env` lists it

The commands `set`, `export` and `unset` are compared with a reference: a store says of each name
what its variable is, if it has one, and each call changes the store at the names that it is about.
A call that succeeds changes the variables as it changes the store, and nothing else
(`Setter.Call.call_ok`), so calls one after another do what the fold of the reference does.

`env` shows a line for each variable, in the order of the bytes of the names. As a map has one
representation only, the lines depend on the store alone, and not on how it came about.
-/
import CommandShell.Proofs.Evaluation.FailedBuiltins
import CommandShell.Proofs.Evaluation.NestedProgram
import CommandShell.Proofs.Text.ByteOrder
import Mathlib.Logic.Function.Basic

namespace CommandShell

open CommandSet CommandShell.Action

variable {κ : Type}

/-! ## The reference -/

/-- What each name stands for, if it is set. -/
abbrev Store : Type := String → Option Variable

/-- The commands that change variables. -/
inductive Setter where
  /-- Sets a variable to a value. -/
  | assign
  /-- Exports a variable. -/
  | mark
  /-- Removes variables. -/
  | remove
  deriving DecidableEq, Repr

/-- The builtin that is such a command. -/
def Setter.builtin : Setter → Builtin
  | .assign => .set
  | .mark => .export
  | .remove => .unset

/-- A call of such a command, under any name. -/
structure Setter.Call where
  name : String
  setter : Setter
  values : List Value
  flags : List Flag

/-- The store after a call. The last case is for calls that fail. -/
def Store.after (s : Store) (x : Setter.Call) : Store :=
  match x.setter, x.values with
  | .assign, [.string name, value] =>
    Function.update s name (some ⟨value, Builtin.hasFlag x.flags "x"⟩)
  | .mark, [.string name, value] => Function.update s name (some ⟨value, true⟩)
  | .mark, [.string name] =>
    Function.update s name ((s name).map (fun v => { v with exported := true }))
  | .remove, values => fun name =>
    if name ∈ values.filterMap Value.asString? then none else s name
  | _, _ => s

/-- The lines about a store: one for each name that is set, in the order of the bytes of the names.
It has the name and the text of its value, behind a mark if the variable is exported. -/
def Store.Listed (s : Store) (lines : List String) : Prop :=
  ∃ entries : List (String × Variable),
    entries.Pairwise (fun a b => Text.bytes a.1 < Text.bytes b.1) ∧
    (∀ name v, (name, v) ∈ entries ↔ s name = some v) ∧
    lines = entries.map (fun (name, v) =>
      (if v.exported then "(exported) " else "") ++ name ++ "=" ++ v.value.text)

/-! ## Maps as stores -/

namespace NameMap

variable {α : Type}

theorem get?_eq_some_iff (m : NameMap α) (name : String) (a : α) :
    m.get? name = some a ↔ (name, a) ∈ m.entries := by
  obtain ⟨entries, hsorted⟩ := m
  show find name entries = some a ↔ (name, a) ∈ entries
  induction entries with
  | nil => simp [find]
  | cons head rest ih =>
    obtain ⟨key, b⟩ := head
    obtain ⟨hfirst, hrest⟩ := List.pairwise_cons.mp hsorted
    by_cases hkey : key = name
    · subst hkey
      -- the name does not come again among the larger ones
      have hnot : (key, a) ∉ rest := fun hmem => String.lt_irrefl key (hfirst _ hmem)
      simp [find, hnot, eq_comm]
    · simp [find, hkey, Ne.symm hkey, ih hrest]

theorem get?_insert_eq_update (m : NameMap α) (name : String) (a : α) :
    (m.insert name a).get? = Function.update m.get? name (some a) := by
  funext other
  rw [get?_insert, Function.update_apply]
  simp only [eq_comm]

end NameMap

namespace Context

/-- The store of a context. -/
def store (c : Context κ) : Store := c.bindings.get?

/-- From one context to another nothing but the variables changes, and more has happened. -/
def VariablesOnly (c d : Context κ) : Prop :=
  ∃ b es, d = { c with bindings := b, journal := es ++ c.journal }

theorem VariablesOnly.refl (c : Context κ) : VariablesOnly c c := ⟨c.bindings, [], rfl⟩

theorem VariablesOnly.trans {c d e : Context κ} (h : VariablesOnly c d) (h' : VariablesOnly d e) :
    VariablesOnly c e := by
  obtain ⟨_, es, rfl⟩ := h
  obtain ⟨b, fs, rfl⟩ := h'
  exact ⟨b, fs ++ es, by rw [List.append_assoc]⟩

theorem VariablesOnly.setVariable (c : Context κ) (name : String) (v : Value) (exported : Bool) :
    VariablesOnly c (c.setVariable name v exported) :=
  ⟨_, [], rfl⟩

theorem VariablesOnly.note (c : Context κ) (e : Event) : VariablesOnly c (c.note e) :=
  ⟨_, [e], rfl⟩

theorem VariablesOnly.commands {c d : Context κ} (h : VariablesOnly c d) :
    d.commands = c.commands := by
  obtain ⟨_, _, rfl⟩ := h
  rfl

theorem foldl_unsetVariable_only (names : List String) (c : Context κ) :
    VariablesOnly c (names.foldl unsetVariable c) := by
  induction names generalizing c with
  | nil => exact .refl c
  | cons name rest ih => exact VariablesOnly.trans ⟨_, [], rfl⟩ (ih (c.unsetVariable name))

end Context

/-! ## One call -/

namespace Builtin

/-- `export` of a name alone. -/
theorem exportVariable_name (name : String) (c : Context κ) :
    (exportVariable [.string name] : Action κ Value) c =
      match c.bindings.get? name with
      | none => (.error (.unsetVariable name), c)
      | some v => (.ok .unit, c.setVariable name v.value true) := by
  show Action.bind (tryUpdate _) _ c = _
  unfold Action.bind tryUpdate Context.exportVariable?
  dsimp only
  cases c.bindings.get? name with
  | none => rfl
  | some v => rfl

/-- Where `unset` succeeds, all its arguments are names. -/
theorem leadingNames_of_ok {values : List Value} {c : Context κ} {v : Value}
    (h : (unsetVariables values c).1 = .ok v) :
    leadingNames values = values.filterMap Value.asString? := by
  induction values generalizing c with
  | nil => rfl
  | cons target rest ih =>
    cases target with
    | string name => exact congrArg (name :: ·) (ih (c := c.unsetVariable name) h)
    | _ => cases h

/-- A builtin that answers with a plain value. -/
theorem ok_of_value {x : Action κ Value} {c next : Context κ} {answer : Flow Value}
    (h : (Flow.value <$> x : Action κ (Flow Value)) c = (.ok answer, next)) :
    ∃ v, x c = (.ok v, next) := by
  rcases bind_cases x (fun v => pure (Flow.value v)) c with ⟨v, hv, hrun⟩ | ⟨e, -, hrun⟩
  · obtain ⟨-, rfl⟩ := Prod.mk.inj (hrun.symm.trans h)
    exact ⟨v, Prod.ext hv rfl⟩
  · cases hrun.symm.trans h

end Builtin

namespace Setter.Call

variable {files : Files.Tree} {c next last : Context Builtin}

/-- What such a command does, once it is looked up. -/
theorem invoke_ok (x : Call) {describe : Builtin → String} {reenter : Reentry Builtin}
    {answer : Flow Value} (h : Builtin.invoke files describe reenter x.setter.builtin x.values
      x.flags c = (.ok answer, next)) :
    c.VariablesOnly next ∧ next.store = c.store.after x := by
  obtain ⟨name, setter, values, flags⟩ := x
  cases setter with
  | assign =>
    match values with
    | [target, value] =>
      cases target with
      | string variableName =>
        obtain ⟨-, rfl⟩ := Prod.mk.inj h
        exact ⟨.setVariable _ _ _ _, NameMap.get?_insert_eq_update _ _ _⟩
      | _ => cases h
  | mark =>
    match values with
    | [target] =>
      cases target with
      | string variableName =>
        obtain ⟨v, hv⟩ := Builtin.ok_of_value h
        rw [Builtin.exportVariable_name] at hv
        cases hvariable : c.bindings.get? variableName with
        | none =>
          rw [hvariable] at hv
          cases hv
        | some held =>
          rw [hvariable] at hv
          obtain ⟨-, rfl⟩ := Prod.mk.inj hv
          refine ⟨.setVariable _ _ _ _, ?_⟩
          show (c.bindings.insert variableName ⟨held.value, true⟩).get? =
            Function.update c.store variableName ((c.store variableName).map _)
          rw [NameMap.get?_insert_eq_update, Context.store, hvariable]
          rfl
      | _ => cases h
    | [target, value] =>
      cases target with
      | string variableName =>
        obtain ⟨-, rfl⟩ := Prod.mk.inj h
        exact ⟨.setVariable _ _ _ _, NameMap.get?_insert_eq_update _ _ _⟩
      | _ => cases h
  | remove =>
    obtain ⟨v, hv⟩ := Builtin.ok_of_value h
    have hleft := Builtin.unsetVariables_context values c
    rw [Builtin.leadingNames_of_ok (congrArg Prod.fst hv), hv] at hleft
    obtain rfl : next = _ := hleft
    exact ⟨Context.foldl_unsetVariable_only _ c,
      funext (Context.get?_foldl_unsetVariable _ c)⟩

/-- A call that succeeds changes the variables as the reference says, and nothing else. -/
theorem call_ok (x : Call) (hname : c.commands.get? x.name = some x.setter.builtin)
    {answer : Flow Value}
    (h : (Builtin.commandSet files).call x.name x.values x.flags c = (.ok answer, next)) :
    c.VariablesOnly next ∧ next.store = c.store.after x := by
  rcases hinvoke : (Builtin.commandSet files).invoke
    ((Builtin.commandSet files).reenterWithin (levels c.interpreter c)) x.setter.builtin x.values
    x.flags (invoking x.name x.values x.flags c) with ⟨result, left⟩
  rw [call_registered hname x.values x.flags hinvoke] at h
  obtain ⟨rfl, rfl⟩ := Prod.mk.inj h
  obtain ⟨hother, hstore⟩ := invoke_ok x hinvoke
  have hbefore : c.VariablesOnly (invoking x.name x.values x.flags c) :=
    (Context.VariablesOnly.note c _).trans (.note _ _)
  exact ⟨(hbefore.trans hother).trans (.note left _), hstore⟩

/-! ## Calls one after another -/

/-- Makes calls in order, up to the first that fails. -/
def callAll (files : Files.Tree) : List Call → Action Builtin Unit
  | [] => pure ()
  | x :: rest => do
    let _ ← (Builtin.commandSet files).call x.name x.values x.flags
    callAll files rest

theorem callAll_ok {calls : List Call}
    (hnames : ∀ x ∈ calls, c.commands.get? x.name = some x.setter.builtin)
    (hrun : callAll files calls c = (.ok (), last)) :
    c.VariablesOnly last ∧ last.store = calls.foldl Store.after c.store := by
  induction calls generalizing c with
  | nil =>
    obtain ⟨-, rfl⟩ := Prod.mk.inj hrun
    exact ⟨.refl c, rfl⟩
  | cons x rest ih =>
    rcases bind_cases ((Builtin.commandSet files).call x.name x.values x.flags)
      (fun _ => callAll files rest) c with ⟨answer, hanswer, hafter⟩ | ⟨e, -, hfailed⟩
    · rw [callAll, hafter] at hrun
      obtain ⟨honly, hstep⟩ := call_ok x (hnames x List.mem_cons_self) (Prod.ext hanswer rfl)
      -- the commands are still the same, so the later names stand for what they did
      obtain ⟨hmore, hfold⟩ := ih (fun y hy => by
        rw [honly.commands]
        exact hnames y (List.mem_cons_of_mem _ hy)) hrun
      rw [hstep] at hfold
      exact ⟨honly.trans hmore, hfold⟩
    · rw [callAll, hfailed] at hrun
      cases hrun

/-! ## The list of variables -/

/-- What `env` answers, whatever it is given. -/
theorem call_env {env : String} (henv : c.commands.get? env = some .env) (values : List Value)
    (flags : List Flag) :
    ((Builtin.commandSet files).call env values flags c).1 = .ok (.value (.ofStrings
      (c.bindings.entries.map (fun e => Builtin.variableLine e.1 e.2)))) :=
  congrArg Prod.fst (call_registered henv values flags rfl)

theorem listed_entries (c : Context κ) :
    c.store.Listed (c.bindings.entries.map (fun e => Builtin.variableLine e.1 e.2)) := by
  refine ⟨c.bindings.entries, c.bindings.sorted.imp Text.bytes_lt, fun name v => ?_, rfl⟩
  exact (NameMap.get?_eq_some_iff c.bindings name v).symm

end Setter.Call

end CommandShell
