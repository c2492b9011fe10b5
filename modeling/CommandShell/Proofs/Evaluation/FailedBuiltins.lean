/-
# CommandShell.Proofs.Evaluation.FailedBuiltins -- what a builtin leaves behind when it fails

A builtin looks at its arguments first and acts when nothing can go wrong any more, so one that
fails has changed nothing. The exception is `unset`, which goes through its arguments one by one: at
the first that is no name it fails, and the variables named before it are gone.

`failure_unchanged_iff` says this of all builtins but `eval`, which fails where its program does.
-/
import CommandShell.Builtin

namespace CommandShell

variable {κ α β : Type}

/-! ## Actions that are careful with the context -/

namespace Action

/-- An action that changes nothing. -/
def Still (x : Action κ α) : Prop := ∀ c, (x c).2 = c

/-- An action that never fails. -/
def Sure (x : Action κ α) : Prop := ∀ c, ∃ a, (x c).1 = .ok a

/-- An action that changes nothing when it fails. -/
def Careful (x : Action κ α) : Prop := ∀ c e, (x c).1 = .error e → (x c).2 = c

theorem Still.careful {x : Action κ α} (hx : Still x) : Careful x := fun c _ _ => hx c

theorem Sure.careful {x : Action κ α} (hx : Sure x) : Careful x := by
  intro c e h
  obtain ⟨a, ha⟩ := hx c
  rw [ha] at h
  cases h

theorem still_pure (a : α) : Still (pure a : Action κ α) := fun _ => rfl

theorem still_fail (e : Error) : Still (fail e : Action κ α) := fun _ => rfl

theorem still_context : Still (context : Action κ (Context κ)) := fun _ => rfl

theorem sure_pure (a : α) : Sure (pure a : Action κ α) := fun _ => ⟨a, rfl⟩

theorem sure_update (f : Context κ → Context κ) : Sure (update f : Action κ Unit) :=
  fun _ => ⟨(), rfl⟩

theorem sure_context : Sure (context : Action κ (Context κ)) := fun c => ⟨c, rfl⟩

theorem careful_tryUpdate (f : Context κ → Except Error (Context κ)) : Careful (tryUpdate f) := by
  intro c e h
  unfold tryUpdate at h ⊢
  cases hf : f c with
  | error _ => rfl
  | ok next =>
    rw [hf] at h
    cases h

section Bind

variable {x : Action κ α} {f : α → Action κ β}

theorem bind_cases (x : Action κ α) (f : α → Action κ β) (c : Context κ) :
    (∃ a, (x c).1 = .ok a ∧ (x >>= f) c = f a (x c).2) ∨
      ∃ e, (x c).1 = .error e ∧ (x >>= f) c = (.error e, (x c).2) := by
  show (∃ a, _ ∧ Action.bind x f c = _) ∨ ∃ e, _ ∧ Action.bind x f c = _
  unfold Action.bind
  rcases x c with ⟨e | a, next⟩
  · exact .inr ⟨e, rfl, rfl⟩
  · exact .inl ⟨a, rfl, rfl⟩

theorem Still.bind (hx : Still x) (hf : ∀ a, Still (f a)) : Still (x >>= f) := by
  intro c
  rcases bind_cases x f c with ⟨a, -, hrun⟩ | ⟨e, -, hrun⟩ <;> rw [hrun]
  · exact (hf a _).trans (hx c)
  · exact hx c

/-- Checks that come first do not matter. -/
theorem Still.bind_careful (hx : Still x) (hf : ∀ a, Careful (f a)) : Careful (x >>= f) := by
  intro c e h
  rcases bind_cases x f c with ⟨a, -, hrun⟩ | ⟨_, -, hrun⟩ <;> rw [hrun] at h ⊢
  · exact (hf a _ e h).trans (hx c)
  · exact hx c

/-- What comes behind a change must not fail. -/
theorem Careful.bind_sure (hx : Careful x) (hf : ∀ a, Sure (f a)) : Careful (x >>= f) := by
  intro c e h
  rcases bind_cases x f c with ⟨a, -, hrun⟩ | ⟨e', hfailed, hrun⟩ <;> rw [hrun] at h ⊢
  · obtain ⟨b, hb⟩ := hf a (x c).2
    rw [hb] at h
    cases h
  · exact hx c e' hfailed

theorem Sure.bind (hx : Sure x) (hf : ∀ a, Sure (f a)) : Sure (x >>= f) := by
  intro c
  rcases bind_cases x f c with ⟨a, -, hrun⟩ | ⟨e, hfailed, -⟩
  · rw [hrun]
    exact hf a _
  · obtain ⟨a, ha⟩ := hx c
    rw [ha] at hfailed
    cases hfailed

end Bind

end Action

open CommandShell.Action

namespace Builtin

/-! ## Checks -/

theorem still_complain (b : Builtin) (complaint : Complaint) :
    Still (b.complain complaint : Action κ α) :=
  still_fail _

theorem still_string (b : Builtin) (role : Role) (v : Value) :
    Still (b.string role v : Action κ String) := by
  cases v with
  | string s => exact still_pure s
  | _ => exact still_complain b _

theorem still_onPath (path : RawText) (r : Except Files.Failure α) :
    Still (onPath path r : Action κ α) := by
  cases r with
  | ok a => exact still_pure a
  | error failure => exact still_fail _

theorem still_ofExcept (r : Except Error α) : Still (ofExcept r : Action κ α) := by
  cases r with
  | ok a => exact still_pure a
  | error e => exact still_fail e

/-! ## Builtins that change nothing -/

theorem still_listDirectory (files : Files.Tree) (values : List Value) :
    Still (listDirectory files values : Action κ Value) := by
  have hlist : ∀ path, Still (listDirectory.listAt files path : Action κ Value) :=
    fun path => (still_onPath _ _).bind (fun _ => still_pure _)
  match values with
  | [] => exact still_context.bind (fun c => hlist c.workingDirectory)
  | [directory] =>
    refine (still_string _ _ _).bind (fun path => ?_)
    exact still_context.bind (fun c => hlist (c.absolutePath path))
  | _ :: _ :: _ => exact still_complain _ _

theorem still_workingDirectory (values : List Value) :
    Still (workingDirectory values : Action κ Value) := by
  match values with
  | [] => exact still_context.bind (fun _ => still_pure _)
  | _ :: _ => exact still_complain _ _

theorem still_fileStatus (files : Files.Tree) (values : List Value) :
    Still (fileStatus files values : Action κ Value) := by
  match values with
  | [target] =>
    refine (still_string _ _ _).bind (fun path => still_context.bind (fun c => ?_))
    exact (still_onPath _ _).bind (fun _ => still_pure _)
  | [] => exact still_complain _ _
  | _ :: _ :: _ => exact still_complain _ _

theorem still_peekValue (values : List Value) : Still (peekValue values : Action κ Value) := by
  match values with
  | [target] =>
    refine (still_string _ _ _).bind (fun name => still_context.bind (fun c => ?_))
    exact still_ofExcept _
  | [] => exact still_complain _ _
  | _ :: _ :: _ => exact still_complain _ _

theorem still_clearScreen (values : List Value) : Still (clearScreen values : Action κ Value) := by
  cases values with
  | nil => exact still_pure _
  | cons _ _ => exact still_complain _ _

theorem still_requestExit (values : List Value) :
    Still (requestExit values : Action κ (Flow Value)) := by
  unfold requestExit
  split
  · exact still_pure _
  · split
    · exact still_pure _
    · exact still_complain _ _
  · exact still_complain _ _
  · exact still_complain _ _

/-- The builtins that look at the context, or not even that. -/
def observers : List Builtin := [.echo, .env, .pwd, .ls, .stat, .help, .clear, .peekOption, .exit]

/-- A builtin that only looks changes nothing, whether it fails or not. -/
theorem still_invoke {b : Builtin} (hb : b ∈ observers) (files : Files.Tree)
    (describe : κ → String) (reenter : Reentry κ) (values : List Value) (flags : List Flag) :
    Still (invoke files describe reenter b values flags) := by
  have hvalue : ∀ {x : Action κ Value}, Still x → Still (Flow.value <$> x) :=
    fun hx => hx.bind (fun _ => still_pure _)
  cases b with
  | exit => exact still_requestExit values
  | echo => exact still_pure _
  | clear => exact hvalue (still_clearScreen values)
  | env => exact hvalue (still_context.bind (fun _ => still_pure _))
  | help => exact hvalue (still_context.bind (fun _ => still_pure _))
  | ls => exact hvalue (still_listDirectory files values)
  | peekOption => exact hvalue (still_peekValue values)
  | pwd => exact hvalue (still_workingDirectory values)
  | stat => exact hvalue (still_fileStatus files values)
  | _ => exact absurd hb (by decide)

/-! ## Builtins that act last -/

theorem careful_changeDirectory (files : Files.Tree) (values : List Value) :
    Careful (changeDirectory files values : Action κ Value) := by
  match values with
  | [] => exact (still_context.bind (fun _ => still_pure _)).careful
  | [target] =>
    refine (still_string _ _ _).bind_careful (fun path => ?_)
    refine (careful_tryUpdate _).bind_sure (fun _ => sure_context.bind (fun c => ?_))
    exact (sure_update _).bind (fun _ => sure_pure _)
  | _ :: _ :: _ => exact (still_complain _ _).careful

theorem careful_setVariable (flags : List Flag) (values : List Value) :
    Careful (setVariable flags values : Action κ Value) := by
  match values with
  | [target, value] =>
    refine (still_string _ _ _).bind_careful (fun name => ?_)
    exact ((sure_update _).bind (fun _ => sure_pure _)).careful
  | [] => exact (still_complain _ _).careful
  | [_] => exact (still_complain _ _).careful
  | _ :: _ :: _ :: _ => exact (still_complain _ _).careful

theorem careful_exportVariable (values : List Value) :
    Careful (exportVariable values : Action κ Value) := by
  match values with
  | [target] =>
    refine (still_string _ _ _).bind_careful (fun name => ?_)
    exact (careful_tryUpdate _).bind_sure (fun _ => sure_pure _)
  | [target, value] =>
    refine (still_string _ _ _).bind_careful (fun name => ?_)
    exact ((sure_update _).bind (fun _ => sure_pure _)).careful
  | [] => exact (still_complain _ _).careful
  | _ :: _ :: _ :: _ => exact (still_complain _ _).careful

theorem careful_pushValue (values : List Value) : Careful (pushValue values : Action κ Value) := by
  match values with
  | [target, value] =>
    refine (still_string _ _ _).bind_careful (fun name => ?_)
    exact (careful_tryUpdate _).bind_sure (fun _ => sure_pure _)
  | [] => exact (still_complain _ _).careful
  | [_] => exact (still_complain _ _).careful
  | _ :: _ :: _ :: _ => exact (still_complain _ _).careful

theorem careful_popValue (values : List Value) : Careful (popValue values : Action κ Value) := by
  match values with
  | [target] =>
    refine (still_string _ _ _).bind_careful (fun name => ?_)
    intro c e h
    rcases hpop : c.popOption name with e' | ⟨value, next⟩
    · simp only [hpop]
    · simp only [hpop] at h
      cases h
  | [] => exact (still_complain _ _).careful
  | _ :: _ :: _ => exact (still_complain _ _).careful

/-- A builtin that neither runs a program nor goes through its arguments one by one changes nothing
when it fails. -/
theorem careful_invoke {b : Builtin} (heval : b ≠ .eval) (hunset : b ≠ .unset) (files : Files.Tree)
    (describe : κ → String) (reenter : Reentry κ) (values : List Value) (flags : List Flag) :
    Careful (invoke files describe reenter b values flags) := by
  have hvalue : ∀ {x : Action κ Value}, Careful x → Careful (Flow.value <$> x) :=
    fun hx => hx.bind_sure (fun _ => sure_pure _)
  by_cases hb : b ∈ observers
  · exact (still_invoke hb files describe reenter values flags).careful
  · cases b with
    | eval => exact absurd rfl heval
    | unset => exact absurd rfl hunset
    | cd => exact hvalue (careful_changeDirectory files values)
    | «export» => exact hvalue (careful_exportVariable values)
    | popOption => exact hvalue (careful_popValue values)
    | pushOption => exact hvalue (careful_pushValue values)
    | set => exact hvalue (careful_setVariable flags values)
    | _ => exact absurd (by decide) hb

/-! ## Arguments one by one -/

/-- The names among the arguments in front of the first that is none. -/
def leadingNames : List Value → List String
  | .string name :: rest => name :: leadingNames rest
  | _ => []

/-- Whether it fails or not, `unset` removes the variables named in front of the first argument that
is no name. -/
theorem unsetVariables_context (values : List Value) (c : Context κ) :
    (unsetVariables values c).2 = (leadingNames values).foldl Context.unsetVariable c := by
  induction values generalizing c with
  | nil => rfl
  | cons target rest ih =>
    cases target with
    | string name => exact ih (c.unsetVariable name)
    | _ => rfl

end Builtin

namespace Context

/-- Two contexts with the same variables, commands, options and working directory. -/
structure SameHoldings (c d : Context κ) : Prop where
  bindings : c.bindings = d.bindings
  commands : c.commands = d.commands
  options : c.options = d.options
  workingDirectory : c.workingDirectory = d.workingDirectory

theorem SameHoldings.refl (c : Context κ) : SameHoldings c c := ⟨rfl, rfl, rfl, rfl⟩

theorem SameHoldings.trans {c d e : Context κ} (h : SameHoldings c d) (h' : SameHoldings d e) :
    SameHoldings c e :=
  ⟨h.bindings.trans h'.bindings, h.commands.trans h'.commands, h.options.trans h'.options,
    h.workingDirectory.trans h'.workingDirectory⟩

theorem get?_foldl_unsetVariable (names : List String) (c : Context κ) (other : String) :
    (names.foldl unsetVariable c).bindings.get? other =
      if other ∈ names then none else c.bindings.get? other := by
  induction names generalizing c with
  | nil => rfl
  | cons name rest ih =>
    have herase : (c.unsetVariable name).bindings.get? other =
        if name = other then none else c.bindings.get? other :=
      NameMap.get?_erase c.bindings name other
    rw [List.foldl_cons, ih, herase]
    by_cases hrest : other ∈ rest
    · simp [hrest]
    · by_cases hname : name = other
      · simp [hname]
      · simp [hrest, hname, Ne.symm hname]

/-- Removing variables changes nothing but variables, and nothing at all exactly when none of them
is set. -/
theorem sameHoldings_foldl_unsetVariable_iff (names : List String) (c : Context κ) :
    SameHoldings (names.foldl unsetVariable c) c ↔
      ∀ name ∈ names, c.bindings.get? name = none := by
  have hrest : ∀ d : Context κ, (names.foldl unsetVariable d).commands = d.commands ∧
      (names.foldl unsetVariable d).options = d.options ∧
      (names.foldl unsetVariable d).workingDirectory = d.workingDirectory := by
    induction names with
    | nil => exact fun d => ⟨rfl, rfl, rfl⟩
    | cons name rest ih => exact fun d => ih (d.unsetVariable name)
  obtain ⟨hcommands, hoptions, hdirectory⟩ := hrest c
  constructor
  · intro hsame name hname
    have hremoved := get?_foldl_unsetVariable names c name
    rw [if_pos hname, hsame.bindings] at hremoved
    exact hremoved
  · intro hunset
    refine ⟨NameMap.ext (fun other => ?_), hcommands, hoptions, hdirectory⟩
    rw [get?_foldl_unsetVariable]
    split
    · next hmem => exact (hunset other hmem).symm
    · rfl

end Context

namespace Builtin

/-- A builtin other than `eval` that fails leaves variables, commands, options and the working
directory as they were, exactly unless it is `unset` and a variable is named in front of the
argument it fails on; `unset` then leaves the context without the variables named there, and every
other builtin leaves the very same context. -/
theorem failure_unchanged_iff (files : Files.Tree) (describe : κ → String) (reenter : Reentry κ)
    {b : Builtin} (heval : b ≠ .eval) (values : List Value) (flags : List Flag) {c : Context κ}
    {e : Error} (hfailed : (invoke files describe reenter b values flags c).1 = .error e) :
    ((invoke files describe reenter b values flags c).2.SameHoldings c ↔
      (b = .unset → ∀ name ∈ leadingNames values, c.bindings.get? name = none)) ∧
    (invoke files describe reenter b values flags c).2 =
      if b = .unset then (leadingNames values).foldl Context.unsetVariable c else c := by
  by_cases hunset : b = .unset
  · subst hunset
    have hleft : (invoke files describe reenter .unset values flags c).2 =
        (leadingNames values).foldl Context.unsetVariable c := by
      rw [← unsetVariables_context]
      show ((Flow.value <$> unsetVariables values : Action κ (Flow Value)) c).2 = _
      rcases bind_cases (unsetVariables values) (fun v => pure (Flow.value v)) c with
        ⟨v, -, hrun⟩ | ⟨_, -, hrun⟩
      · exact congrArg Prod.snd hrun
      · exact congrArg Prod.snd hrun
    rw [if_pos rfl, hleft]
    refine ⟨?_, rfl⟩
    rw [Context.sameHoldings_foldl_unsetVariable_iff]
    exact ⟨fun h _ => h, fun h => h rfl⟩
  · have hsame := careful_invoke heval hunset files describe reenter values flags c e hfailed
    rw [if_neg hunset, hsame]
    exact ⟨⟨fun _ h => absurd h hunset, fun _ => Context.SameHoldings.refl c⟩, rfl⟩

/-- A context with the one variable `a`. -/
def oneVariable : Context Builtin := (Context.new {} "/").setVariable "a" (.integer 1) false

/-- What `unset` fails on does no harm where no variable is named before it. -/
theorem failure_unchanged_unnamed :
    (invoke .empty description (fun _ => Action.refuse) .unset [.string "b", .integer 5] []
      oneVariable).1 = .error (.badArguments "unset" (.notString .variableName .integer)) ∧
    (invoke .empty description (fun _ => Action.refuse) .unset [.string "b", .integer 5] []
      oneVariable).2.SameHoldings oneVariable := by
  refine ⟨rfl, ((failure_unchanged_iff .empty description (fun _ => Action.refuse) (by decide)
    [.string "b", .integer 5] [] (c := oneVariable) rfl).1).mpr ?_⟩
  intro _ name hname
  rw [List.mem_singleton.mp hname]
  rfl

/-- The variable named in front of it is gone. -/
theorem failure_unsets_variable :
    (invoke .empty description (fun _ => Action.refuse) .unset [.string "a", .integer 5] []
      oneVariable).1 = .error (.badArguments "unset" (.notString .variableName .integer)) ∧
    ¬ (invoke .empty description (fun _ => Action.refuse) .unset [.string "a", .integer 5] []
      oneVariable).2.SameHoldings oneVariable := by
  refine ⟨rfl, fun hsame => ?_⟩
  have hvariable := congrArg (NameMap.get? · "a") hsame.bindings
  cases hvariable

end Builtin

end CommandShell
