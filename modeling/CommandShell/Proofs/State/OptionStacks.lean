/-
# CommandShell.Proofs.State.OptionStacks -- an option is a default and what covers it

A table keeps one list of values for each option, and nothing in its type keeps such a list from
being empty. What a table means is said here without that case: a declared option has a default and
the values that cover it. Whatever operations are done one after the other, the table and its
meaning give the same answers and stay in step (`performAll_refines`).

What an option holds can then be told from the operations alone: its default is the one declared
last, and it is uncovered when as many values were taken off as were pushed since then.
-/
import CommandShell.Evaluation.Context
import Mathlib.Logic.Function.Basic

namespace CommandShell

namespace OptionTable

/-! ## Operations -/

/-- Something to do with an option. -/
inductive Operation where
  | declare (name : String) (default : Value)
  | push (name : String) (value : Value)
  | peek (name : String)
  | pop (name : String)

/-- The option that an operation is about. -/
def Operation.option : Operation → String
  | .declare name _ | .push name _ | .peek name | .pop name => name

/-- What an operation answers: a value if it returns one, or why it fails. -/
abbrev Answer : Type := Except Error (Option Value)

/-- Does an operation; one that fails leaves the table to the next. -/
def perform (t : OptionTable) : Operation → Answer × OptionTable
  | .declare name default => (.ok none, t.declare name default)
  | .push name value =>
    match t.push name value with
    | .ok next => (.ok none, next)
    | .error e => (.error e, t)
  | .peek name =>
    match t.peek name with
    | .ok value => (.ok (some value), t)
    | .error e => (.error e, t)
  | .pop name =>
    match t.pop name with
    | .ok (value, next) => (.ok (some value), next)
    | .error e => (.error e, t)

/-- Does operations in order, given how one is done, whatever they answer. -/
def performAll {σ : Type} (step : σ → Operation → Answer × σ) :
    List Operation → σ → List Answer × σ
  | [], s => ([], s)
  | op :: rest, s =>
    let (answer, next) := step s op
    let (answers, last) := performAll step rest next
    (answer :: answers, last)

section Simulation

variable {σ τ : Type} {step : σ → Operation → Answer × σ} {step' : τ → Operation → Answer × τ}

/-- What one operation keeps, with the same answer, a whole sequence keeps, with the same
answers. -/
theorem performAll_simulates {R : σ → τ → Prop}
    (hstep : ∀ s s' op, R s s' →
      (step s op).1 = (step' s' op).1 ∧ R (step s op).2 (step' s' op).2)
    (ops : List Operation) {s : σ} {s' : τ} (h : R s s') :
    (performAll step ops s).1 = (performAll step' ops s').1 ∧
      R (performAll step ops s).2 (performAll step' ops s').2 := by
  induction ops generalizing s s' with
  | nil => exact ⟨rfl, h⟩
  | cons op rest ih =>
    obtain ⟨hanswer, hnext⟩ := hstep s s' op h
    obtain ⟨hanswers, hlast⟩ := ih hnext
    refine ⟨?_, hlast⟩
    show (step s op).1 :: (performAll step rest (step s op).2).1 = _
    rw [hanswer, hanswers]
    rfl

end Simulation

/-! ## What a table means -/

/-- A declared option: its default and the values that cover it, the current one first. -/
structure Covered where
  default : Value
  covers : List Value

/-- The current value of an option. -/
def Covered.current (o : Covered) : Value := o.covers.headD o.default

/-- The values of an option from the current one down to the default. -/
def Covered.values (o : Covered) : List Value := o.covers ++ [o.default]

/-- What the options mean; none for those that are not declared. -/
abbrev Meaning : Type := String → Option Covered

namespace Meaning

/-- The one option that every shell starts with. -/
def standard : Meaning := Function.update (fun _ => none) echo (some ⟨.string "off", []⟩)

/-- What an operation does to the meaning of a table. -/
def perform (m : Meaning) : Operation → Answer × Meaning
  | .declare name default => (.ok none, Function.update m name (some ⟨default, []⟩))
  | .push name value =>
    match m name with
    | none => (.error (.undeclaredOption name), m)
    | some o => (.ok none, Function.update m name (some ⟨o.default, value :: o.covers⟩))
  | .peek name =>
    match m name with
    | none => (.error (.undeclaredOption name), m)
    | some o => (.ok (some o.current), m)
  | .pop name =>
    match m name with
    | none => (.error (.undeclaredOption name), m)
    | some ⟨_, []⟩ => (.error (.optionAtDefault name), m)
    | some ⟨default, value :: below⟩ =>
      (.ok (some value), Function.update m name (some ⟨default, below⟩))

end Meaning

/-- A table holds what it means to hold. -/
def Refines (t : OptionTable) (m : Meaning) : Prop :=
  ∀ name, t.values.get? name = (m name).map Covered.values

section Refinement

variable {t : OptionTable} {m : Meaning}

theorem Refines.insert (h : Refines t m) (name : String) (o : Covered) :
    Refines ⟨t.values.insert name o.values⟩ (Function.update m name (some o)) := by
  intro other
  show (t.values.insert name o.values).get? other = _
  rw [NameMap.get?_insert]
  by_cases hname : name = other
  · subst hname
    rw [if_pos rfl, Function.update_self]
    rfl
  · rw [if_neg hname, Function.update_of_ne (Ne.symm hname)]
    exact h other

theorem refines_standard : Refines standard Meaning.standard := by
  have hempty : Refines empty (fun _ => none) := fun _ => rfl
  exact hempty.insert echo ⟨.string "off", []⟩

/-- Table and meaning answer an operation alike and stay in step. -/
theorem Refines.perform (h : Refines t m) (op : Operation) :
    (t.perform op).1 = (m.perform op).1 ∧ Refines (t.perform op).2 (m.perform op).2 := by
  cases op with
  | declare name default => exact ⟨rfl, h.insert name ⟨default, []⟩⟩
  | push name value =>
    have hname := h name
    simp only [OptionTable.perform, OptionTable.push, Meaning.perform]
    cases hm : m name with
    | none =>
      rw [hm] at hname
      simp only [hname, Option.map_none]
      exact ⟨trivial, h⟩
    | some o =>
      rw [hm] at hname
      simp only [hname, Option.map_some]
      exact ⟨trivial, h.insert name ⟨o.default, value :: o.covers⟩⟩
  | peek name =>
    have hname := h name
    simp only [OptionTable.perform, OptionTable.peek, Meaning.perform]
    cases hm : m name with
    | none =>
      rw [hm] at hname
      simp only [hname, Option.map_none]
      exact ⟨trivial, h⟩
    | some o =>
      obtain ⟨default, _ | ⟨top, below⟩⟩ := o
      all_goals
        rw [hm] at hname
        simp only [hname, Option.map_some, Covered.values, List.nil_append, List.cons_append]
        exact ⟨rfl, h⟩
  | pop name =>
    have hname := h name
    simp only [OptionTable.perform, OptionTable.pop, Meaning.perform]
    cases hm : m name with
    | none =>
      rw [hm] at hname
      simp only [hname, Option.map_none]
      exact ⟨trivial, h⟩
    | some o =>
      obtain ⟨default, _ | ⟨top, below⟩⟩ := o
      · rw [hm] at hname
        simp only [hname, Option.map_some, Covered.values, List.nil_append]
        exact ⟨trivial, h⟩
      · rw [hm] at hname
        have hnext := h.insert name ⟨default, below⟩
        -- what lies below the current value is never empty: the default is there
        obtain ⟨second, rest, hbelow⟩ : ∃ second rest, below ++ [default] = second :: rest :=
          List.exists_cons_of_ne_nil (by simp)
        simp only [Covered.values, hbelow] at hnext
        simp only [hname, Option.map_some, Covered.values, List.cons_append, hbelow]
        exact ⟨trivial, hnext⟩

end Refinement

/-! ## What the operations tell -/

/-- The default of an option behind an operation, given the one before it. -/
def defaultAfter (name : String) (before : Option Value) : Operation → Option Value
  | .declare other default => if other = name then some default else before
  | _ => before

/-- The default that was declared last for an option, if any was. -/
def lastDefault? (name : String) (history : List Operation) : Option Value :=
  history.foldl (defaultAfter name) (if name = echo then some (.string "off") else none)

/-- How often an option is covered behind an operation, given how often it was before. -/
def coversAfter (name : String) (before : Nat) : Operation → Nat
  | .declare other _ => if other = name then 0 else before
  | .push other _ => if other = name then before + 1 else before
  | .pop other => if other = name then before - 1 else before
  | .peek _ => before

/-- How many values were pushed over an option since it was last declared and not popped again. -/
def coverCount (name : String) (history : List Operation) : Nat :=
  history.foldl (coversAfter name) 0

/-- An option as the operations tell of it: its default, and how often it is covered. -/
structure Told (name : String) (m : Meaning) (default : Option Value) (count : Nat) : Prop where
  default_eq : (m name).map Covered.default = default
  count_eq : ∀ o, m name = some o → o.covers.length = count

section History

variable {name : String} {m : Meaning} {default : Option Value} {count : Nat}

theorem Told.congr {m' : Meaning} (h : Told name m default count) (hsame : m' name = m name) :
    Told name m' default count := by
  constructor
  · rw [hsame]
    exact h.default_eq
  · rw [hsame]
    exact h.count_eq

/-- Of an option that is not declared any count may be told. -/
theorem Told.recount (h : Told name m default count) (hnone : m name = none) (other : Nat) :
    Told name m default other := by
  refine ⟨h.default_eq, ?_⟩
  intro o ho
  rw [hnone] at ho
  cases ho

theorem told_update (m : Meaning) (name : String) (o : Covered) :
    Told name (Function.update m name (some o)) (some o.default) o.covers.length := by
  constructor
  · rw [Function.update_self]
    rfl
  · intro o' ho'
    rw [Function.update_self] at ho'
    cases ho'
    rfl

theorem Meaning.perform_apart (m : Meaning) (op : Operation) {other : String}
    (hne : op.option ≠ other) : (m.perform op).2 other = m other := by
  have hupdate : ∀ o, Function.update m op.option o other = m other :=
    fun o => Function.update_of_ne (Ne.symm hne) o m
  cases op with
  | declare name default => exact hupdate _
  | push name value =>
    simp only [Meaning.perform]
    cases m name with
    | none => rfl
    | some o => exact hupdate _
  | peek name =>
    simp only [Meaning.perform]
    cases m name <;> rfl
  | pop name =>
    simp only [Meaning.perform]
    cases m name with
    | none => rfl
    | some o =>
      obtain ⟨default, _ | ⟨top, below⟩⟩ := o
      · rfl
      · exact hupdate _

/-- What is told of an option stays true along an operation. -/
theorem Told.perform (h : Told name m default count) (op : Operation) :
    Told name (m.perform op).2 (defaultAfter name default op) (coversAfter name count op) := by
  by_cases hname : op.option = name
  · subst hname
    cases op with
    | declare name value =>
      simp only [defaultAfter, coversAfter, Operation.option, if_true]
      exact told_update m name ⟨value, []⟩
    | push name value =>
      simp only [Meaning.perform, defaultAfter, coversAfter, Operation.option, if_true] at h ⊢
      cases hm : m name with
      | none => exact h.recount hm _
      | some o =>
        rw [← h.count_eq o hm, ← h.default_eq, hm]
        exact told_update m name ⟨o.default, value :: o.covers⟩
    | peek name =>
      simp only [Meaning.perform, defaultAfter, coversAfter, Operation.option] at h ⊢
      cases m name <;> exact h
    | pop name =>
      simp only [Meaning.perform, defaultAfter, coversAfter, Operation.option, if_true] at h ⊢
      cases hm : m name with
      | none => exact h.recount hm _
      | some o =>
        have hcount := h.count_eq o hm
        obtain ⟨bottom, _ | ⟨top, below⟩⟩ := o
        · -- nothing is taken off, and there was nothing to count
          rw [← hcount] at h ⊢
          exact h
        · rw [← hcount, ← h.default_eq, hm]
          exact told_update m name ⟨bottom, below⟩
  · have hdefault : defaultAfter name default op = default := by
      cases op with
      | declare => exact if_neg hname
      | _ => rfl
    have hcount : coversAfter name count op = count := by
      cases op with
      | peek => rfl
      | _ => exact if_neg hname
    rw [hdefault, hcount]
    exact h.congr (m.perform_apart op hname)

/-- What is told of an option stays true along a sequence of operations. -/
theorem Told.performAll (h : Told name m default count) (ops : List Operation) :
    Told name (OptionTable.performAll Meaning.perform ops m).2
      (ops.foldl (defaultAfter name) default) (ops.foldl (coversAfter name) count) := by
  induction ops generalizing m default count with
  | nil => exact h
  | cons op rest ih => exact ih (h.perform op)

theorem told_standard (name : String) :
    Told name Meaning.standard (if name = echo then some (.string "off") else none) 0 := by
  by_cases hname : name = echo
  · rw [if_pos hname, hname]
    exact told_update (fun _ => none) echo ⟨.string "off", []⟩
  · rw [if_neg hname]
    have hnone : Told name (fun _ => none) none 0 := ⟨rfl, fun _ ho => by cases ho⟩
    exact hnone.congr (Function.update_of_ne hname _ _)

end History

/-! ## What can be relied on -/

/-- What holds of a table behind the given operations. -/
structure Governed (history : List Operation) (t : OptionTable) : Prop where
  /-- A declared option has values. -/
  nonempty : ∀ name values, t.values.get? name = some values → values ≠ []
  /-- The last of them is the default that was declared last; others have none. -/
  bottom : ∀ name, (t.values.get? name).bind List.getLast? = lastDefault? name history
  /-- There is always a current value to look at, once an option is declared. -/
  peek_error_iff : ∀ name e, t.peek name = .error e ↔
    lastDefault? name history = none ∧ e = .undeclaredOption name
  push_error_iff : ∀ name value e, t.push name value = .error e ↔
    lastDefault? name history = none ∧ e = .undeclaredOption name
  /-- A value can be taken off as long as not all that were pushed were taken off again. -/
  pop_error_iff : ∀ name e, t.pop name = .error e ↔
    (lastDefault? name history = none ∧ e = .undeclaredOption name) ∨
      (lastDefault? name history ≠ none ∧ coverCount name history = 0 ∧ e = .optionAtDefault name)
  /-- What was pushed last is popped first, and nothing is left of it. -/
  pop_push : ∀ name value next, t.push name value = .ok next → next.pop name = .ok (value, t)
  /-- An operation that fails changes nothing. -/
  failed_unchanged : ∀ op e, (t.perform op).1 = .error e → (t.perform op).2 = t
  /-- An operation does not touch other options than its own. -/
  apart : ∀ op other, op.option ≠ other →
    (t.perform op).2.values.get? other = t.values.get? other

section Governed

variable {t : OptionTable} {m : Meaning}

theorem perform_failed_unchanged (t : OptionTable) (op : Operation) (e : Error)
    (h : (t.perform op).1 = .error e) : (t.perform op).2 = t := by
  cases op with
  | declare name default => cases h
  | push name value =>
    simp only [perform] at h ⊢
    cases hpush : t.push name value with
    | ok next =>
      rw [hpush] at h
      cases h
    | error e' => rfl
  | peek name =>
    simp only [perform]
    cases t.peek name <;> rfl
  | pop name =>
    simp only [perform] at h ⊢
    cases hpop : t.pop name with
    | ok popped =>
      rw [hpop] at h
      cases h
    | error e' => rfl

theorem get?_insert_of_ne {name other : String} (hne : name ≠ other) (values : List Value) :
    (t.values.insert name values).get? other = t.values.get? other := by
  rw [NameMap.get?_insert, if_neg hne]

theorem perform_apart (t : OptionTable) (op : Operation) (other : String)
    (hne : op.option ≠ other) : (t.perform op).2.values.get? other = t.values.get? other := by
  cases op with
  | declare name default => exact get?_insert_of_ne hne [default]
  | push name value =>
    simp only [perform, push]
    cases t.values.get? name with
    | none => rfl
    | some values => exact get?_insert_of_ne hne (value :: values)
  | peek name =>
    simp only [perform]
    cases t.peek name <;> rfl
  | pop name =>
    simp only [perform, pop]
    cases t.values.get? name with
    | none => rfl
    | some values =>
      obtain _ | ⟨value, _ | ⟨below, rest⟩⟩ := values
      · rfl
      · rfl
      · exact get?_insert_of_ne hne (below :: rest)

/-- What is put over the values of an option and taken off again leaves no trace. -/
theorem Refines.pop_push (h : Refines t m) {name : String} {value : Value} {next : OptionTable}
    (hpush : t.push name value = .ok next) : next.pop name = .ok (value, t) := by
  have hname := h name
  simp only [push] at hpush
  cases hm : m name with
  | none =>
    rw [hm] at hname
    rw [hname] at hpush
    cases hpush
  | some o =>
    rw [hm] at hname
    obtain ⟨top, rest, hvalues⟩ : ∃ top rest, o.values = top :: rest :=
      List.exists_cons_of_ne_nil (by simp [Covered.values])
    rw [Option.map_some, hvalues] at hname
    rw [hname] at hpush
    cases hpush
    have hback : (t.values.insert name (value :: top :: rest)).insert name (top :: rest) =
        t.values := by
      apply NameMap.ext
      intro other
      rw [NameMap.get?_insert, NameMap.get?_insert]
      by_cases hother : name = other
      · rw [if_pos hother, ← hother, hname]
      · rw [if_neg hother, if_neg hother]
    simp only [pop, NameMap.get?_insert, if_true, hback]

/-- A table in step with a meaning of which the operations tell is governed by them. -/
theorem Refines.governed (h : Refines t m) {history : List Operation}
    (htold : ∀ name, Told name m (lastDefault? name history) (coverCount name history)) :
    Governed history t where
  nonempty name values hvalues := by
    rw [h name] at hvalues
    obtain ⟨o, -, rfl⟩ := Option.map_eq_some_iff.mp hvalues
    simp [Covered.values]
  bottom name := by
    rw [h name, ← (htold name).default_eq]
    cases m name with
    | none => rfl
    | some o => simp [Covered.values]
  peek_error_iff name e := by
    rw [← (htold name).default_eq, peek, h name]
    cases hm : m name with
    | none => simp [eq_comm]
    | some o =>
      obtain ⟨default, _ | ⟨top, below⟩⟩ := o <;> simp [Covered.values]
  push_error_iff name value e := by
    rw [← (htold name).default_eq, push, h name]
    cases hm : m name with
    | none => simp [eq_comm]
    | some o => simp
  pop_error_iff name e := by
    rw [← (htold name).default_eq, pop, h name]
    cases hm : m name with
    | none => simp [eq_comm]
    | some o =>
      rw [← (htold name).count_eq o hm]
      obtain ⟨default, _ | ⟨top, _ | ⟨second, rest⟩⟩⟩ := o <;> simp [Covered.values, eq_comm]
  pop_push name value next := h.pop_push
  failed_unchanged := perform_failed_unchanged t
  apart := perform_apart t

end Governed

/-! ## The options of a context -/

end OptionTable

namespace Context

open OptionTable

variable {κ : Type}

/-- Does an operation on the options of a context. -/
def operate (c : Context κ) : Operation → Answer × Context κ
  | .declare name default => (.ok none, c.declareOption name default)
  | .push name value =>
    match c.pushOption name value with
    | .ok next => (.ok none, next)
    | .error e => (.error e, c)
  | .peek name =>
    match c.options.peek name with
    | .ok value => (.ok (some value), c)
    | .error e => (.error e, c)
  | .pop name =>
    match c.popOption name with
    | .ok (value, next) => (.ok (some value), next)
    | .error e => (.error e, c)

/-- The context with other options and another journal. -/
def WithOptions (c : Context κ) (next : Context κ) (t : OptionTable) : Prop :=
  ∃ j, next = { c with options := t, journal := j }

/-- A context hands an operation on to its options, and notes what was pushed and popped. -/
theorem WithOptions.operate {c d : Context κ} {t : OptionTable} (h : c.WithOptions d t)
    (op : Operation) :
    (d.operate op).1 = (t.perform op).1 ∧ c.WithOptions (d.operate op).2 (t.perform op).2 := by
  obtain ⟨j, rfl⟩ := h
  cases op with
  | declare name default => exact ⟨rfl, j, rfl⟩
  | push name value =>
    simp only [Context.operate, pushOption, perform]
    cases t.push name value with
    | ok next => exact ⟨rfl, .pushed name value :: j, rfl⟩
    | error e => exact ⟨rfl, j, rfl⟩
  | peek name =>
    simp only [Context.operate, perform]
    cases t.peek name <;> exact ⟨rfl, j, rfl⟩
  | pop name =>
    simp only [Context.operate, popOption, perform]
    cases t.pop name with
    | ok popped => exact ⟨rfl, .popped name popped.1 :: j, rfl⟩
    | error e => exact ⟨rfl, j, rfl⟩

end Context

namespace OptionTable

/-- Whatever is done with the options a shell starts with, the table answers as its meaning does and
stays in step with it, and is governed by what was done. In a context the same operations get the
same answers and change nothing but the options. -/
theorem performAll_refines {κ : Type} (history : List Operation) :
    (performAll perform history standard).1 =
        (performAll Meaning.perform history Meaning.standard).1 ∧
      Refines (performAll perform history standard).2
        (performAll Meaning.perform history Meaning.standard).2 ∧
      Governed history (performAll perform history standard).2 ∧
      ∀ (i : Interpreter) (directory : String),
        (performAll Context.operate history (Context.new i directory : Context κ)).1 =
          (performAll perform history standard).1 ∧
        (Context.new i directory).WithOptions
          (performAll Context.operate history (Context.new i directory : Context κ)).2
          (performAll perform history standard).2 := by
  obtain ⟨hanswers, hrefines⟩ :=
    performAll_simulates (R := Refines) (fun _ _ op h => h.perform op) history refines_standard
  refine ⟨hanswers, hrefines, hrefines.governed ?_, ?_⟩
  · intro name
    exact (told_standard name).performAll history
  · intro i directory
    have hstart : (Context.new i directory : Context κ).WithOptions (Context.new i directory)
        standard := ⟨[], rfl⟩
    exact performAll_simulates (R := (Context.new i directory).WithOptions)
      (fun _ _ op h => h.operate op) history hstart

end OptionTable

end CommandShell
