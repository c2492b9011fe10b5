/-
# CommandShell.Proofs.Evaluation.Closure -- properties of evaluation from its steps

Evaluation is built from a few steps: a value, a failure, one step after another unless the shell
is left, a deeper level, a contained failure, and the call of a command. A property that each of
these steps keeps holds of every node, and a relation that each of them keeps holds between two
evaluations of a node. The induction over nodes is made here once; a property of evaluation is then
a list of small facts, one for each step.
-/
import CommandShell.Evaluation.Run
import CommandShell.Proofs.Program.Places

namespace CommandShell

variable {κ α β : Type}

namespace Action

/-- One action, then another on its value; a request to leave ends both. -/
def andThen (x : Action κ (Flow α)) (f : α → Action κ (Flow β)) : Action κ (Flow β) := do
  match ← x with
  | .exit code => pure (.exit code)
  | .value a => f a

theorem bind_ok {x : Action κ α} {f : α → Action κ β} {c next : Context κ} {a : α}
    (h : x c = (.ok a, next)) : (x >>= f) c = f a next := by
  show Action.bind x f c = _
  rw [Action.bind, h]

theorem bind_eq_andThen {x : Action κ (Flow α)} {f : α → Action κ (Flow β)}
    {g : Flow α → Action κ (Flow β)} (hexit : ∀ code, g (.exit code) = pure (.exit code))
    (hvalue : ∀ a, g (.value a) = f a) : x >>= g = andThen x f := by
  unfold andThen
  congr 1
  funext flow
  cases flow with
  | value a => exact hvalue a
  | exit code => exact hexit code

theorem nested_of_lt (x : Action κ α) {c : Context κ} (h : c.depth < c.interpreter.maxDepth) :
    nested x c = ((x (enter c)).1, leave (x (enter c)).2) := by
  unfold nested
  rw [if_pos h]

theorem nested_of_not_lt (x : Action κ α) {c : Context κ}
    (h : ¬ c.depth < c.interpreter.maxDepth) : nested x c = refuse c := by
  unfold nested
  rw [if_neg h]

end Action

open CommandShell.Action

/-! ## Evaluation by steps -/

section Steps

variable (dispatch : Dispatch κ)

theorem evaluate_interpolated (parts : List Part) :
    (Node.interpolated parts).evaluate dispatch =
      andThen (Part.evaluateAll dispatch parts) (fun s => pure (.value (.string s))) := by
  rw [Node.evaluate]
  exact bind_eq_andThen (fun _ => rfl) (fun _ => rfl)

theorem evaluate_command (name : String) (arguments : List Node) (flags : List Flag) :
    (Node.command name arguments flags).evaluate dispatch =
      nested (andThen (Node.evaluateAll dispatch arguments)
        (fun values => dispatch name values flags)) := by
  rw [Node.evaluate]
  congr 1
  exact bind_eq_andThen (fun _ => rfl) (fun _ => rfl)

theorem evaluateAll_cons (n : Node) (rest : List Node) :
    Node.evaluateAll dispatch (n :: rest) =
      andThen (embedded n (n.evaluate dispatch)) (fun v =>
        andThen (Node.evaluateAll dispatch rest) (fun vs => pure (.value (v :: vs)))) := by
  rw [Node.evaluateAll]
  refine bind_eq_andThen (fun _ => rfl) (fun _ => ?_)
  exact bind_eq_andThen (fun _ => rfl) (fun _ => rfl)

theorem evaluateParts_cons (p : Part) (rest : List Part) :
    Part.evaluateAll dispatch (p :: rest) =
      andThen (p.evaluate dispatch) (fun s =>
        andThen (Part.evaluateAll dispatch rest) (fun more => pure (.value (s ++ more)))) := by
  rw [Part.evaluateAll]
  refine bind_eq_andThen (fun _ => rfl) (fun _ => ?_)
  exact bind_eq_andThen (fun _ => rfl) (fun _ => rfl)

theorem evaluate_part_node (n : Node) :
    (Part.node n).evaluate dispatch =
      andThen (embedded n (n.evaluate dispatch)) (fun v => do
        Action.note (.substituted n v)
        pure (.value v.text)) := by
  rw [Part.evaluate]
  exact bind_eq_andThen (fun _ => rfl) (fun _ => rfl)

end Steps

/-! ## What every step keeps -/

/-- A relation between actions that the steps of evaluation keep, but for the one failure that comes
from a node itself: that of a flag outside of a command. -/
structure Carried (R : {α : Type} → Action κ (Flow α) → Action κ (Flow α) → Prop) : Prop where
  value {α : Type} (a : α) : R (pure (.value a)) (pure (.value a))
  readVariable (name : String) : R (readVariable name) (readVariable name)
  andThen {α β : Type} {x y : Action κ (Flow α)} {f g : α → Action κ (Flow β)} :
    R x y → (∀ a, R (f a) (g a)) → R (Action.andThen x f) (Action.andThen y g)
  contain {x y : Action κ (Flow Value)} (n : Node) : R x y → R (contain n x) (contain n y)
  nested {α : Type} {x y : Action κ (Flow α)} : R x y → R (Action.nested x) (Action.nested y)
  substituted (n : Node) (v : Value) :
    R (do Action.note (.substituted n v); pure (.value v.text))
      (do Action.note (.substituted n v); pure (.value v.text))

/-- If a node is a flag, its failure is related to itself. -/
def FlagRelated (R : {α : Type} → Action κ (Flow α) → Action κ (Flow α) → Prop) (n : Node) : Prop :=
  ∀ f, n = .flag f →
    R (Action.fail (.strayFlag f) : Action κ (Flow Value)) (Action.fail (.strayFlag f))

/-- If a node is a command, its calls are related. -/
def CallRelated (R : {α : Type} → Action κ (Flow α) → Action κ (Flow α) → Prop)
    (dispatch other : Dispatch κ) (n : Node) : Prop :=
  ∀ name arguments flags, n = .command name arguments flags →
    ∀ values, R (dispatch name values flags) (other name values flags)

namespace Carried

variable {R : {α : Type} → Action κ (Flow α) → Action κ (Flow α) → Prop} (hR : Carried R)
  {dispatch other : Dispatch κ}

include hR

theorem embedded {x y : Action κ (Flow Value)} (n : Node) (h : R x y) :
    R (embedded n x) (embedded n y) := by
  cases n with
  | command name arguments flags => exact hR.contain _ h
  | _ => exact h

mutual

/-- Evaluations of a node are related when the commands that stand in it are, and the failures of
stray flags. -/
theorem evaluate_local : ∀ n : Node,
    n.Everywhere (fun m => FlagRelated R m ∧ CallRelated R dispatch other m) →
    R (n.evaluate dispatch) (n.evaluate other)
  | .literal l, _ => by
      rw [Node.evaluate, Node.evaluate]
      exact hR.value _
  | .flag f, h => by
      rw [Node.evaluate, Node.evaluate]
      exact h.self.1 f rfl
  | .variable name, _ => by
      rw [Node.evaluate, Node.evaluate]
      exact hR.readVariable name
  | .interpolated parts, h => by
      rw [evaluate_interpolated, evaluate_interpolated]
      exact hR.andThen (evaluateParts_local parts (Node.everywhere_interpolated.mp h).2)
        (fun _ => hR.value _)
  | .command name arguments flags, h => by
      rw [evaluate_command, evaluate_command]
      exact hR.nested (hR.andThen (evaluateAll_local arguments (Node.everywhere_command.mp h).2)
        (fun values => h.self.2 name arguments flags rfl values))

theorem evaluateAll_local : ∀ ns : List Node,
    (∀ n ∈ ns, n.Everywhere (fun m => FlagRelated R m ∧ CallRelated R dispatch other m)) →
    R (Node.evaluateAll dispatch ns) (Node.evaluateAll other ns)
  | [], _ => by
      rw [Node.evaluateAll, Node.evaluateAll]
      exact hR.value _
  | n :: rest, h => by
      rw [evaluateAll_cons, evaluateAll_cons]
      refine hR.andThen (hR.embedded n (evaluate_local n (h n List.mem_cons_self))) (fun _ => ?_)
      exact hR.andThen (evaluateAll_local rest (fun m hm => h m (List.mem_cons_of_mem _ hm)))
        (fun _ => hR.value _)

theorem evaluateParts_local : ∀ ps : List Part,
    (∀ m, Part.node m ∈ ps →
      m.Everywhere (fun m => FlagRelated R m ∧ CallRelated R dispatch other m)) →
    R (Part.evaluateAll dispatch ps) (Part.evaluateAll other ps)
  | [], _ => by
      rw [Part.evaluateAll, Part.evaluateAll]
      exact hR.value _
  | p :: rest, h => by
      rw [evaluateParts_cons, evaluateParts_cons]
      refine hR.andThen (evaluatePart_local p (fun m hm => h m (hm ▸ List.mem_cons_self)))
        (fun _ => ?_)
      exact hR.andThen (evaluateParts_local rest (fun m hm => h m (List.mem_cons_of_mem _ hm)))
        (fun _ => hR.value _)

theorem evaluatePart_local : ∀ p : Part,
    (∀ m, Part.node m = p →
      m.Everywhere (fun m => FlagRelated R m ∧ CallRelated R dispatch other m)) →
    R (p.evaluate dispatch) (p.evaluate other)
  | .text s, _ => by
      rw [Part.evaluate, Part.evaluate]
      exact hR.value _
  | .node n, h => by
      rw [evaluate_part_node, evaluate_part_node]
      exact hR.andThen (hR.embedded n (evaluate_local n (h n rfl))) (fun v => hR.substituted n v)

end

/-- Evaluations of a node are related when the commands are, and the failures of stray flags. -/
theorem evaluate
    (hdispatch : ∀ name values flags, R (dispatch name values flags) (other name values flags))
    (n : Node) (h : n.Everywhere (FlagRelated R)) : R (n.evaluate dispatch) (n.evaluate other) :=
  hR.evaluate_local n (h.mono (fun _ hm => ⟨hm, fun name _ flags _ values =>
    hdispatch name values flags⟩))

end Carried

/-- A relation between actions that the steps of evaluation keep. -/
structure Related (R : {α : Type} → Action κ (Flow α) → Action κ (Flow α) → Prop) : Prop extends
    Carried R where
  fail (e : Error) : R (Action.fail e : Action κ (Flow Value)) (Action.fail e)

theorem Related.evaluate {R : {α : Type} → Action κ (Flow α) → Action κ (Flow α) → Prop}
    (hR : Related R) {dispatch other : Dispatch κ}
    (hdispatch : ∀ name values flags, R (dispatch name values flags) (other name values flags))
    (n : Node) : R (n.evaluate dispatch) (n.evaluate other) :=
  hR.toCarried.evaluate hdispatch n (fun _ _ _ _ _ => hR.fail _)

/-- A property of actions that the steps of evaluation keep. -/
structure Closed (P : {α : Type} → Action κ (Flow α) → Prop) : Prop where
  value {α : Type} (a : α) : P (pure (.value a) : Action κ (Flow α))
  fail (e : Error) : P (Action.fail e : Action κ (Flow Value))
  readVariable (name : String) : P (readVariable name)
  andThen {α β : Type} {x : Action κ (Flow α)} {f : α → Action κ (Flow β)} :
    P x → (∀ a, P (f a)) → P (Action.andThen x f)
  contain {x : Action κ (Flow Value)} (n : Node) : P x → P (contain n x)
  nested {α : Type} {x : Action κ (Flow α)} : P x → P (Action.nested x)
  substituted (n : Node) (v : Value) :
    P (do Action.note (.substituted n v); pure (.value v.text))

namespace Closed

variable {P : {α : Type} → Action κ (Flow α) → Prop} (hP : Closed P) {dispatch : Dispatch κ}

include hP

theorem related : Related (fun x _ => P x) where
  value := hP.value
  fail := hP.fail
  readVariable := hP.readVariable
  andThen := hP.andThen
  contain := hP.contain
  nested := hP.nested
  substituted := hP.substituted

theorem evaluate (hdispatch : ∀ name values flags, P (dispatch name values flags)) (n : Node) :
    P (n.evaluate dispatch) :=
  @Related.evaluate _ _ hP.related dispatch dispatch hdispatch n

end Closed

end CommandShell
