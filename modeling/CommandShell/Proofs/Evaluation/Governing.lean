/-
# CommandShell.Proofs.Evaluation.Governing -- the settings that govern an evaluation

Whoever evaluates a text puts his own settings into the context and takes them out at the end, and
every text that runs inside does the same again. Whatever needs a setting on the way looks for it in
the context. Here evaluation is written once more with the settings as an argument (`Directed`):
they are handed on from step to step, and those in the context are not looked at and stay as they
are. The two are shown to be the same. So the settings that a context has of its own play no part
in an evaluation by others, at whatever depth, and are there again at its end.
-/
import CommandShell.Proofs.Evaluation.LineByLine

namespace CommandShell

open Step CommandShell.Action

variable {κ τ υ α β : Type}

/-! ## Evaluation with the settings as an argument -/

namespace Directed

variable (i : Interpreter)

/-- Reads a variable; the given settings say what becomes of one that is not set. -/
def readVariable (name : String) : Action κ (Flow Value) := fun c =>
  match c.valueOf? name with
  | some v => (.ok (.value v), c)
  | none =>
    (if i.lenient then .ok (.value (.string "")) else .error (.unsetVariable name),
      c.note (.missed name))

/-- Fails because the given settings let evaluation go no deeper. -/
def refuse : Action κ α := fun c =>
  (.error (.depthExceeded i.maxDepth), c.note (.refused i.maxDepth))

/-- Runs an action one level deeper, if the given settings leave a level. -/
def nested (body : Action κ α) : Action κ α := fun c =>
  if c.depth < i.maxDepth then ((body (enter c)).1, leave (body (enter c)).2) else refuse i c

mutual

/-- Evaluates a node by the given settings. -/
def evaluate (dispatch : Dispatch κ) : Node → Action κ (Flow Value)
  | .literal l => pure (.value (.ofLiteral l))
  | .flag f => fail (.strayFlag f)
  | .variable name => readVariable i name
  | .interpolated parts =>
    andThen (evaluateParts dispatch parts) (fun s => pure (.value (.string s)))
  | .command name arguments flags =>
    nested i (andThen (evaluateAll dispatch arguments) (fun values => dispatch name values flags))

/-- Evaluates arguments by the given settings. -/
def evaluateAll (dispatch : Dispatch κ) : List Node → Action κ (Flow (List Value))
  | [] => pure (.value [])
  | n :: rest =>
    andThen (embedded n (evaluate dispatch n)) (fun v =>
      andThen (evaluateAll dispatch rest) (fun vs => pure (.value (v :: vs))))

/-- Evaluates the parts of a string by the given settings. -/
def evaluateParts (dispatch : Dispatch κ) : List Part → Action κ (Flow String)
  | [] => pure (.value "")
  | p :: rest =>
    andThen (evaluatePart dispatch p) (fun s =>
      andThen (evaluateParts dispatch rest) (fun more => pure (.value (s ++ more))))

/-- Evaluates a part of a string by the given settings. -/
def evaluatePart (dispatch : Dispatch κ) : Part → Action κ (Flow String)
  | .text s => pure (.value s)
  | .node n =>
    andThen (embedded n (evaluate dispatch n)) (fun v => do
      Action.note (.substituted n v)
      pure (.value v.text))

end

/-- Runs a text inside a command by the given settings, through at most that many re-entries. -/
def reenterWithin (set : CommandSet κ) : Nat → Reentry κ
  | 0, _ => refuse i
  | levels + 1, source => nested i (seq
      (textStep i.reader (evaluate i (set.dispatch (reenterWithin set levels))) source [])
      (fun outcomes => result (.ok outcomes)))

/-- Runs a text by the given settings and gathers its outcomes. -/
def evaluateText (set : CommandSet κ) (source : String) (c : Context κ) :
    List Outcome × Context κ :=
  textStep i.reader (evaluate i (set.dispatch (reenterWithin i set (CommandSet.levels i c)))) source
    [] c

end Directed

/-! ## Settings that are lent -/

namespace Step

/-- The second step does in any context what the first does there with the given settings on, and
puts nothing into the context that would have to be taken out again. -/
structure Governed (i : Interpreter) (x y : Step κ τ) : Prop where
  kept (c : Context κ) : (x c).2.interpreter = c.interpreter
  eq (c : Context κ) : y c = ((x (c.under i)).1, (x (c.under i)).2.under c.interpreter)

variable {i : Interpreter}

/-- A step that does not see the settings. -/
theorem governed_of_commutes {x : Step κ τ} (hkept : ∀ c, (x c).2.interpreter = c.interpreter)
    (h : Commutes (·.under i) x) : Governed i x x := by
  refine ⟨hkept, fun c => ?_⟩
  have hunder : x (c.under i) = ((x c).1, (x c).2.under i) := h c
  have hback : ((x c).2.under i).under c.interpreter = (x c).2 := Context.under_of_eq (hkept c)
  rw [hunder, hback]

theorem Governed.seq {x y : Step κ τ} {f g : τ → Step κ υ} (hx : Governed i x y)
    (hf : ∀ t, Governed i (f t) (g t)) : Governed i (seq x f) (seq y g) := by
  refine ⟨fun c => ((hf _).kept _).trans (hx.kept c), fun c => ?_⟩
  have hnext : ((x (c.under i)).2.under c.interpreter).under i = (x (c.under i)).2 :=
    Context.under_of_eq (hx.kept (c.under i))
  show g (y c).1 (y c).2 = _
  rw [hx.eq c, (hf _).eq, hnext]
  rfl

theorem sequential_governed (i : Interpreter) : @Sequential κ (fun x y => Governed i x y) where
  result _ := ⟨fun _ => rfl, fun _ => rfl⟩
  noting _ := ⟨fun _ => rfl, fun _ => rfl⟩
  seq := Governed.seq

/-- A step that looks at the context first, but not at its settings. -/
theorem Governed.look {f g : Context κ → Step κ τ} (h : ∀ c, Governed i (f c) (g c))
    (hsettings : ∀ c, f (c.under i) = f c) :
    Governed i (fun c => f c c) (fun c => g c c) := by
  refine ⟨fun c => (h c).kept c, fun c => ?_⟩
  simp only [hsettings c]
  exact (h c).eq c

theorem Governed.nested {x y : Action κ α} (h : Governed i x y) :
    Governed i (Action.nested x) (Directed.nested i y) := by
  refine ⟨fun c => ?_, fun c => ?_⟩
  · by_cases hdepth : c.depth < c.interpreter.maxDepth
    · rw [nested_of_lt x hdepth]
      exact h.kept (enter c)
    · rw [nested_of_not_lt x hdepth]
      rfl
  · unfold Directed.nested
    by_cases hdepth : c.depth < i.maxDepth
    · have hunder : (c.under i).depth < (c.under i).interpreter.maxDepth := hdepth
      rw [if_pos hdepth, nested_of_lt x hunder, h.eq (enter c)]
      rfl
    · have hunder : ¬ (c.under i).depth < (c.under i).interpreter.maxDepth := hdepth
      rw [if_neg hdepth, nested_of_not_lt x hunder]
      rfl

theorem Governed.andThen {x y : Action κ (Flow α)} {f g : α → Action κ (Flow β)}
    (h : Governed i x y) (hf : ∀ a, Governed i (f a) (g a)) :
    Governed i (Action.andThen x f) (Action.andThen y g) := by
  refine (sequential_governed i).bind h (fun flow => ?_)
  cases flow with
  | value a => exact hf a
  | exit code => exact (sequential_governed i).result _

theorem Governed.embedded {x y : Action κ (Flow Value)} (n : Node) (h : Governed i x y) :
    Governed i (embedded n x) (embedded n y) := by
  cases n with
  | command name arguments flags =>
    show Governed i (contain _ x) (contain _ y)
    rw [contain_eq_seq, contain_eq_seq]
    refine h.seq (fun r => ?_)
    cases r with
    | ok flow => exact (sequential_governed i).result _
    | error e => exact ⟨fun _ => rfl, fun _ => rfl⟩
  | _ => exact h

theorem governed_readVariable (name : String) :
    Governed i (readVariable name : Action κ (Flow Value)) (Directed.readVariable i name) := by
  refine ⟨fun c => ?_, fun c => ?_⟩
  · unfold readVariable
    cases c.valueOf? name with
    | some v => rfl
    | none => cases c.interpreter.lenient <;> rfl
  · have hvalue : (c.under i).valueOf? name = c.valueOf? name := rfl
    simp only [Directed.readVariable, readVariable_eq_seq, hvalue]
    cases c.valueOf? name with
    | some v => rfl
    | none => rfl

end Step

/-! ## Nodes -/

namespace Directed

variable {i : Interpreter} {dispatch other : Dispatch κ}

mutual

/-- A node is evaluated by the given settings as in a context that has them. -/
theorem governed_evaluate (hdispatch : ∀ name values flags,
      Governed i (dispatch name values flags) (other name values flags)) :
    ∀ n : Node, Governed i (n.evaluate dispatch) (evaluate i other n)
  | .literal l => by
      rw [Node.evaluate, evaluate]
      exact (sequential_governed i).result _
  | .flag f => by
      rw [Node.evaluate, evaluate]
      exact (sequential_governed i).result _
  | .variable name => by
      rw [Node.evaluate, evaluate]
      exact governed_readVariable name
  | .interpolated parts => by
      rw [evaluate_interpolated, evaluate]
      exact (governed_evaluateParts hdispatch parts).andThen
        (fun _ => (sequential_governed i).result _)
  | .command name arguments flags => by
      rw [evaluate_command, evaluate]
      exact ((governed_evaluateAll hdispatch arguments).andThen
        (fun values => hdispatch name values flags)).nested

theorem governed_evaluateAll (hdispatch : ∀ name values flags,
      Governed i (dispatch name values flags) (other name values flags)) :
    ∀ ns : List Node, Governed i (Node.evaluateAll dispatch ns) (evaluateAll i other ns)
  | [] => by
      rw [Node.evaluateAll, evaluateAll]
      exact (sequential_governed i).result _
  | n :: rest => by
      rw [evaluateAll_cons, evaluateAll]
      refine ((governed_evaluate hdispatch n).embedded n).andThen (fun _ => ?_)
      exact (governed_evaluateAll hdispatch rest).andThen
        (fun _ => (sequential_governed i).result _)

theorem governed_evaluateParts (hdispatch : ∀ name values flags,
      Governed i (dispatch name values flags) (other name values flags)) :
    ∀ ps : List Part, Governed i (Part.evaluateAll dispatch ps) (evaluateParts i other ps)
  | [] => by
      rw [Part.evaluateAll, evaluateParts]
      exact (sequential_governed i).result _
  | p :: rest => by
      rw [evaluateParts_cons, evaluateParts]
      refine (governed_evaluatePart hdispatch p).andThen (fun _ => ?_)
      exact (governed_evaluateParts hdispatch rest).andThen
        (fun _ => (sequential_governed i).result _)

theorem governed_evaluatePart (hdispatch : ∀ name values flags,
      Governed i (dispatch name values flags) (other name values flags)) :
    ∀ p : Part, Governed i (p.evaluate dispatch) (evaluatePart i other p)
  | .text s => by
      rw [Part.evaluate, evaluatePart]
      exact (sequential_governed i).result _
  | .node n => by
      rw [evaluate_part_node, evaluatePart]
      exact ((governed_evaluate hdispatch n).embedded n).andThen
        (fun _ => ⟨fun _ => rfl, fun _ => rfl⟩)

end

/-! ## Commands and the texts they run -/

variable {set : CommandSet κ}

theorem governed_dispatch {f g : Reentry κ} (h : ∀ code values flags,
      Governed i (set.invoke f code values flags) (set.invoke g code values flags))
    (name : String) (values : List Value) (flags : List Flag) :
    Governed i (set.dispatch f name values flags) (set.dispatch g name values flags) := by
  refine (sequential_governed i).dispatch (fun {x y} name hxy => ?_) h name values flags
  exact Governed.look (f := fun c => x (c.commands.get? name))
    (g := fun c => y (c.commands.get? name)) (fun _ => hxy _) (fun _ => rfl)

/-- A text that is run with the settings of the context is run by the given settings when these are
lent to the context. -/
theorem governed_runOver {evaluate other : Node → Action κ (Flow Value)}
    (h : ∀ n, Governed i (evaluate n) (other n)) (source : String) :
    Governed i (fun c => c.interpreter.runOver evaluate collect source ([], c))
      (textStep i.reader other source []) := by
  have htext := (sequential_governed i).textStep i.reader h source []
  rw [runOver_own]
  refine ⟨fun _ => rfl, fun c => ?_⟩
  rw [htext.eq c]
  rfl

/-- By induction on how many more texts may be run inside. -/
theorem governed_reenterWithin (hset : set.Keeps (fun x y => Governed i x y)) (levels : Nat) :
    ∀ source, Governed i (set.reenterWithin levels source) (reenterWithin i set levels source) := by
  induction levels with
  | zero => exact fun _ => ⟨fun _ => rfl, fun _ => rfl⟩
  | succ levels ih =>
    intro source
    rw [CommandSet.reenterWithin_succ, reenterWithin]
    have hnode := governed_evaluate (governed_dispatch (hset _ _ ih))
    exact ((governed_runOver hnode source).seq
      (fun _ => (sequential_governed i).result _)).nested

/-- Evaluation with the settings in the context is evaluation with the settings as an argument. -/
theorem evaluate_eq_evaluateText (hset : set.Keeps (fun x y => Governed i x y)) (source : String)
    (c : Context κ) : i.evaluate set source c = evaluateText i set source c := by
  have hnode := governed_evaluate (governed_dispatch
    (hset _ _ (governed_reenterWithin hset (CommandSet.levels i c))))
  exact (((sequential_governed i).textStep i.reader hnode source []).eq c).symm

end Directed

/-- The builtins do not see the settings. -/
theorem Builtin.keeps_governed (files : Files.Tree) (i : Interpreter) :
    (commandSet files).Keeps (fun x y => Governed i x y) := by
  refine keeps_of_plain (sequential_governed i) files (fun _ heval reenter values flags => ?_)
  apply governed_of_commutes
  · intro c
    obtain ⟨_, -, -, hframe⟩ :=
      closed_logs.invoke heval files description reenter values flags c
    exact hframe.interpreter
  · exact (closed_commutes (unseen_mapUnseen (fun _ => i) id)).invoke heval files description
      reenter values flags

/-! ## Whole evaluations -/

namespace Interpreter

/-- The settings that evaluate a text govern all that happens on the way, and those of the context
are not touched. The evaluation is the one that takes the settings as an argument and never looks
for them in the context; in contexts that differ in nothing but settings of their own it has the
same outcomes and leaves the same behind; and at the end each context has its own settings again. -/
theorem evaluate_governed (files : Files.Tree) (i own : Interpreter) (source : String)
    (c : Context Builtin) :
    i.evaluate (Builtin.commandSet files) source c =
        Directed.evaluateText i (Builtin.commandSet files) source c ∧
      i.evaluate (Builtin.commandSet files) source (c.under own) =
        ((i.evaluate (Builtin.commandSet files) source c).1,
          (i.evaluate (Builtin.commandSet files) source c).2.under own) ∧
      (i.evaluate (Builtin.commandSet files) source c).2.interpreter = c.interpreter := by
  -- the last two hold as settings are lent and taken back; that nothing on the way looks at others
  -- is the first
  refine ⟨?_, rfl, rfl⟩
  exact Directed.evaluate_eq_evaluateText (Builtin.keeps_governed files i) source c

end Interpreter

end CommandShell
