/-
# CommandShell.Proofs.Evaluation.Walk -- evaluation as one walk through a node

A node can be written as the list of moves of a walk around it: a string or a command is entered,
what is inside follows from left to right, and it is finished. This module evaluates such a list
move by move, without recursion into the node. All that is kept between two moves is the context,
what was gathered for the strings and commands that are open, and whether the walk goes on:

* a command that asks to leave ends the walk, and everything around it is left at once;
* a variable that is missing, or a stray flag, gives up the nearest command around it, and the walk
  passes over the rest of that command; if there is none, the walk ends;
* a command that may not go deeper is given up with all its arguments;
* a command inside something else that fails counts as having no value, and the walk goes on.

The walk around a node ends with the result of its evaluation and leaves the same context, journal
and all (`run_tour`).
-/
import CommandShell.Proofs.Evaluation.FailureOrigin

namespace CommandShell

open CommandShell.Action

variable {κ : Type}

/-! ## The way around a node -/

/-- A move of a walk. -/
inductive Move where
  /-- A string or a command begins. -/
  | enter (n : Node)
  /-- A text inside a string. -/
  | text (s : String)
  /-- All that is inside the node has been passed. -/
  | finish (n : Node)

mutual

/-- The walk around a node: what is inside it comes before it is finished, from left to right. -/
def Node.tour : Node → List Move
  | .literal l => [.finish (.literal l)]
  | .flag f => [.finish (.flag f)]
  | .variable name => [.finish (.variable name)]
  | .interpolated parts =>
    .enter (.interpolated parts) :: (Part.tourAll parts ++ [.finish (.interpolated parts)])
  | .command name arguments flags =>
    .enter (.command name arguments flags) ::
      (Node.tourAll arguments ++ [.finish (.command name arguments flags)])

/-- The walk around nodes, one after the other. -/
def Node.tourAll : List Node → List Move
  | [] => []
  | n :: rest => n.tour ++ Node.tourAll rest

/-- The walk around the parts of a string, one after the other. -/
def Part.tourAll : List Part → List Move
  | [] => []
  | p :: rest => p.tour ++ Part.tourAll rest

/-- The walk around a part of a string. -/
def Part.tour : Part → List Move
  | .text s => [.text s]
  | .node n => n.tour

end

/-! ## One move after the other -/

/-- What was gathered for something that is open. -/
inductive Pending where
  | string (text : String)
  | command (values : List Value)

/-- Whether a walk goes on. -/
inductive Mode where
  | walking
  /-- A command was given up; so many commands inside it have been entered since. -/
  | passing (e : Error) (inner : Nat)
  | ended (result : Except Error (Flow Value))

/-- Where a walk stands. What is open is given from the inside out. -/
structure Walk (κ : Type) where
  context : Context κ
  pending : List Pending
  mode : Mode

namespace Walk

/-- The value of a node goes to what is around it. -/
def deliver (n : Node) (v : Value) (pending : List Pending) (c : Context κ) : Walk κ :=
  match pending with
  | [] => ⟨c, [], .ended (.ok (.value v))⟩
  | .string s :: around => ⟨c.note (.substituted n v), .string (s ++ v.text) :: around, .walking⟩
  | .command values :: around => ⟨c, .command (values ++ [v]) :: around, .walking⟩

/-- The nearest open command is given up; if there is none, the walk ends. -/
def giveUp (e : Error) : List Pending → Context κ → Walk κ
  | [], c => ⟨c, [], .ended (.error e)⟩
  | .string _ :: around, c => giveUp e around c
  | .command _ :: around, c => ⟨leave c, around, .passing e 0⟩

/-- A command that fails has no value for what is around it. -/
def failCommand (n : Node) (e : Error) (pending : List Pending) (c : Context κ) : Walk κ :=
  match pending with
  | [] => ⟨c, [], .ended (.error e)⟩
  | _ :: _ => deliver n .unit pending ((c.note (.contained n e)).report e)

/-- Leaves all that is open. -/
def leaveAll : List Pending → Context κ → Context κ
  | [], c => c
  | .string _ :: around, c => leaveAll around c
  | .command _ :: around, c => leaveAll around (leave c)

/-- Goes on with the result of a node. -/
def land (n : Node) (result : Except Error (Flow Value)) (pending : List Pending)
    (c : Context κ) : Walk κ :=
  match result with
  | .ok (.value v) => deliver n v pending c
  | .ok (.exit code) => ⟨leaveAll pending c, [], .ended (.ok (.exit code))⟩
  | .error e =>
    match n with
    | .command _ _ _ => failCommand n e pending c
    | _ => giveUp e pending c

/-- Finishes a node. A command is called with what was gathered for it, in the context as it stands,
and left. -/
def finish (dispatch : Dispatch κ) (n : Node) (pending : List Pending) (c : Context κ) : Walk κ :=
  match n, pending with
  | .literal l, _ => land n (.ok (.value (.ofLiteral l))) pending c
  | .flag f, _ => land n (.error (.strayFlag f)) pending c
  | .variable name, _ => land n (readVariable name c).1 pending (readVariable name c).2
  | .interpolated _, .string s :: around => land n (.ok (.value (.string s))) around c
  | .command name _ flags, .command values :: around =>
    land n (dispatch name values flags c).1 around (leave (dispatch name values flags c).2)
  | _, _ => ⟨c, pending, .walking⟩

/-- A move of a walk that goes on. -/
def advance (dispatch : Dispatch κ) (m : Move) (pending : List Pending) (c : Context κ) : Walk κ :=
  match m with
  | .enter (.command _ _ _) =>
    if c.depth < c.interpreter.maxDepth then ⟨enter c, .command [] :: pending, .walking⟩
    else ⟨c.note (.refused c.interpreter.maxDepth), pending,
      .passing (.depthExceeded c.interpreter.maxDepth) 0⟩
  | .enter _ => ⟨c, .string "" :: pending, .walking⟩
  | .text s =>
    match pending with
    | .string before :: around => ⟨c, .string (before ++ s) :: around, .walking⟩
    | _ => ⟨c, pending, .walking⟩
  | .finish n => finish dispatch n pending c

/-- A move that is passed over, up to the end of the command that was given up. -/
def pass (e : Error) (inner : Nat) (m : Move) (pending : List Pending) (c : Context κ) : Walk κ :=
  match m, inner with
  | .enter (.command _ _ _), inner => ⟨c, pending, .passing e (inner + 1)⟩
  | .finish (.command name arguments flags), 0 =>
    failCommand (.command name arguments flags) e pending c
  | .finish (.command _ _ _), inner + 1 => ⟨c, pending, .passing e inner⟩
  | _, inner => ⟨c, pending, .passing e inner⟩

/-- One move of a walk. -/
def step (dispatch : Dispatch κ) (w : Walk κ) (m : Move) : Walk κ :=
  match w.mode with
  | .walking => advance dispatch m w.pending w.context
  | .passing e inner => pass e inner m w.pending w.context
  | .ended _ => w

/-- Moves of a walk, one after the other. -/
def run (dispatch : Dispatch κ) (moves : List Move) (w : Walk κ) : Walk κ :=
  moves.foldl (step dispatch) w

theorem run_append (dispatch : Dispatch κ) (xs ys : List Move) (w : Walk κ) :
    run dispatch (xs ++ ys) w = run dispatch ys (run dispatch xs w) :=
  List.foldl_append

theorem run_cons (dispatch : Dispatch κ) (m : Move) (rest : List Move) (w : Walk κ) :
    run dispatch (m :: rest) w = run dispatch rest (step dispatch w m) := rfl

theorem step_enter_of_lt (dispatch : Dispatch κ) (name : String) (arguments : List Node)
    (flags : List Flag) (pending : List Pending) {c : Context κ}
    (h : c.depth < c.interpreter.maxDepth) :
    step dispatch ⟨c, pending, .walking⟩ (.enter (.command name arguments flags)) =
      ⟨enter c, .command [] :: pending, .walking⟩ :=
  if_pos h

theorem step_enter_of_not_lt (dispatch : Dispatch κ) (name : String) (arguments : List Node)
    (flags : List Flag) (pending : List Pending) {c : Context κ}
    (h : ¬ c.depth < c.interpreter.maxDepth) :
    step dispatch ⟨c, pending, .walking⟩ (.enter (.command name arguments flags)) =
      ⟨c.note (.refused c.interpreter.maxDepth), pending,
        .passing (.depthExceeded c.interpreter.maxDepth) 0⟩ :=
  if_neg h

/-! ## What is passed over -/

/-- The walk is over, or passes over the rest of a command. -/
def Halted (w : Walk κ) : Prop := w.mode ≠ .walking

theorem halted_giveUp (e : Error) (pending : List Pending) (c : Context κ) :
    (giveUp e pending c).Halted := by
  induction pending with
  | nil => simp [giveUp, Halted]
  | cons p around ih =>
    cases p with
    | string s => exact ih
    | command values => simp [giveUp, Halted]

theorem Halted.cases {w : Walk κ} (h : w.Halted) :
    (∃ c pending e inner, w = ⟨c, pending, .passing e inner⟩) ∨
      ∃ c pending result, w = ⟨c, pending, .ended result⟩ := by
  obtain ⟨c, pending, mode⟩ := w
  cases mode with
  | walking => exact absurd rfl h
  | passing e inner => exact .inl ⟨c, pending, e, inner, rfl⟩
  | ended result => exact .inr ⟨c, pending, result, rfl⟩

theorem halted_passing (c : Context κ) (pending : List Pending) (e : Error) (inner : Nat) :
    (⟨c, pending, .passing e inner⟩ : Walk κ).Halted := by
  simp [Halted]

/-- A move that neither enters nor finishes a command. -/
def IsPlain : Move → Prop
  | .enter (.command _ _ _) | .finish (.command _ _ _) => False
  | _ => True

theorem halted_ended (c : Context κ) (pending : List Pending) (result : Except Error (Flow Value)) :
    (⟨c, pending, .ended result⟩ : Walk κ).Halted := by
  simp [Halted]

section Tours

variable (dispatch : Dispatch κ)

theorem step_of_halted (m : Move) (hm : IsPlain m) {w : Walk κ} (h : w.Halted) :
    step dispatch w m = w := by
  rcases h.cases with ⟨c, pending, e, inner, rfl⟩ | ⟨c, pending, result, rfl⟩
  · cases m with
    | text s => rfl
    | enter n =>
      cases n with
      | command name arguments flags => exact hm.elim
      | _ => rfl
    | finish n =>
      cases n with
      | command name arguments flags => exact hm.elim
      | _ => rfl
  · rfl

mutual

/-- A walk that has halted passes over a whole node, and is where it was. -/
theorem run_tour_of_halted : ∀ (n : Node) {w : Walk κ}, w.Halted → run dispatch n.tour w = w
  | .literal l, w, h => by
      rw [Node.tour]
      exact step_of_halted dispatch (.finish (.literal l)) trivial h
  | .flag f, w, h => by
      rw [Node.tour]
      exact step_of_halted dispatch (.finish (.flag f)) trivial h
  | .variable name, w, h => by
      rw [Node.tour]
      exact step_of_halted dispatch (.finish (.variable name)) trivial h
  | .interpolated parts, w, h => by
      rw [Node.tour, run_cons, step_of_halted dispatch (.enter (.interpolated parts)) trivial h,
        run_append, run_parts_of_halted parts h]
      exact step_of_halted dispatch (.finish (.interpolated parts)) trivial h
  | .command name arguments flags, w, h => by
      rw [Node.tour, run_cons, run_append]
      rcases h.cases with ⟨c, pending, e, inner, rfl⟩ | ⟨c, pending, result, rfl⟩
      · -- the command that is passed over is counted in between
        have hinner : run dispatch (Node.tourAll arguments) ⟨c, pending, .passing e (inner + 1)⟩ =
            ⟨c, pending, .passing e (inner + 1)⟩ :=
          run_tourAll_of_halted arguments (halted_passing c pending e (inner + 1))
        exact congrArg (run dispatch [.finish (.command name arguments flags)]) hinner
      · exact congrArg (run dispatch [.finish (.command name arguments flags)])
          (run_tourAll_of_halted arguments h)

theorem run_tourAll_of_halted :
    ∀ (ns : List Node) {w : Walk κ}, w.Halted → run dispatch (Node.tourAll ns) w = w
  | [], w, h => by
      rw [Node.tourAll]
      rfl
  | n :: rest, w, h => by
      rw [Node.tourAll, run_append, run_tour_of_halted n h, run_tourAll_of_halted rest h]

theorem run_parts_of_halted :
    ∀ (ps : List Part) {w : Walk κ}, w.Halted → run dispatch (Part.tourAll ps) w = w
  | [], w, h => by
      rw [Part.tourAll]
      rfl
  | .text s :: rest, w, h => by
      rw [Part.tourAll, Part.tour, List.singleton_append, run_cons,
        step_of_halted dispatch (.text s) trivial h, run_parts_of_halted rest h]
  | .node n :: rest, w, h => by
      rw [Part.tourAll, Part.tour, run_append, run_tour_of_halted n h, run_parts_of_halted rest h]

end

/-! ## The walk around a node evaluates it -/

/-- Inside something else, a command that failed has no value. -/
theorem land_inside (n : Node) (x : Action κ (Flow Value)) (p : Pending) (around : List Pending)
    (c : Context κ) : land n (x c).1 (p :: around) (x c).2 =
      match embedded n x c with
      | (.ok (.value v), next) => deliver n v (p :: around) next
      | (.ok (.exit code), next) =>
        ⟨leaveAll (p :: around) next, [], .ended (.ok (.exit code))⟩
      | (.error e, next) => giveUp e (p :: around) next := by
  cases n with
  | command name arguments flags =>
    simp only [embedded, contain]
    rcases x c with ⟨e | ⟨v⟩ | ⟨code⟩, next⟩ <;> rfl
  | _ =>
    simp only [embedded]
    rcases x c with ⟨e | ⟨v⟩ | ⟨code⟩, next⟩ <;> rfl

mutual

/-- The walk around a node goes on with the result of its evaluation. -/
theorem run_tour : ∀ (n : Node) (pending : List Pending) (c : Context κ),
    run dispatch n.tour ⟨c, pending, .walking⟩ =
      land n (n.evaluate dispatch c).1 pending (n.evaluate dispatch c).2
  | .literal l, pending, c => by
      rw [Node.tour, Node.evaluate]
      rfl
  | .flag f, pending, c => by
      rw [Node.tour, Node.evaluate]
      rfl
  | .variable name, pending, c => by
      rw [Node.tour, Node.evaluate]
      rfl
  | .interpolated parts, pending, c => by
      rw [Node.tour, evaluate_interpolated, run_cons, run_append]
      show run dispatch _ (run dispatch _ ⟨c, .string "" :: pending, .walking⟩) = _
      rw [run_parts parts "" pending c, andThen_apply]
      rcases Part.evaluateAll dispatch parts c with ⟨e | ⟨s⟩ | ⟨code⟩, next⟩
      · exact step_of_halted dispatch (.finish (.interpolated parts)) trivial
          (halted_giveUp e pending next)
      · exact congrArg (fun t => land _ (.ok (.value (.string t))) pending next) String.empty_append
      · rfl
  | .command name arguments flags, pending, c => by
      rw [Node.tour, evaluate_command, run_cons, run_append]
      by_cases hdepth : c.depth < c.interpreter.maxDepth
      · rw [nested_of_lt _ hdepth, step_enter_of_lt _ _ _ _ _ hdepth,
          run_tourAll arguments [] pending (enter c), andThen_apply]
        rcases Node.evaluateAll dispatch arguments (enter c) with ⟨e | ⟨values⟩ | ⟨code⟩, next⟩
        · rfl
        · rfl
        · rfl
      · rw [nested_of_not_lt _ hdepth, step_enter_of_not_lt _ _ _ _ _ hdepth,
          run_tourAll_of_halted dispatch arguments (halted_passing _ _ _ _)]
        rfl

theorem run_tourAll : ∀ (ns : List Node) (values : List Value) (around : List Pending)
    (c : Context κ),
    run dispatch (Node.tourAll ns) ⟨c, .command values :: around, .walking⟩ =
      match Node.evaluateAll dispatch ns c with
      | (.ok (.value more), next) => ⟨next, .command (values ++ more) :: around, .walking⟩
      | (.ok (.exit code), next) =>
        ⟨leaveAll around (leave next), [], .ended (.ok (.exit code))⟩
      | (.error e, next) => ⟨leave next, around, .passing e 0⟩
  | [], values, around, c => by
      rw [Node.tourAll, Node.evaluateAll]
      show (⟨c, .command values :: around, .walking⟩ : Walk κ) =
        ⟨c, .command (values ++ []) :: around, .walking⟩
      rw [List.append_nil]
  | n :: rest, values, around, c => by
      rw [Node.tourAll, evaluateAll_cons, run_append, run_tour n, land_inside, andThen_apply]
      rcases embedded n (n.evaluate dispatch) c with ⟨e | ⟨v⟩ | ⟨code⟩, next⟩
      · exact run_tourAll_of_halted dispatch rest (halted_passing _ _ e 0)
      · refine (run_tourAll rest (values ++ [v]) around next).trans ?_
        simp only [andThen_apply]
        rcases Node.evaluateAll dispatch rest next with ⟨e | ⟨more⟩ | ⟨code⟩, last⟩
        · rfl
        · simp only [List.append_assoc, List.singleton_append]
          rfl
        · rfl
      · exact run_tourAll_of_halted dispatch rest (halted_ended _ _ _)

theorem run_parts : ∀ (ps : List Part) (before : String) (around : List Pending)
    (c : Context κ),
    run dispatch (Part.tourAll ps) ⟨c, .string before :: around, .walking⟩ =
      match Part.evaluateAll dispatch ps c with
      | (.ok (.value more), next) => ⟨next, .string (before ++ more) :: around, .walking⟩
      | (.ok (.exit code), next) => ⟨leaveAll around next, [], .ended (.ok (.exit code))⟩
      | (.error e, next) => giveUp e around next
  | [], before, around, c => by
      rw [Part.tourAll, Part.evaluateAll]
      show (⟨c, .string before :: around, .walking⟩ : Walk κ) =
        ⟨c, .string (before ++ "") :: around, .walking⟩
      rw [String.append_empty]
  | .text s :: rest, before, around, c => by
      rw [Part.tourAll, Part.tour, List.singleton_append, run_cons, evaluateParts_cons,
        Part.evaluate]
      refine (run_parts rest (before ++ s) around c).trans ?_
      rw [pure_andThen, andThen_apply]
      rcases Part.evaluateAll dispatch rest c with ⟨e | ⟨more⟩ | ⟨code⟩, last⟩
      · rfl
      · simp only [String.append_assoc]
        rfl
      · rfl
  | .node n :: rest, before, around, c => by
      rw [Part.tourAll, Part.tour, run_append, run_tour n, land_inside, evaluateParts_cons,
        evaluate_part_node, andThen_assoc, andThen_apply]
      rcases embedded n (n.evaluate dispatch) c with ⟨e | ⟨v⟩ | ⟨code⟩, next⟩
      · exact run_parts_of_halted dispatch rest (halted_giveUp e around next)
      · refine (run_parts rest (before ++ v.text) around (next.note (.substituted n v))).trans ?_
        have hnoted : ∀ f : String → Action κ (Flow String), andThen (do
            Action.note (.substituted n v)
            pure (.value v.text)) f next = f v.text (next.note (.substituted n v)) := fun _ => rfl
        simp only [hnoted, andThen_apply]
        rcases Part.evaluateAll dispatch rest (next.note (.substituted n v)) with
          ⟨e | ⟨more⟩ | ⟨code⟩, last⟩
        · rfl
        · simp only [String.append_assoc]
          rfl
        · rfl
      · exact run_parts_of_halted dispatch rest (halted_ended _ _ _)

end

/-- Where the walk around a statement starts. -/
def start (c : Context κ) : Walk κ := ⟨c, [], .walking⟩

/-- The walk around a node ends with the result of its evaluation, in the context that this
leaves. -/
theorem run_tour_start (n : Node) (c : Context κ) :
    run dispatch n.tour (start c) =
      ⟨(n.evaluate dispatch c).2, [], .ended (n.evaluate dispatch c).1⟩ := by
  rw [start, run_tour]
  rcases n.evaluate dispatch c with ⟨e | ⟨v⟩ | ⟨code⟩, next⟩
  · cases n <;> rfl
  · rfl
  · rfl

end Tours

end Walk

end CommandShell
