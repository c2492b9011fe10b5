/-
# CommandShell.Proofs.Evaluation.Accounts -- what becomes of the commands of a node

The walk around a node says for every command of the node what becomes of it: it is called, with the
values gathered for it and in the context as it then stands; or it is given up, because something
right inside it failed or because it may not go deeper; or it is skipped. The account has the
commands from the inside out and from left to right, each of them once. It is exact about what is
skipped: behind a command that asks to leave nothing is called any more, and a command is skipped
only behind such a command, inside a command that is given up, or behind a failure that no command
is around.
-/
import CommandShell.Proofs.Evaluation.Walk

namespace CommandShell

open CommandShell.Action

variable {κ : Type}

/-! ## The commands of a node -/

mutual

/-- The commands of a node: those inside a command before it, from left to right. -/
def Node.postorder : Node → List Node
  | .literal _ => []
  | .flag _ => []
  | .variable _ => []
  | .interpolated parts => Part.postorderAll parts
  | .command name arguments flags =>
    Node.postorderAll arguments ++ [.command name arguments flags]

/-- The commands of nodes, from left to right. -/
def Node.postorderAll : List Node → List Node
  | [] => []
  | n :: rest => n.postorder ++ Node.postorderAll rest

/-- The commands of the parts of a string, from left to right. -/
def Part.postorderAll : List Part → List Node
  | [] => []
  | .text _ :: rest => Part.postorderAll rest
  | .node n :: rest => n.postorder ++ Part.postorderAll rest

end

/-- The command that a move finishes. -/
def Move.command? : Move → Option Node
  | .finish (.command name arguments flags) => some (.command name arguments flags)
  | _ => none

mutual

/-- A walk finishes the commands of a node in their order. -/
theorem Node.commands_tour : ∀ n : Node, n.tour.filterMap Move.command? = n.postorder
  | .literal l => by
      rw [Node.tour, Node.postorder]
      rfl
  | .flag f => by
      rw [Node.tour, Node.postorder]
      rfl
  | .variable name => by
      rw [Node.tour, Node.postorder]
      rfl
  | .interpolated parts => by
      rw [Node.tour, Node.postorder, List.filterMap_cons_none rfl, List.filterMap_append,
        Part.commands_tourAll parts]
      exact List.append_nil _
  | .command name arguments flags => by
      rw [Node.tour, Node.postorder, List.filterMap_cons_none rfl, List.filterMap_append,
        Node.commands_tourAll arguments]
      rfl

theorem Node.commands_tourAll :
    ∀ ns : List Node, (Node.tourAll ns).filterMap Move.command? = Node.postorderAll ns
  | [] => by
      rw [Node.tourAll, Node.postorderAll]
      rfl
  | n :: rest => by
      rw [Node.tourAll, Node.postorderAll, List.filterMap_append, Node.commands_tour n,
        Node.commands_tourAll rest]

theorem Part.commands_tourAll :
    ∀ ps : List Part, (Part.tourAll ps).filterMap Move.command? = Part.postorderAll ps
  | [] => by
      rw [Part.tourAll, Part.postorderAll]
      rfl
  | .text s :: rest => by
      rw [Part.tourAll, Part.tour, Part.postorderAll, ← Part.commands_tourAll rest]
      rfl
  | .node n :: rest => by
      rw [Part.tourAll, Part.tour, Part.postorderAll, List.filterMap_append, Node.commands_tour n,
        Part.commands_tourAll rest]

end

/-! ## What becomes of them -/

/-- What becomes of a command. -/
inductive Fate where
  /-- It is called with the given values, and answers. -/
  | called (values : List Value) (answer : Except Error (Flow Value))
  /-- It fails before it is called. -/
  | givenUp (e : Error)
  /-- It is not reached. -/
  | skipped

/-- A command and what becomes of it. -/
structure Account where
  node : Node
  fate : Fate

/-- A call of a command: its name, its arguments and its flags. -/
abbrev Invocation : Type := String × List Value × List Flag

/-- The call of a command, if it is called. -/
def Account.call? : Account → Option Invocation
  | ⟨.command name _ flags, .called values _⟩ => some (name, values, flags)
  | _ => none

namespace Walk

variable (dispatch : Dispatch κ)

/-- What becomes of the command that is finished next. -/
def fate (w : Walk κ) (name : String) (flags : List Flag) : Fate :=
  match w.mode, w.pending with
  | .walking, .command values :: _ => .called values (dispatch name values flags w.context).1
  | .passing e 0, _ => .givenUp e
  | _, _ => .skipped

/-- The account of the command that a move finishes. -/
def account? (w : Walk κ) : Move → Option Account
  | .finish (.command name arguments flags) =>
    some ⟨.command name arguments flags, w.fate dispatch name flags⟩
  | _ => none

theorem account?_eq_some {w : Walk κ} {m : Move} {x : Account}
    (h : w.account? dispatch m = some x) : ∃ name arguments flags,
      m = .finish (.command name arguments flags) ∧
      x = ⟨.command name arguments flags, w.fate dispatch name flags⟩ := by
  cases m with
  | finish n =>
    cases n with
    | command name arguments flags => exact ⟨name, arguments, flags, rfl, (Option.some.inj h).symm⟩
    | _ => cases h
  | _ => cases h

/-- The accounts of the commands that are finished, in order. -/
def accounts : List Move → Walk κ → List Account
  | [], _ => []
  | m :: rest, w => (w.account? dispatch m).toList ++ accounts rest (w.step dispatch m)

/-- Every command that is finished is accounted for. -/
theorem accounts_nodes (moves : List Move) (w : Walk κ) :
    (accounts dispatch moves w).map Account.node = moves.filterMap Move.command? := by
  induction moves generalizing w with
  | nil => rfl
  | cons m rest ih =>
    have hmove : (w.account? dispatch m).toList.map Account.node = m.command?.toList := by
      cases m with
      | finish n => cases n <;> rfl
      | _ => rfl
    rw [accounts, List.map_append, hmove, ih]
    cases hcommand : m.command? with
    | none => rw [List.filterMap_cons_none hcommand]; rfl
    | some n => rw [List.filterMap_cons_some hcommand]; rfl

/-! ## A request to leave -/

theorem run_of_ended (moves : List Move) {w : Walk κ} {result : Except Error (Flow Value)}
    (h : w.mode = .ended result) : run dispatch moves w = w := by
  induction moves with
  | nil => rfl
  | cons m rest ih =>
    have hstep : step dispatch w m = w := by
      rw [step, h]
    rw [run_cons, hstep, ih]

/-- Behind the end of a walk, every command is skipped. -/
theorem accounts_of_ended (moves : List Move) {w : Walk κ} {result : Except Error (Flow Value)}
    (h : w.mode = .ended result) : ∀ x ∈ accounts dispatch moves w, x.fate = .skipped := by
  induction moves with
  | nil => exact fun x hx => (List.not_mem_nil hx).elim
  | cons m rest ih =>
    have hstep : step dispatch w m = w := by
      rw [step, h]
    intro x hx
    rw [accounts, hstep, List.mem_append, Option.mem_toList] at hx
    rcases hx with hx | hx
    · obtain ⟨name, arguments, flags, -, rfl⟩ := account?_eq_some dispatch hx
      show w.fate dispatch name flags = .skipped
      rw [fate, h]
    · exact ih x hx

/-- A command that asks to leave ends the walk. -/
theorem step_of_exit {name : String} {arguments : List Node} {flags : List Flag} {w : Walk κ}
    {values : List Value} {code : Int32}
    (h : w.fate dispatch name flags = .called values (.ok (.exit code))) :
    (step dispatch w (.finish (.command name arguments flags))).mode =
      .ended (.ok (.exit code)) := by
  obtain ⟨c, pending, mode⟩ := w
  unfold fate at h
  split at h
  · next gathered around hmode hpending =>
    obtain rfl : mode = .walking := hmode
    obtain rfl : pending = .command gathered :: around := hpending
    obtain ⟨-, hanswer⟩ := Fate.called.inj h
    show (land _ (dispatch name gathered flags c).1 around _).mode = _
    rw [hanswer]
    rfl
  · cases h
  · cases h

/-- Behind a command that asks to leave, every command is skipped, and the walk ends with the
request. -/
theorem accounts_of_exit {moves : List Move} {w : Walk κ} {before after : List Account}
    {x : Account} (h : accounts dispatch moves w = before ++ x :: after) {values : List Value}
    {code : Int32} (hfate : x.fate = .called values (.ok (.exit code))) :
    (run dispatch moves w).mode = .ended (.ok (.exit code)) ∧ ∀ y ∈ after, y.fate = .skipped := by
  induction moves generalizing w before with
  | nil =>
    rw [accounts] at h
    simp at h
  | cons m rest ih =>
    rw [accounts] at h
    rw [run_cons]
    cases haccount : w.account? dispatch m with
    | none =>
      rw [haccount] at h
      exact ih h
    | some y =>
      rw [haccount] at h
      cases before with
      | cons z before => exact ih (List.cons.inj h).2
      | nil =>
        obtain ⟨rfl, hrest⟩ : y = x ∧ accounts dispatch rest (step dispatch w m) = after :=
          List.cons.inj h
        have hended : (step dispatch w m).mode = .ended (.ok (.exit code)) := by
          obtain ⟨name, arguments, flags, rfl, rfl⟩ := account?_eq_some dispatch haccount
          exact step_of_exit dispatch hfate
        rw [run_of_ended dispatch rest hended, ← hrest]
        exact ⟨hended, accounts_of_ended dispatch rest hended⟩

end Walk

/-! ## Why a command is given up -/

/-- The failures that give up the command around them: a variable that is not set, a stray flag, and
the command itself that may not go deeper. -/
def Error.GivesUp : Error → Prop
  | .unsetVariable _ | .strayFlag _ | .depthExceeded _ => True
  | _ => False

namespace Walk

variable (dispatch : Dispatch κ)

/-- What a walk passes over was given up for such a failure. -/
def Warranted (w : Walk κ) : Prop := ∀ e inner, w.mode = .passing e inner → e.GivesUp

theorem warranted_of_mode {w : Walk κ} (h : ∀ e inner, w.mode ≠ .passing e inner) : w.Warranted :=
  fun e inner hmode => absurd hmode (h e inner)

theorem warranted_deliver (n : Node) (v : Value) (pending : List Pending) (c : Context κ) :
    (deliver n v pending c).Warranted := by
  rcases pending with _ | ⟨_ | _, _⟩ <;> exact warranted_of_mode (fun _ _ h => by cases h)

theorem warranted_failCommand (n : Node) (e : Error) (pending : List Pending) (c : Context κ) :
    (failCommand n e pending c).Warranted := by
  cases pending with
  | nil => exact warranted_of_mode (fun _ _ h => by cases h)
  | cons p around => exact warranted_deliver n .unit (p :: around) _

theorem warranted_giveUp {e : Error} (he : e.GivesUp) (pending : List Pending) (c : Context κ) :
    (giveUp e pending c).Warranted := by
  induction pending with
  | nil => exact warranted_of_mode (fun _ _ h => by cases h)
  | cons p around ih =>
    cases p with
    | string s => exact ih
    | command values =>
      intro e' inner hmode
      cases hmode
      exact he

theorem warranted_land (n : Node) {result : Except Error (Flow Value)}
    (h : n.isCommand = false → ∀ e, result = .error e → e.GivesUp) (pending : List Pending)
    (c : Context κ) : (land n result pending c).Warranted := by
  rcases result with e | ⟨v⟩ | ⟨code⟩
  · cases n with
    | command name arguments flags => exact warranted_failCommand _ e pending c
    | _ => exact warranted_giveUp (h rfl e rfl) pending c
  · exact warranted_deliver n v pending c
  · exact warranted_of_mode (fun _ _ h => by cases h)

theorem givesUp_of_readVariable {name : String} {c : Context κ} {e : Error}
    (h : (readVariable name c).1 = .error e) : e.GivesUp := by
  unfold readVariable at h
  split at h
  · cases h
  · split at h <;> cases h
    trivial

theorem warranted_finish (n : Node) (pending : List Pending) (c : Context κ) :
    (finish dispatch n pending c).Warranted := by
  cases n with
  | literal l => exact warranted_land _ (fun _ _ h => by cases h) pending c
  | flag f => exact warranted_land _ (fun _ _ h => by cases h; trivial) pending c
  | «variable» name => exact warranted_land _ (fun _ _ => givesUp_of_readVariable) pending _
  | interpolated parts =>
    rcases pending with _ | ⟨s | values, around⟩
    · exact warranted_of_mode (fun _ _ h => by cases h)
    · exact warranted_land _ (fun _ _ h => by cases h) around c
    · exact warranted_of_mode (fun _ _ h => by cases h)
  | command name arguments flags =>
    rcases pending with _ | ⟨s | values, around⟩
    · exact warranted_of_mode (fun _ _ h => by cases h)
    · exact warranted_of_mode (fun _ _ h => by cases h)
    · exact warranted_land _ (fun h => by cases h) around _

theorem warranted_step {w : Walk κ} (hw : w.Warranted) (m : Move) :
    (step dispatch w m).Warranted := by
  obtain ⟨c, pending, mode⟩ := w
  cases mode with
  | ended result => exact hw
  | walking =>
    cases m with
    | finish n => exact warranted_finish dispatch n pending c
    | text s =>
      rcases pending with _ | ⟨_ | _, _⟩ <;> exact warranted_of_mode (fun _ _ h => by cases h)
    | enter n =>
      cases n with
      | command name arguments flags =>
        by_cases hdepth : c.depth < c.interpreter.maxDepth
        · rw [step_enter_of_lt _ _ _ _ _ hdepth]
          exact warranted_of_mode (fun _ _ h => by cases h)
        · rw [step_enter_of_not_lt _ _ _ _ _ hdepth]
          intro e inner hmode
          cases hmode
          trivial
      | _ => exact warranted_of_mode (fun _ _ h => by cases h)
  | passing e inner =>
    have he : e.GivesUp := hw e inner rfl
    have hpassing : ∀ k, (⟨c, pending, .passing e k⟩ : Walk κ).Warranted := by
      intro k e' inner' hmode
      cases hmode
      exact he
    cases m with
    | text s => exact hpassing inner
    | enter n => cases n <;> exact hpassing _
    | finish n =>
      cases n with
      | command name arguments flags =>
        cases inner with
        | zero => exact warranted_failCommand _ e pending c
        | succ inner => exact hpassing inner
      | _ => exact hpassing inner

theorem givesUp_of_fate {w : Walk κ} (hw : w.Warranted) {name : String} {flags : List Flag}
    {e : Error} (h : w.fate dispatch name flags = .givenUp e) : e.GivesUp := by
  unfold fate at h
  split at h
  · cases h
  · next hmode =>
    cases h
    exact hw e 0 hmode
  · cases h

/-- A command is given up for one of three failures. -/
theorem givesUp_of_accounts {moves : List Move} {w : Walk κ} (hw : w.Warranted) {x : Account}
    (hx : x ∈ accounts dispatch moves w) {e : Error} (hfate : x.fate = .givenUp e) : e.GivesUp := by
  induction moves generalizing w with
  | nil => cases hx
  | cons m rest ih =>
    rw [accounts, List.mem_append, Option.mem_toList] at hx
    rcases hx with hx | hx
    · obtain ⟨name, arguments, flags, -, rfl⟩ := account?_eq_some dispatch hx
      exact givesUp_of_fate dispatch hw hfate
    · exact ih (warranted_step dispatch hw m) hx

end Walk

/-! ## Why a command is skipped -/

namespace Account

/-- The command is called and asks to leave. -/
def Exits (x : Account) (code : Int32) : Prop :=
  ∃ values, x.fate = .called values (.ok (.exit code))

/-- Between these accounts there is a reason not to reach a command: one before it asks to leave, or
one behind it that it stands in is given up. -/
def Excused (before : List Account) (x : Account) (after : List Account) : Prop :=
  (∃ y ∈ before, ∃ code, y.Exits code) ∨
    ∃ y ∈ after, (∃ e, y.fate = .givenUp e) ∧ x.node ∈ y.node.postorder

/-- There is a reason for every command that is skipped. -/
def AllExcused (l : List Account) : Prop :=
  ∀ before x after, l = before ++ x :: after → x.fate = .skipped → Excused before x after

theorem allExcused_nil : AllExcused [] := by
  intro before x after h
  simp at h

variable {l more : List Account}

theorem Excused.mono {before before' after after' : List Account} {x : Account}
    (h : Excused before x after) (hbefore : before ⊆ before') (hafter : after ⊆ after') :
    Excused before' x after' := by
  rcases h with ⟨y, hy, hexits⟩ | ⟨y, hy, hgivenUp⟩
  · exact .inl ⟨y, hbefore hy, hexits⟩
  · exact .inr ⟨y, hafter hy, hgivenUp⟩

/-- An account of two lists one after the other is one of the first or one of the second. -/
theorem forall_split_append {R : List Account → Account → List Account → Prop}
    (h : ∀ before x after, l = before ++ x :: after → R before x (after ++ more))
    (h' : ∀ before x after, more = before ++ x :: after → R (l ++ before) x after) :
    ∀ before x after, l ++ more = before ++ x :: after → R before x after := by
  intro before x after hsplit
  rcases List.append_eq_append_iff.mp hsplit with ⟨between, rfl, hmore⟩ | ⟨between, hl, hrest⟩
  · exact h' between x after hmore
  · cases between with
    | nil =>
      -- the account is the first of the second list
      rw [List.append_nil] at hl
      subst hl
      simpa using h' [] x after hrest.symm
    | cons y between =>
      obtain ⟨rfl, rfl⟩ := List.cons.inj hrest
      exact h before x between hl

theorem AllExcused.append (h : AllExcused l) (h' : AllExcused more) : AllExcused (l ++ more) := by
  apply forall_split_append
  · exact fun before x after hl hskipped =>
      (h before x after hl hskipped).mono (List.Subset.refl _) (List.subset_append_left _ _)
  · exact fun before x after hmore hskipped =>
      (h' before x after hmore hskipped).mono (List.subset_append_right _ _) (List.Subset.refl _)

/-- Behind a request to leave, there is a reason to skip whatever follows. -/
theorem AllExcused.append_of_exits (h : AllExcused l) {code : Int32}
    (hexits : ∃ y ∈ l, y.Exits code) (more : List Account) : AllExcused (l ++ more) := by
  obtain ⟨y, hy, hexits⟩ := hexits
  apply forall_split_append
  · exact fun before x after hl hskipped =>
      (h before x after hl hskipped).mono (List.Subset.refl _) (List.subset_append_left _ _)
  · exact fun before x after _ _ => .inl ⟨y, List.mem_append_left _ hy, code, hexits⟩

theorem allExcused_singleton {x : Account} (h : x.fate ≠ .skipped) : AllExcused [x] := by
  intro before y after hsplit hskipped
  obtain rfl : y = x := List.mem_singleton.mp (hsplit ▸ by simp)
  exact absurd hskipped h

/-- A command that is given up is the reason to skip whatever is inside it. -/
theorem allExcused_of_givenUp {y : Account} {e : Error} (hy : y.fate = .givenUp e)
    (h : ∀ x ∈ l, x.node ∈ y.node.postorder) : AllExcused (l ++ [y]) := by
  apply forall_split_append
  · intro before x after hl _
    exact .inr ⟨y, by simp, ⟨e, hy⟩, h x (by simp [hl])⟩
  · intro before x after hsplit hskipped
    obtain rfl : x = y := List.mem_singleton.mp (hsplit ▸ by simp)
    rw [hy] at hskipped
    cases hskipped

/-- With this result, nothing is skipped without a reason: a request to leave is among the accounts,
and a failure is a reason for whatever is around. -/
def Explains {α : Type} (l : List Account) : Except Error (Flow α) → Prop
  | .ok (.value _) => AllExcused l
  | .ok (.exit code) => AllExcused l ∧ ∃ x ∈ l, x.Exits code
  | .error _ => True

section Explains

variable {α β : Type}

theorem Explains.seq {result : Except Error (Flow α)} (h : AllExcused l)
    (h' : Explains more result) : Explains (l ++ more) result := by
  rcases result with e | ⟨a⟩ | ⟨code⟩
  · trivial
  · exact h.append h'
  · obtain ⟨hmore, x, hx, hexits⟩ := h'
    exact ⟨h.append hmore, x, List.mem_append_right _ hx, hexits⟩

theorem Explains.append_of_exit {code : Int32}
    (h : Explains l (.ok (.exit code) : Except Error (Flow α))) (more : List Account) :
    Explains (l ++ more) (.ok (.exit code) : Except Error (Flow β)) := by
  obtain ⟨hl, x, hx, hexits⟩ := h
  exact ⟨hl.append_of_exits ⟨x, hx, hexits⟩ more, x, List.mem_append_left _ hx, hexits⟩

/-- What only wraps up a value needs no other reasons. -/
theorem Explains.wrap {x : Action κ (Flow α)} {c : Context κ} (h : Explains l (x c).1)
    (f : α → β) : Explains l (andThen x (fun a => pure (.value (f a))) c).1 := by
  rw [andThen_apply]
  rcases hx : x c with ⟨e | ⟨a⟩ | ⟨code⟩, next⟩ <;> rw [hx] at h <;> exact h

theorem Explains.excused {result : Except Error (Flow α)} (h : Explains l result) :
    AllExcused l ∨ ∃ e, result = .error e := by
  rcases result with e | ⟨a⟩ | ⟨code⟩
  · exact .inr ⟨e, rfl⟩
  · exact .inl h
  · exact .inl h.1

end Explains

end Account

open Account

namespace Walk

variable (dispatch : Dispatch κ)

theorem accounts_append (xs ys : List Move) (w : Walk κ) :
    accounts dispatch (xs ++ ys) w =
      accounts dispatch xs w ++ accounts dispatch ys (run dispatch xs w) := by
  induction xs generalizing w with
  | nil => rfl
  | cons m rest ih => rw [List.cons_append, accounts, accounts, ih, List.append_assoc, run_cons]

/-- A command is accounted for behind those of its arguments. -/
theorem accounts_command (name : String) (arguments : List Node) (flags : List Flag) {w w' : Walk κ}
    (h : step dispatch w (.enter (.command name arguments flags)) = w') :
    accounts dispatch (Node.command name arguments flags).tour w =
      accounts dispatch (Node.tourAll arguments) w' ++ [⟨.command name arguments flags,
        (run dispatch (Node.tourAll arguments) w').fate dispatch name flags⟩] := by
  rw [Node.tour, accounts, h, accounts_append]
  rfl

/-- The arguments of a command are inside it. -/
theorem mem_postorder_of_mem_accounts {name : String} {arguments : List Node} {flags : List Flag}
    {w : Walk κ} {x : Account} (hx : x ∈ accounts dispatch (Node.tourAll arguments) w) :
    x.node ∈ (Node.command name arguments flags).postorder := by
  rw [Node.postorder, ← Node.commands_tourAll, ← accounts_nodes dispatch _ w]
  exact List.mem_append_left _ (List.mem_map_of_mem hx)

mutual

/-- A node gives a reason for each of its commands that is skipped, unless it fails itself; a
command that fails is no failure to what is around it. -/
theorem explains_tour : ∀ (n : Node) (pending : List Pending) (c : Context κ),
    Explains (accounts dispatch n.tour ⟨c, pending, .walking⟩)
      (embedded n (n.evaluate dispatch) c).1
  | .literal l, pending, c => by
      rw [Node.tour, Node.evaluate]
      exact allExcused_nil
  | .flag f, pending, c => by
      rw [Node.tour, Node.evaluate]
      trivial
  | .variable name, pending, c => by
      rw [Node.tour, Node.evaluate]
      show Explains [] (readVariable name c).1
      unfold readVariable
      cases c.valueOf? name with
      | some v => exact allExcused_nil
      | none =>
        cases c.interpreter.lenient with
        | true => exact allExcused_nil
        | false => trivial
  | .interpolated parts, pending, c => by
      rw [Node.tour, evaluate_interpolated]
      have hparts := explains_parts parts "" pending c
      have haccounts : accounts dispatch
          (.enter (.interpolated parts) :: (Part.tourAll parts ++ [.finish (.interpolated parts)]))
          ⟨c, pending, .walking⟩ =
          accounts dispatch (Part.tourAll parts) ⟨c, .string "" :: pending, .walking⟩ := by
        show accounts dispatch (Part.tourAll parts ++ _) ⟨c, .string "" :: pending, .walking⟩ = _
        rw [accounts_append]
        exact List.append_nil _
      rw [haccounts]
      exact hparts.wrap _
  | .command name arguments flags, pending, c => by
      rw [evaluate_command]
      by_cases hdepth : c.depth < c.interpreter.maxDepth
      · have harguments := explains_tourAll arguments [] pending (enter c)
        rw [accounts_command dispatch name arguments flags
            (step_enter_of_lt dispatch _ _ _ pending hdepth),
          run_tourAll dispatch arguments [] pending (enter c)]
        simp only [embedded, contain, nested_of_lt _ hdepth, andThen_apply]
        rcases hresult : Node.evaluateAll dispatch arguments (enter c) with
          ⟨e | ⟨values⟩ | ⟨code⟩, next⟩ <;> rw [hresult] at harguments
        · exact allExcused_of_givenUp rfl (fun x hx => mem_postorder_of_mem_accounts dispatch hx)
        · have hcalled : AllExcused [⟨.command name arguments flags,
              .called values (dispatch name values flags next).1⟩] :=
            allExcused_singleton (fun h => by cases h)
          rcases hanswer : dispatch name values flags next with ⟨e | ⟨v⟩ | ⟨code⟩, last⟩ <;>
            simp only [fate, List.nil_append, hanswer] at hcalled ⊢
          · exact harguments.append hcalled
          · exact harguments.append hcalled
          · exact Explains.seq harguments
              ⟨hcalled, _, List.mem_singleton_self _, values, rfl⟩
        · exact harguments.append_of_exit _
      · rw [accounts_command dispatch name arguments flags
            (step_enter_of_not_lt dispatch _ _ _ pending hdepth),
          run_tourAll_of_halted dispatch arguments (halted_passing _ _ _ _)]
        simp only [embedded, contain, nested_of_not_lt _ hdepth]
        exact allExcused_of_givenUp rfl (fun x hx => mem_postorder_of_mem_accounts dispatch hx)

theorem explains_tourAll : ∀ (ns : List Node) (values : List Value) (around : List Pending)
    (c : Context κ),
    Explains (accounts dispatch (Node.tourAll ns) ⟨c, .command values :: around, .walking⟩)
      (Node.evaluateAll dispatch ns c).1
  | [], values, around, c => by
      rw [Node.tourAll, Node.evaluateAll]
      exact allExcused_nil
  | n :: rest, values, around, c => by
      have hfirst := explains_tour n (.command values :: around) c
      have hrun := run_tour dispatch n (.command values :: around) c
      rw [land_inside] at hrun
      rw [Node.tourAll, accounts_append, evaluateAll_cons, andThen_apply, hrun]
      rcases hresult : embedded n (n.evaluate dispatch) c with ⟨e | ⟨v⟩ | ⟨code⟩, next⟩ <;>
        rw [hresult] at hfirst
      · trivial
      · exact Explains.seq hfirst ((explains_tourAll rest (values ++ [v]) around next).wrap _)
      · exact hfirst.append_of_exit _

theorem explains_parts : ∀ (ps : List Part) (before : String) (around : List Pending)
    (c : Context κ),
    Explains (accounts dispatch (Part.tourAll ps) ⟨c, .string before :: around, .walking⟩)
      (Part.evaluateAll dispatch ps c).1
  | [], before, around, c => by
      rw [Part.tourAll, Part.evaluateAll]
      exact allExcused_nil
  | .text s :: rest, before, around, c => by
      rw [Part.tourAll, Part.tour, evaluateParts_cons, Part.evaluate, pure_andThen]
      exact (explains_parts rest (before ++ s) around c).wrap _
  | .node n :: rest, before, around, c => by
      have hfirst := explains_tour n (.string before :: around) c
      have hrun := run_tour dispatch n (.string before :: around) c
      rw [land_inside] at hrun
      rw [Part.tourAll, Part.tour, accounts_append, evaluateParts_cons, evaluate_part_node,
        andThen_assoc, andThen_apply, hrun]
      rcases hresult : embedded n (n.evaluate dispatch) c with ⟨e | ⟨v⟩ | ⟨code⟩, next⟩ <;>
        rw [hresult] at hfirst
      · trivial
      · exact Explains.seq hfirst
          ((explains_parts rest (before ++ v.text) around (next.note (.substituted n v))).wrap _)
      · exact hfirst.append_of_exit _

end

end Walk

end CommandShell
