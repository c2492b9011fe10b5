/-
# CommandShell.Proofs.Evaluation.FailureOrigin -- where the error of a node comes from

An error ends what is around it up to the next command, and no further. `Node.Raises` says from
which place a node gets the error it fails with: its own, or one inside it on the way to which there
is no command. `Node.evaluate_error_iff` says that there is no other way to fail.
-/
import CommandShell.Proofs.Evaluation.Completion

namespace CommandShell

open CommandShell.Action

variable {κ α β : Type} {dispatch : Dispatch κ}

/-! ## One action, then another -/

namespace Action

theorem andThen_apply (x : Action κ (Flow α)) (f : α → Action κ (Flow β)) (c : Context κ) :
    andThen x f c = match x c with
      | (.ok (.value a), d) => f a d
      | (.ok (.exit code), d) => (.ok (.exit code), d)
      | (.error e, d) => (.error e, d) := by
  show Action.bind x _ c = _
  unfold Action.bind
  rcases x c with ⟨_ | ⟨_⟩ | ⟨_⟩, d⟩ <;> rfl

theorem andThen_error_iff {x : Action κ (Flow α)} {f : α → Action κ (Flow β)} {c : Context κ}
    {e : Error} : (andThen x f c).1 = .error e ↔
      (x c).1 = .error e ∨ ∃ a d, x c = (.ok (.value a), d) ∧ (f a d).1 = .error e := by
  rw [andThen_apply]
  rcases x c with ⟨_ | ⟨_⟩ | ⟨_⟩, d⟩ <;> simp [and_assoc]

theorem andThen_value_iff {x : Action κ (Flow α)} {f : α → Action κ (Flow β)} {c d : Context κ}
    {b : β} : andThen x f c = (.ok (.value b), d) ↔
      ∃ a next, x c = (.ok (.value a), next) ∧ f a next = (.ok (.value b), d) := by
  rw [andThen_apply]
  rcases x c with ⟨_ | ⟨_⟩ | ⟨_⟩, d⟩ <;> simp [and_assoc]

theorem andThen_assoc {γ : Type} (x : Action κ (Flow α)) (f : α → Action κ (Flow β))
    (g : β → Action κ (Flow γ)) :
    andThen (andThen x f) g = andThen x (fun a => andThen (f a) g) := by
  funext c
  rw [andThen_apply, andThen_apply, andThen_apply]
  rcases x c with ⟨_ | ⟨a⟩ | ⟨_⟩, d⟩
  · rfl
  · exact (andThen_apply (f a) g d).symm
  · rfl

theorem pure_andThen (a : α) (f : α → Action κ (Flow β)) :
    andThen (pure (.value a)) f = f a := rfl

/-- What only wraps up a value fails no more than what it wraps up. -/
theorem andThen_pure_error_iff {x : Action κ (Flow α)} {f : α → β} {c : Context κ} {e : Error} :
    (andThen x (fun a => pure (.value (f a))) c).1 = .error e ↔ (x c).1 = .error e := by
  rw [andThen_error_iff, or_iff_left]
  rintro ⟨a, d, -, h⟩
  cases h

end Action

/-! ## Places one after the other -/

namespace Place

/-- The places one after the other, up to a failure or a request to leave. -/
def evaluateAll : List (Place κ α) → Action κ (Flow (List α))
  | [] => pure (.value [])
  | p :: rest => andThen p.action (fun a =>
      andThen (evaluateAll rest) (fun more => pure (.value (a :: more))))

/-- Places fail with the error of the first one that fails, if those before it end with values. -/
theorem evaluateAll_error_iff {ι : Type} {place : ι → Place κ α} {xs : List ι} {c : Context κ}
    {e : Error} : (evaluateAll (xs.map place) c).1 = .error e ↔
      ∃ (k : Nat) (x : ι) (values : List α) (d : Context κ), xs[k]? = some x ∧
        evaluateAll ((xs.take k).map place) c = (.ok (.value values), d) ∧
        ((place x).action d).1 = .error e := by
  induction xs generalizing c with
  | nil => simp [evaluateAll, pure, Action.pure]
  | cons x rest ih =>
    have hcons : (evaluateAll ((x :: rest).map place) c).1 = .error e ↔
        ((place x).action c).1 = .error e ∨ ∃ a d, (place x).action c = (.ok (.value a), d) ∧
          (evaluateAll (rest.map place) d).1 = .error e := by
      rw [List.map_cons, evaluateAll, andThen_error_iff]
      simp only [andThen_pure_error_iff]
    rw [hcons]
    constructor
    -- the first place fails, or the one that does is counted from the second
    · rintro (h | ⟨a, d, hx, h⟩)
      · exact ⟨0, x, [], c, rfl, rfl, h⟩
      · obtain ⟨k, y, values, next, hy, hbefore, h⟩ := ih.mp h
        refine ⟨k + 1, y, a :: values, next, hy, ?_, h⟩
        rw [List.take_succ_cons, List.map_cons, evaluateAll, andThen_value_iff]
        exact ⟨a, d, hx, andThen_value_iff.mpr ⟨values, next, hbefore, rfl⟩⟩
    · rintro ⟨k, y, values, next, hy, hbefore, h⟩
      cases k with
      | zero =>
        cases hy
        cases hbefore
        exact .inl h
      | succ k =>
        rw [List.take_succ_cons, List.map_cons, evaluateAll, andThen_value_iff] at hbefore
        obtain ⟨a, d, hx, hbefore⟩ := hbefore
        obtain ⟨values', next', hbefore, heq⟩ := andThen_value_iff.mp hbefore
        cases heq
        exact .inr ⟨a, d, hx, ih.mpr ⟨k, y, values', next, hy, hbefore, h⟩⟩

end Place

section Places

variable (dispatch)

theorem evaluateAll_eq_places (ns : List Node) :
    Node.evaluateAll dispatch ns = Place.evaluateAll (ns.map (Place.ofArgument dispatch)) := by
  induction ns with
  | nil => rw [Node.evaluateAll, List.map_nil, Place.evaluateAll]
  | cons n rest ih =>
    rw [evaluateAll_cons, ih, List.map_cons, Place.evaluateAll]
    rfl

theorem Place.action_ofPart (p : Part) : (ofPart dispatch p).action = p.evaluate dispatch := by
  cases p <;> rfl

/-- A string is put together from the texts of its parts. -/
theorem evaluateParts_eq_places (ps : List Part) :
    Part.evaluateAll dispatch ps = andThen (Place.evaluateAll (ps.map (Place.ofPart dispatch)))
      (fun texts => pure (.value (texts.foldr (· ++ ·) ""))) := by
  induction ps with
  | nil =>
    rw [Part.evaluateAll, List.map_nil, Place.evaluateAll, pure_andThen]
    rfl
  | cons p rest ih =>
    rw [evaluateParts_cons, ih, List.map_cons, Place.evaluateAll, Place.action_ofPart]
    simp only [andThen_assoc, pure_andThen, List.foldr_cons]

theorem evaluateParts_value_iff {ps : List Part} {c d : Context κ} :
    (∃ s, Part.evaluateAll dispatch ps c = (.ok (.value s), d)) ↔
      ∃ texts, Place.evaluateAll (ps.map (Place.ofPart dispatch)) c = (.ok (.value texts), d) := by
  rw [evaluateParts_eq_places]
  constructor
  · rintro ⟨s, h⟩
    obtain ⟨texts, next, htexts, heq⟩ := andThen_value_iff.mp h
    cases heq
    exact ⟨texts, htexts⟩
  · rintro ⟨texts, h⟩
    exact ⟨_, andThen_value_iff.mpr ⟨texts, d, h, rfl⟩⟩

end Places

/-! ## Where an error comes from -/

/-- The failure of an embedded node is one of a node that is no command. -/
theorem embedded_error_iff {n : Node} {x : Action κ (Flow Value)} {c : Context κ} {e : Error} :
    (embedded n x c).1 = .error e ↔ n.isCommand = false ∧ (x c).1 = .error e := by
  cases n with
  | command name arguments flags =>
    simp only [embedded, contain, Node.isCommand]
    rcases x c with ⟨_ | _, d⟩ <;> simp
  | _ => simp [embedded, Node.isCommand]

theorem evaluate_part_error_iff {n : Node} {c : Context κ} {e : Error} :
    ((Part.node n).evaluate dispatch c).1 = .error e ↔
      n.isCommand = false ∧ (n.evaluate dispatch c).1 = .error e := by
  rw [evaluate_part_node, andThen_error_iff, embedded_error_iff, or_iff_left]
  rintro ⟨v, d, -, h⟩
  cases h

namespace Node

/-- Whether evaluation of a node gets to one of its places, and in which context. -/
def Reaches (dispatch : Dispatch κ) (k : Nat) (d : Context κ) : Node → Context κ → Prop
  | .command _ arguments _, c => c.depth < c.interpreter.maxDepth ∧
    ∃ values, Node.evaluateAll dispatch (arguments.take k) (enter c) = (.ok (.value values), d)
  | .interpolated parts, c =>
    ∃ s, Part.evaluateAll dispatch (parts.take k) c = (.ok (.value s), d)
  | _, _ => False

/-- Whether a node gets an error from a place inside it: a node stands there that is no command. -/
def FailsInside (dispatch : Dispatch κ) (n : Node) (c : Context κ) (e : Error) : Prop :=
  ∃ (k : Nat) (m : Node) (d : Context κ), n.Reaches dispatch k d c ∧
    n.inside[k]? = some (some m) ∧ m.isCommand = false ∧ (m.evaluate dispatch d).1 = .error e

theorem evaluateAll_error_iff (name : String) {arguments : List Node} (flags : List Flag)
    {c : Context κ} {e : Error} (h : c.depth < c.interpreter.maxDepth) :
    (Node.evaluateAll dispatch arguments (enter c)).1 = .error e ↔
      (Node.command name arguments flags).FailsInside dispatch c e := by
  rw [evaluateAll_eq_places, Place.evaluateAll_error_iff]
  constructor
  · rintro ⟨k, m, values, d, hm, hbefore, herror⟩
    rw [← evaluateAll_eq_places] at hbefore
    obtain ⟨hcommand, herror⟩ := embedded_error_iff.mp herror
    refine ⟨k, m, d, ⟨h, values, hbefore⟩, ?_, hcommand, herror⟩
    rw [Node.inside, List.getElem?_map, hm]
    rfl
  · rintro ⟨k, m, d, ⟨-, values, hbefore⟩, hm, hcommand, herror⟩
    rw [Node.inside, List.getElem?_map] at hm
    obtain ⟨m', hm', heq⟩ := Option.map_eq_some_iff.mp hm
    cases heq
    rw [evaluateAll_eq_places] at hbefore
    exact ⟨k, m, values, d, hm', hbefore, embedded_error_iff.mpr ⟨hcommand, herror⟩⟩

theorem evaluate_interpolated_error_iff {parts : List Part} {c : Context κ} {e : Error} :
    ((Node.interpolated parts).evaluate dispatch c).1 = .error e ↔
      (Node.interpolated parts).FailsInside dispatch c e := by
  rw [evaluate_interpolated, andThen_pure_error_iff, evaluateParts_eq_places,
    andThen_pure_error_iff, Place.evaluateAll_error_iff]
  constructor
  · rintro ⟨k, part, texts, d, hpart, hbefore, herror⟩
    have hreaches := (evaluateParts_value_iff dispatch).mpr ⟨texts, hbefore⟩
    cases part with
    | text s => cases herror
    | node m =>
      obtain ⟨hcommand, herror⟩ := evaluate_part_error_iff.mp herror
      refine ⟨k, m, d, hreaches, ?_, hcommand, herror⟩
      rw [Node.inside, List.getElem?_map, hpart]
      rfl
  · rintro ⟨k, m, d, hreaches, hm, hcommand, herror⟩
    obtain ⟨texts, hbefore⟩ := (evaluateParts_value_iff dispatch).mp hreaches
    rw [Node.inside, List.getElem?_map] at hm
    obtain ⟨part, hpart, heq⟩ := Option.map_eq_some_iff.mp hm
    cases part with
    | text s => cases heq
    | node m' =>
      cases heq
      exact ⟨k, .node m, texts, d, hpart, hbefore,
        evaluate_part_error_iff.mpr ⟨hcommand, herror⟩⟩

theorem evaluate_command_error_iff {name : String} {arguments : List Node} {flags : List Flag}
    {c : Context κ} {e : Error} (h : c.depth < c.interpreter.maxDepth) :
    ((Node.command name arguments flags).evaluate dispatch c).1 = .error e ↔
      (Node.command name arguments flags).FailsInside dispatch c e ∨
      ∃ values d, Node.evaluateAll dispatch arguments (enter c) = (.ok (.value values), d) ∧
        (dispatch name values flags d).1 = .error e := by
  rw [evaluate_command, nested_of_lt _ h, andThen_error_iff,
    evaluateAll_error_iff name flags h]

/-- An error of a place inside a node is one of the node. -/
theorem FailsInside.evaluate {n : Node} {c : Context κ} {e : Error}
    (h : n.FailsInside dispatch c e) : (n.evaluate dispatch c).1 = .error e := by
  cases n with
  | command name arguments flags =>
    have hdepth : c.depth < c.interpreter.maxDepth := by
      obtain ⟨k, m, d, hreaches, -⟩ := h
      exact hreaches.1
    exact (evaluate_command_error_iff hdepth).mpr (.inl h)
  | interpolated parts => exact evaluate_interpolated_error_iff.mpr h
  | _ =>
    obtain ⟨k, m, d, hreaches, -⟩ := h
    exact hreaches.elim

/-- A node gets an error from the end of a path: the error is its own, or that of a node inside it
which is no command. -/
inductive Raises (dispatch : Dispatch κ) : Node → Context κ → List Nat → Error → Prop
  | flag (f : Flag) (c : Context κ) : Raises dispatch (.flag f) c [] (.strayFlag f)
  | unset {name : String} {c : Context κ} : c.valueOf? name = none →
      c.interpreter.lenient = false → Raises dispatch (.variable name) c [] (.unsetVariable name)
  | depth {name : String} {arguments : List Node} {flags : List Flag} {c : Context κ} :
      c.interpreter.maxDepth ≤ c.depth →
        Raises dispatch (.command name arguments flags) c [] (.depthExceeded c.interpreter.maxDepth)
  | call {name : String} {arguments : List Node} {flags : List Flag} {c d : Context κ}
      {values : List Value} {e : Error} : c.depth < c.interpreter.maxDepth →
        Node.evaluateAll dispatch arguments (enter c) = (.ok (.value values), d) →
          (dispatch name values flags d).1 = .error e →
            Raises dispatch (.command name arguments flags) c [] e
  | inside {n m : Node} {c d : Context κ} {k : Nat} {path : List Nat} {e : Error} :
      n.Reaches dispatch k d c → n.inside[k]? = some (some m) → m.isCommand = false →
        Raises dispatch m d path e → Raises dispatch n c (k :: path) e

/-- An error that comes from inside is raised there, if all errors inside are raised. -/
theorem FailsInside.raises {n : Node} {c : Context κ} {e : Error}
    (h : n.FailsInside dispatch c e)
    (hinside : ∀ m, some m ∈ n.inside → ∀ d, (m.evaluate dispatch d).1 = .error e →
      ∃ path, m.Raises dispatch d path e) : ∃ path, n.Raises dispatch c path e := by
  obtain ⟨k, m, d, hreaches, hm, hcommand, herror⟩ := h
  obtain ⟨path, hraises⟩ := hinside m (List.mem_of_getElem? hm) d herror
  exact ⟨k :: path, .inside hreaches hm hcommand hraises⟩

/-- A node that fails raises its error or gets it from inside, by induction on what stands there. -/
theorem exists_raises {n : Node} {c : Context κ} {e : Error}
    (h : (n.evaluate dispatch c).1 = .error e) : ∃ path, n.Raises dispatch c path e := by
  induction n using inside_induction generalizing c with
  | step n ih =>
    cases n with
    | literal l =>
      rw [Node.evaluate] at h
      cases h
    | flag f =>
      rw [Node.evaluate] at h
      cases h
      exact ⟨[], .flag f c⟩
    | «variable» name =>
      rw [Node.evaluate, readVariable] at h
      split at h
      · cases h
      · next hnone =>
        split at h
        · cases h
        · next hstrict =>
          cases h
          exact ⟨[], .unset hnone (Bool.eq_false_iff.mpr hstrict)⟩
    | interpolated parts =>
      exact (evaluate_interpolated_error_iff.mp h).raises (fun m hm d => ih m hm)
    | command name arguments flags =>
      -- without a level left the command is refused before its arguments are looked at
      by_cases hdepth : c.depth < c.interpreter.maxDepth
      · rcases (evaluate_command_error_iff hdepth).mp h with hinside | ⟨values, d, hvalues, hcall⟩
        · exact hinside.raises (fun m hm d => ih m hm)
        · exact ⟨[], .call hdepth hvalues hcall⟩
      · rw [evaluate_command, nested_of_not_lt _ hdepth] at h
        cases h
        exact ⟨[], .depth (Nat.not_lt.mp hdepth)⟩

/-- An error that is raised is what the node fails with, by induction on where it comes from. -/
theorem Raises.evaluate {n : Node} {c : Context κ} {path : List Nat} {e : Error}
    (h : n.Raises dispatch c path e) : (n.evaluate dispatch c).1 = .error e := by
  induction h with
  | flag f c =>
    rw [Node.evaluate]
    rfl
  | unset hnone hstrict =>
    rw [Node.evaluate, readVariable, hnone, hstrict]
    rfl
  | depth hdepth =>
    rw [evaluate_command, nested_of_not_lt _ (Nat.not_lt.mpr hdepth)]
    rfl
  | call hdepth hvalues hcall =>
    exact (evaluate_command_error_iff hdepth).mpr (.inr ⟨_, _, hvalues, hcall⟩)
  | inside hreaches hm hcommand _ ih =>
    exact FailsInside.evaluate ⟨_, _, _, hreaches, hm, hcommand, ih⟩

/-- A node fails with the errors that it raises or gets from inside, and with no others. -/
theorem evaluate_error_iff {n : Node} {c : Context κ} {e : Error} :
    (n.evaluate dispatch c).1 = .error e ↔ ∃ path, n.Raises dispatch c path e :=
  ⟨exists_raises, fun ⟨_, h⟩ => h.evaluate⟩

/-- Below the node that fails there is no command on the way to where the error comes from. -/
theorem Raises.no_command {n : Node} {c : Context κ} {path : List Nat} {e : Error}
    (h : n.Raises dispatch c path e) {start : List Nat} (hstart : start <+: path)
    (hne : start ≠ []) : ∃ m, n.at? start = some m ∧ m.isCommand = false := by
  induction h generalizing start with
  | inside _ hm hcommand _ ih =>
    cases start with
    | nil => exact absurd rfl hne
    | cons k rest =>
      obtain ⟨rfl, hrest⟩ := List.cons_prefix_cons.mp hstart
      rw [at?_cons hm]
      cases rest with
      | nil => exact ⟨_, rfl, hcommand⟩
      | cons j rest => exact ih hrest (List.cons_ne_nil j rest)
  | _ => exact absurd (List.prefix_nil.mp hstart) hne

end Node

end CommandShell
