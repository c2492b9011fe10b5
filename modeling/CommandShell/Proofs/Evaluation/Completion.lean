/-
# CommandShell.Proofs.Evaluation.Completion -- which nodes complete while a node is evaluated

While a node is evaluated the nodes inside it complete one after the other, each with a value, a
request to leave or an error. `Node.completions` lists them in this order, with the path to where
each one stands. Every completion names the node at its place, and no place completes twice.
-/
import CommandShell.Proofs.Evaluation.Closure
import CommandShell.Proofs.Program.Places

namespace CommandShell

open CommandShell.Action

variable {κ α β : Type}

/-! ## Completions -/

/-- A node inside another one has been evaluated: where it stands, and its result. -/
structure Completion where
  path : List Nat
  node : Node
  result : Except Error (Flow Value)

namespace Completion

/-- A completion, seen from the node around it. -/
def within (k : Nat) (x : Completion) : Completion := { x with path := k :: x.path }

/-- The error with which a command completed. -/
def failure? (x : Completion) : Option Error :=
  match x.node, x.result with
  | .command _ _ _, .error e => some e
  | _, _ => none

/-- The errors with which commands completed. -/
def failures (xs : List Completion) : List Error := xs.filterMap failure?

end Completion

/-- What follows an action in the context it leaves; nothing, if it ends without a value. -/
def Action.onward (x : Action κ (Flow α)) (next : Context κ → List β) (c : Context κ) : List β :=
  match x c with
  | (.ok (.value _), d) => next d
  | _ => []

/-- A place inside a node: what completes there, and what is done there. -/
structure Place (κ α : Type) where
  completions : Context κ → List Completion
  action : Action κ (Flow α)

namespace Place

/-- What completes in places one after the other, of which the first has the given number. -/
def completionsFrom (k : Nat) : List (Place κ α) → Context κ → List Completion
  | [], _ => []
  | p :: rest, c =>
    (p.completions c).map (·.within k) ++ p.action.onward (completionsFrom (k + 1) rest) c

end Place

mutual

/-- The nodes inside a node that complete while it is evaluated, in order of completion: a node
stands behind those inside it and before those to its right. -/
def Node.completions (dispatch : Dispatch κ) : Node → Context κ → List Completion
  | .command _ arguments _, c =>
    if c.depth < c.interpreter.maxDepth then
      Place.completionsFrom 0 (Node.argumentPlaces dispatch arguments) (enter c)
    else []
  | .interpolated parts, c => Place.completionsFrom 0 (Part.places dispatch parts) c
  | _, _ => []

/-- The places of arguments. -/
def Node.argumentPlaces (dispatch : Dispatch κ) : List Node → List (Place κ Value)
  | [] => []
  | n :: rest =>
    ⟨fun c => n.completions dispatch c ++ [⟨[], n, (n.evaluate dispatch c).1⟩],
      embedded n (n.evaluate dispatch)⟩ :: Node.argumentPlaces dispatch rest

/-- The places of the parts of a string. -/
def Part.places (dispatch : Dispatch κ) : List Part → List (Place κ String)
  | [] => []
  | .text s :: rest => ⟨fun _ => [], (Part.text s).evaluate dispatch⟩ :: Part.places dispatch rest
  | .node n :: rest =>
    ⟨fun c => n.completions dispatch c ++ [⟨[], n, (n.evaluate dispatch c).1⟩],
      (Part.node n).evaluate dispatch⟩ :: Part.places dispatch rest

end

variable {dispatch : Dispatch κ}

/-- The nodes that complete when a node inside another one is evaluated: itself last. -/
def Node.completed (dispatch : Dispatch κ) (n : Node) (c : Context κ) : List Completion :=
  n.completions dispatch c ++ [⟨[], n, (n.evaluate dispatch c).1⟩]

namespace Place

variable (dispatch)

/-- The place of an argument. -/
def ofArgument (n : Node) : Place κ Value :=
  ⟨n.completed dispatch, embedded n (n.evaluate dispatch)⟩

/-- The place of a part of a string. -/
def ofPart : Part → Place κ String
  | .text s => ⟨fun _ => [], (Part.text s).evaluate dispatch⟩
  | .node n => ⟨n.completed dispatch, (Part.node n).evaluate dispatch⟩

theorem argumentPlaces_eq_map (ns : List Node) :
    Node.argumentPlaces dispatch ns = ns.map (ofArgument dispatch) := by
  induction ns with
  | nil => rw [Node.argumentPlaces, List.map_nil]
  | cons n rest ih =>
    rw [Node.argumentPlaces, ih]
    rfl

theorem partPlaces_eq_map (ps : List Part) :
    Part.places dispatch ps = ps.map (ofPart dispatch) := by
  induction ps with
  | nil => rw [Part.places, List.map_nil]
  | cons p rest ih =>
    cases p with
    | text s =>
      rw [Part.places, ih]
      rfl
    | node n =>
      rw [Part.places, ih]
      rfl

end Place

/-! ## Where nodes complete -/

theorem Action.mem_onward {x : Action κ (Flow α)} {next : Context κ → List β} {c : Context κ}
    {b : β} (h : b ∈ x.onward next c) : ∃ d, b ∈ next d := by
  unfold onward at h
  split at h
  · exact ⟨_, h⟩
  · exact (List.not_mem_nil h).elim

namespace Place

variable {places : List (Place κ α)}

theorem mem_completionsFrom {k : Nat} {c : Context κ} {x : Completion}
    (hx : x ∈ completionsFrom k places c) :
    ∃ (j : Nat) (p : Place κ α) (d : Context κ) (y : Completion),
      places[j]? = some p ∧ y ∈ p.completions d ∧ x = y.within (k + j) := by
  induction places generalizing k c with
  | nil => exact (List.not_mem_nil hx).elim
  | cons p rest ih =>
    rcases List.mem_append.mp hx with hx | hx
    · obtain ⟨y, hy, rfl⟩ := List.mem_map.mp hx
      exact ⟨0, p, c, y, rfl, hy, rfl⟩
    · obtain ⟨next, hx⟩ := Action.mem_onward hx
      obtain ⟨j, q, d, y, hq, hy, rfl⟩ := ih hx
      exact ⟨j + 1, q, d, y, hq, hy, by rw [Nat.add_assoc, Nat.add_comm 1 j]⟩

/-- Paths differ in their first step if they lead to different places. -/
theorem nodup_completionsFrom
    (h : ∀ p ∈ places, ∀ d, ((p.completions d).map Completion.path).Nodup) (k : Nat)
    (c : Context κ) : ((completionsFrom k places c).map Completion.path).Nodup := by
  induction places generalizing k c with
  | nil => exact List.nodup_nil
  | cons p rest ih =>
    rw [completionsFrom, List.map_append, List.nodup_append]
    refine ⟨?_, ?_, ?_⟩
    · have hpaths : ((p.completions c).map (·.within k)).map Completion.path =
          ((p.completions c).map Completion.path).map (k :: ·) := by
        rw [List.map_map, List.map_map]
        rfl
      rw [hpaths, List.Nodup, List.pairwise_map]
      exact (h p List.mem_cons_self c).imp (fun hne heq => hne (List.cons.inj heq).2)
    · unfold Action.onward
      split
      · exact ih (fun q hq => h q (List.mem_cons_of_mem p hq)) (k + 1) _
      · exact List.nodup_nil
    · intro path hpath other hother
      obtain ⟨x, hx, rfl⟩ := List.mem_map.mp hpath
      obtain ⟨y, -, rfl⟩ := List.mem_map.mp hx
      obtain ⟨x', hx', rfl⟩ := List.mem_map.mp hother
      obtain ⟨next, hx'⟩ := Action.mem_onward hx'
      obtain ⟨j, q, d, y', -, -, rfl⟩ := mem_completionsFrom hx'
      intro heq
      -- the first step of the one path is this place, that of the other a later one
      have hfirst : k = k + 1 + j := (List.cons.inj heq).1
      omega

end Place

namespace Node

/-- What completes inside a node completes at one of its places. -/
theorem mem_completions {n : Node} {c : Context κ} {x : Completion}
    (hx : x ∈ n.completions dispatch c) :
    ∃ (k : Nat) (m : Node) (d : Context κ) (y : Completion),
      n.inside[k]? = some (some m) ∧ y ∈ m.completed dispatch d ∧ x = y.within k := by
  cases n with
  | command name arguments flags =>
    rw [completions] at hx
    split at hx
    · obtain ⟨k, p, d, y, hp, hy, rfl⟩ := Place.mem_completionsFrom hx
      rw [Place.argumentPlaces_eq_map, List.getElem?_map] at hp
      obtain ⟨m, hm, rfl⟩ := Option.map_eq_some_iff.mp hp
      refine ⟨k, m, d, y, ?_, hy, by rw [Nat.zero_add]⟩
      rw [inside, List.getElem?_map, hm]
      rfl
    · exact (List.not_mem_nil hx).elim
  | interpolated parts =>
    rw [completions] at hx
    obtain ⟨k, p, d, y, hp, hy, rfl⟩ := Place.mem_completionsFrom hx
    rw [Place.partPlaces_eq_map, List.getElem?_map] at hp
    obtain ⟨part, hpart, rfl⟩ := Option.map_eq_some_iff.mp hp
    cases part with
    | text s => exact (List.not_mem_nil hy).elim
    | node m =>
      refine ⟨k, m, d, y, ?_, hy, by rw [Nat.zero_add]⟩
      rw [inside, List.getElem?_map, hpart]
      rfl
  | _ =>
    rw [completions] at hx
    · exact (List.not_mem_nil hx).elim
    · intros
      contradiction
    · intros
      contradiction

/-- A completion names the node that stands at the end of its path, which is not the node around
it. -/
theorem completions_at? {n : Node} {c : Context κ} {x : Completion}
    (hx : x ∈ n.completions dispatch c) : x.path ≠ [] ∧ n.at? x.path = some x.node := by
  induction n using inside_induction generalizing c x with
  | step n ih =>
    obtain ⟨k, m, d, y, hm, hy, rfl⟩ := mem_completions hx
    refine ⟨List.cons_ne_nil _ _, (at?_cons hm y.path).trans ?_⟩
    -- it is the node at that place, or one inside it
    rcases List.mem_append.mp hy with hy | hy
    · exact (ih m (List.mem_of_getElem? hm) hy).2
    · rw [List.mem_singleton.mp hy]
      rfl

theorem nodup_completed {n : Node} {c : Context κ}
    (h : ((n.completions dispatch c).map Completion.path).Nodup) :
    ((n.completed dispatch c).map Completion.path).Nodup := by
  rw [completed, List.map_append, List.nodup_append]
  refine ⟨h, List.pairwise_singleton _ _, ?_⟩
  intro path hpath other hother
  obtain ⟨x, hx, rfl⟩ := List.mem_map.mp hpath
  rw [List.mem_singleton.mp hother]
  exact (completions_at? hx).1

/-- No node completes twice. -/
theorem nodup_completions (n : Node) (c : Context κ) :
    ((n.completions dispatch c).map Completion.path).Nodup := by
  induction n using inside_induction generalizing c with
  | step n ih =>
    cases n with
    | command name arguments flags =>
      rw [completions]
      split
      · rw [Place.argumentPlaces_eq_map]
        refine Place.nodup_completionsFrom (fun p hp d => ?_) 0 _
        obtain ⟨m, hm, rfl⟩ := List.mem_map.mp hp
        exact nodup_completed (ih m (List.mem_map_of_mem hm) d)
      · exact List.nodup_nil
    | interpolated parts =>
      rw [completions, Place.partPlaces_eq_map]
      refine Place.nodup_completionsFrom (fun p hp d => ?_) 0 _
      obtain ⟨part, hpart, rfl⟩ := List.mem_map.mp hp
      cases part with
      | text s => exact List.nodup_nil
      | node m => exact nodup_completed (ih m (List.mem_map.mpr ⟨_, hpart, rfl⟩) d)
    | _ =>
      rw [completions]
      · exact List.nodup_nil
      all_goals exact nofun

end Node

end CommandShell
