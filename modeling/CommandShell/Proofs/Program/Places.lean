/-
# CommandShell.Proofs.Program.Places -- the nodes inside a node

A command has its arguments inside it and a string with substitutions has their nodes; a path names
one of them, at any depth. A property holds everywhere in a node if it holds of the nodes at the end
of all paths (`Node.Everywhere`), which is to say that it holds of the node itself and everywhere in
what stands inside it.
-/
import CommandShell.Program.Node

namespace CommandShell

/-! ## Places inside a node -/

namespace Node

/-- Whether a node is a command. -/
def isCommand : Node → Bool
  | .command _ _ _ => true
  | _ => false

/-- What stands inside a node, in order: the arguments of a command or the parts of a string. There
is no node in a part that is text. -/
def inside : Node → List (Option Node)
  | .command _ arguments _ => arguments.map some
  | .interpolated parts => parts.map (fun
      | .text _ => none
      | .node n => some n)
  | _ => []

/-- The node at the end of a path into a node. -/
def at? : Node → List Nat → Option Node
  | n, [] => some n
  | n, k :: path =>
    match n.inside[k]? with
    | some (some m) => m.at? path
    | _ => none

theorem at?_cons {n m : Node} {k : Nat} (h : n.inside[k]? = some (some m)) (path : List Nat) :
    n.at? (k :: path) = m.at? path := by
  rw [at?, h]

theorem sizeOf_lt_of_inside {n m : Node} (h : some m ∈ n.inside) : sizeOf m < sizeOf n := by
  cases n with
  | command name arguments flags =>
    obtain ⟨m', hm, heq⟩ := List.mem_map.mp h
    cases heq
    have hsize := List.sizeOf_lt_of_mem hm
    simp only [command.sizeOf_spec]
    omega
  | interpolated parts =>
    obtain ⟨p, hp, heq⟩ := List.mem_map.mp h
    cases p with
    | text s => cases heq
    | node m' =>
      cases heq
      have hsize := List.sizeOf_lt_of_mem hp
      simp only [Part.node.sizeOf_spec] at hsize
      simp only [interpolated.sizeOf_spec]
      omega
  | _ => exact (List.not_mem_nil h).elim

/-- Induction on what stands inside a node. -/
theorem inside_induction {motive : Node → Prop}
    (step : ∀ n : Node, (∀ m, some m ∈ n.inside → motive m) → motive n) (n : Node) : motive n :=
  step n (fun m hm => have := sizeOf_lt_of_inside hm; inside_induction step m)
termination_by sizeOf n

/-! ## Properties of all nodes inside a node -/

/-- A property of a node and of all nodes inside it, at any depth. -/
def Everywhere (P : Node → Prop) (n : Node) : Prop := ∀ path m, n.at? path = some m → P m

section Everywhere

variable {P Q : Node → Prop} {n : Node}

theorem Everywhere.self (h : n.Everywhere P) : P n := h [] n rfl

theorem Everywhere.mono (h : n.Everywhere P) (hPQ : ∀ m, P m → Q m) : n.Everywhere Q :=
  fun path m hm => hPQ m (h path m hm)

theorem Everywhere.and (hP : n.Everywhere P) (hQ : n.Everywhere Q) :
    n.Everywhere (fun m => P m ∧ Q m) :=
  fun path m hm => ⟨hP path m hm, hQ path m hm⟩

theorem everywhere_iff : n.Everywhere P ↔ P n ∧ ∀ m, some m ∈ n.inside → m.Everywhere P := by
  constructor
  · intro h
    refine ⟨h.self, fun m hm path k hk => ?_⟩
    obtain ⟨i, hi⟩ := List.mem_iff_getElem?.mp hm
    exact h (i :: path) k ((at?_cons hi path).trans hk)
  · rintro ⟨hself, hinside⟩ path k hk
    cases path with
    | nil =>
      cases hk
      exact hself
    | cons i path =>
      rw [at?] at hk
      split at hk
      · next m hm => exact hinside m (List.mem_of_getElem? hm) path k hk
      · cases hk

theorem everywhere_literal {l : Literal} : (Node.literal l).Everywhere P ↔ P (.literal l) := by
  simp [everywhere_iff (n := .literal l), inside]

theorem everywhere_variable {name : String} :
    (Node.variable name).Everywhere P ↔ P (.variable name) := by
  simp [everywhere_iff (n := .variable name), inside]

theorem everywhere_command {name : String} {arguments : List Node} {flags : List Flag} :
    (Node.command name arguments flags).Everywhere P ↔
      P (.command name arguments flags) ∧ ∀ m ∈ arguments, m.Everywhere P := by
  simp [everywhere_iff (n := .command name arguments flags), inside]

theorem some_mem_inside_interpolated {parts : List Part} {m : Node} :
    some m ∈ (Node.interpolated parts).inside ↔ Part.node m ∈ parts := by
  constructor
  · intro h
    obtain ⟨_ | _, hp, heq⟩ := List.mem_map.mp h
    · cases heq
    · cases heq
      exact hp
  · intro h
    exact List.mem_map.mpr ⟨_, h, rfl⟩

theorem everywhere_interpolated {parts : List Part} :
    (Node.interpolated parts).Everywhere P ↔
      P (.interpolated parts) ∧ ∀ m, Part.node m ∈ parts → m.Everywhere P := by
  simp only [everywhere_iff (n := .interpolated parts), some_mem_inside_interpolated]

end Everywhere

end Node

end CommandShell
