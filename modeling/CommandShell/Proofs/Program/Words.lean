/-
# CommandShell.Proofs.Program.Words -- flags and other words, in whatever order

A command takes its words apart into flags and arguments, each in their order. So what it becomes is
the same for all lists of words in which the flags stand in one order and the arguments in one
order, that is for all interleavings of the two (`Node.ofWords_interleaving`).
-/
import CommandShell.Program.Node
import Mathlib.Data.List.Forall2

namespace CommandShell

/-! ## Interleavings -/

/-- The third list has the members of the first and those of the second, both in order. -/
inductive Interleaving {α : Type} : List α → List α → List α → Prop
  | nil : Interleaving [] [] []
  | left {x : α} {xs ys zs : List α} : Interleaving xs ys zs → Interleaving (x :: xs) ys (x :: zs)
  | right {y : α} {xs ys zs : List α} : Interleaving xs ys zs → Interleaving xs (y :: ys) (y :: zs)

theorem exists_forall₂ {α β : Type} {R : α → β → Prop} {xs : List α} (h : ∀ x ∈ xs, ∃ a, R x a) :
    ∃ as, List.Forall₂ R xs as := by
  induction xs with
  | nil => exact ⟨[], .nil⟩
  | cons x xs ih =>
    obtain ⟨a, ha⟩ := h x List.mem_cons_self
    obtain ⟨as, has⟩ := ih (fun y hy => h y (List.mem_cons_of_mem _ hy))
    exact ⟨a :: as, .cons ha has⟩

namespace Interleaving

variable {α β : Type} {xs ys zs : List α}

theorem symm (h : Interleaving xs ys zs) : Interleaving ys xs zs := by
  induction h with
  | nil => exact .nil
  | left _ ih => exact .right ih
  | right _ ih => exact .left ih

theorem append (xs ys : List α) : Interleaving xs ys (xs ++ ys) := by
  induction xs with
  | nil =>
    induction ys with
    | nil => exact .nil
    | cons y ys ih => exact .right ih
  | cons x xs ih => exact .left ih

/-- What drops the members of one list takes those of the other. -/
theorem filterMap_eq (h : Interleaving xs ys zs) {f : α → Option β} (hxs : ∀ x ∈ xs, f x = none) :
    zs.filterMap f = ys.filterMap f := by
  induction h with
  | nil => rfl
  | left _ ih =>
    rw [List.filterMap_cons_none (hxs _ List.mem_cons_self)]
    exact ih (fun x hx => hxs x (List.mem_cons_of_mem _ hx))
  | right _ ih =>
    rw [List.filterMap_cons, List.filterMap_cons, ih hxs]

/-- Lists that are related one by one to two lists are interleaved as these are. -/
theorem exists_of_forall₂ {R : α → β → Prop} (h : Interleaving xs ys zs) {as bs : List β}
    (hxs : List.Forall₂ R xs as) (hys : List.Forall₂ R ys bs) :
    ∃ cs, Interleaving as bs cs ∧ List.Forall₂ R zs cs := by
  induction h generalizing as bs with
  | nil =>
    cases hxs
    cases hys
    exact ⟨[], .nil, .nil⟩
  | left _ ih =>
    cases hxs with
    | cons hx hxs =>
      obtain ⟨cs, hcs, hzs⟩ := ih hxs hys
      exact ⟨_, .left hcs, .cons hx hzs⟩
  | right _ ih =>
    cases hys with
    | cons hy hys =>
      obtain ⟨cs, hcs, hzs⟩ := ih hxs hys
      exact ⟨_, .right hcs, .cons hy hzs⟩

/-- A list that is related one by one to an interleaving is one of two related lists. -/
theorem forall₂_split {R : α → β → Prop} (h : Interleaving xs ys zs) {cs : List β}
    (hzs : List.Forall₂ R zs cs) :
    ∃ as bs, List.Forall₂ R xs as ∧ List.Forall₂ R ys bs ∧ Interleaving as bs cs := by
  induction h generalizing cs with
  | nil =>
    cases hzs
    exact ⟨[], [], .nil, .nil, .nil⟩
  | left _ ih =>
    cases hzs with
    | cons hx hzs =>
      obtain ⟨as, bs, hxs, hys, hcs⟩ := ih hzs
      exact ⟨_, bs, .cons hx hxs, hys, .left hcs⟩
  | right _ ih =>
    cases hzs with
    | cons hy hzs =>
      obtain ⟨as, bs, hxs, hys, hcs⟩ := ih hzs
      exact ⟨as, _, hxs, .cons hy hys, .right hcs⟩

end Interleaving

/-! ## Commands -/

namespace Node

/-- Whether a node is no flag. -/
def IsValue (n : Node) : Prop := ∀ f, n ≠ .flag f

theorem IsValue.unlessFlag? {n : Node} (h : n.IsValue) : n.unlessFlag? = some n := by
  cases n with
  | flag f => exact absurd rfl (h f)
  | _ => rfl

theorem IsValue.asFlag? {n : Node} (h : n.IsValue) : n.asFlag? = none := by
  cases n with
  | flag f => exact absurd rfl (h f)
  | _ => rfl

theorem isValue_ofWords (name : String) (words : List Node) : (ofWords name words).IsValue := nofun

/-- Flags and other words become the flags and the arguments of the command, each in their order. -/
theorem ofWords_interleaving {flags : List Flag} {arguments nodes : List Node}
    (h : Interleaving (flags.map .flag) arguments nodes)
    (harguments : ∀ n ∈ arguments, n.IsValue) (name : String) :
    ofWords name nodes = .command name arguments flags := by
  have hvalues : nodes.filterMap Node.unlessFlag? = arguments := by
    rw [h.filterMap_eq (by simp [Node.unlessFlag?]),
      List.filterMap_congr (fun n hn => (harguments n hn).unlessFlag?), List.filterMap_some]
  have hflags : nodes.filterMap Node.asFlag? = flags := by
    rw [h.symm.filterMap_eq (fun n hn => (harguments n hn).asFlag?), List.filterMap_map]
    exact List.filterMap_some
  rw [ofWords, hvalues, hflags]

end Node

end CommandShell
