/-
# CommandShell.Proofs.Evaluation.Flattening -- the text of nested lists

The text of a list does not tell how its items are nested: it is the texts of its leaves with a
blank between any two, however deep they lie. A leaf may be empty, and it still takes its blank: the
absence of a value is such a leaf, and so is an empty list, which has nothing else to show. So a
list inside of a list can be replaced by its items where there are any, and only there.

Two commands read their arguments as one text, `echo` to return it and `eval` to run it.
-/
import CommandShell.Builtin

namespace CommandShell

namespace Value

/-! ## Leaves -/

mutual

/-- The texts of the leaves of a value, from left to right. -/
def leaves : Value → List String
  | .integer value => [toString value.toInt]
  | .float value => [value.text]
  | .string value => [value]
  | .list [] => [""]
  | .list (v :: rest) => v.leaves ++ leavesOf rest
  | .unit => [""]

/-- The texts of the leaves of values, from left to right. -/
def leavesOf : List Value → List String
  | [] => []
  | v :: rest => v.leaves ++ leavesOf rest

end

theorem leavesOf_append (vs ws : List Value) :
    leavesOf (vs ++ ws) = leavesOf vs ++ leavesOf ws := by
  induction vs with
  | nil => rfl
  | cons v vs ih =>
    rw [List.cons_append, leavesOf, leavesOf, ih, List.append_assoc]

/-- A list with items has their leaves and no other. -/
theorem leaves_list {items : List Value} (h : items ≠ []) :
    (list items).leaves = leavesOf items := by
  cases items with
  | nil => exact absurd rfl h
  | cons v rest => rw [leaves, leavesOf]

theorem leaves_ne_nil : ∀ v : Value, v.leaves ≠ []
  | .integer _ | .float _ | .string _ | .unit => by
      rw [leaves]
      exact List.cons_ne_nil _ _
  | .list [] => by
      rw [leaves]
      exact List.cons_ne_nil _ _
  | .list (v :: rest) => by
      rw [leaves]
      exact List.append_ne_nil_of_left_ne_nil (leaves_ne_nil v) _

theorem leavesOf_ne_nil {vs : List Value} (h : vs ≠ []) : leavesOf vs ≠ [] := by
  rw [← leaves_list h]
  exact leaves_ne_nil _

mutual

theorem text_eq_leaves : ∀ v : Value, v.text = " ".intercalate v.leaves
  | .integer _ | .float _ | .string _ | .unit => by
      rw [text, leaves, String.intercalate_singleton]
  | .list [] => by
      rw [text, leaves, texts, String.intercalate_nil, String.intercalate_singleton]
  | .list (v :: rest) => by
      rw [text, leaves_list (List.cons_ne_nil v rest)]
      exact joined_eq_leavesOf (v :: rest)

/-- Joining twice is joining once: every value has a leaf, so no blank is missing. -/
theorem joined_eq_leavesOf (vs : List Value) :
    " ".intercalate (texts vs) = " ".intercalate (leavesOf vs) := by
  cases vs with
  | nil => rfl
  | cons v rest =>
    cases rest with
    | nil =>
      rw [texts, texts, leavesOf, leavesOf, List.append_nil, String.intercalate_singleton,
        text_eq_leaves v]
    | cons w rest =>
      have hrest := joined_eq_leavesOf (w :: rest)
      have hleaves := leavesOf_ne_nil (List.cons_ne_nil w rest)
      have htexts : texts (w :: rest) ≠ [] := by
        rw [texts]
        exact List.cons_ne_nil _ _
      rw [texts, leavesOf, String.intercalate_cons_of_ne_nil htexts, hrest, text_eq_leaves v,
        String.intercalate_append_of_ne_nil (leaves_ne_nil v) hleaves]

end

/-! ## Items in place of their list -/

/-- The same values, but for one list among them or inside of them, which has items and is replaced
by them. -/
inductive Splices : List Value → List Value → Prop
  | here {items : List Value} (front back : List Value) : items ≠ [] →
      Splices (front ++ .list items :: back) (front ++ items ++ back)
  | inside {items items' : List Value} (front back : List Value) : Splices items items' →
      Splices (front ++ .list items :: back) (front ++ .list items' :: back)

theorem Splices.ne_nil {vs ws : List Value} (h : Splices vs ws) : vs ≠ [] ∧ ws ≠ [] := by
  cases h with
  | here front back hitems => simp [hitems]
  | inside front back _ => simp

theorem Splices.leavesOf_eq {vs ws : List Value} (h : Splices vs ws) :
    leavesOf vs = leavesOf ws := by
  induction h with
  | here front back hitems =>
    rw [leavesOf_append, leavesOf, leaves_list hitems, leavesOf_append, leavesOf_append,
      List.append_assoc]
  | inside front back h ih =>
    obtain ⟨hitems, hitems'⟩ := h.ne_nil
    rw [leavesOf_append, leavesOf_append, leavesOf, leavesOf, leaves_list hitems,
      leaves_list hitems', ih]

-- an empty list has no items that could stand in its place: without it there would be a blank less
example : joined [.string "a", .list [], .string "b"] = "a  b" := by decide

end Value

namespace Builtin

open Value

variable {κ : Type} (files : Files.Tree) (describe : κ → String) (reenter : Reentry κ)

/-- The arguments of `eval` matter only by their joined text. -/
theorem evaluateText_congr {values values' : List Value}
    (h : Value.joined values = Value.joined values') :
    evaluateText reenter values = evaluateText reenter values' := by
  unfold evaluateText
  rw [h]

/-- The text of a value is that of its leaves with blanks in between, and so is the joined text of
arguments. This is what `echo` returns, and `eval` runs it as it would run one string. Neither of
them tells a list that has items, at any depth, from the items in its place. -/
theorem text_of_leaves :
    (∀ v : Value, v.text = " ".intercalate v.leaves) ∧
    (∀ values flags,
      Value.joined values = " ".intercalate (leavesOf values) ∧
      invoke files describe reenter .echo values flags =
        pure (Flow.value (.string (Value.joined values))) ∧
      invoke files describe reenter .eval values flags =
        invoke files describe reenter .eval [.string (Value.joined values)] flags) ∧
    ∀ values values', Splices values values' → ∀ flags,
      Value.joined values = Value.joined values' ∧
      invoke files describe reenter .echo values flags =
        invoke files describe reenter .echo values' flags ∧
      invoke files describe reenter .eval values flags =
        invoke files describe reenter .eval values' flags := by
  have hjoined (values : List Value) : Value.joined values = " ".intercalate (leavesOf values) :=
    joined_eq_leavesOf values
  refine ⟨text_eq_leaves, fun values flags => ⟨hjoined values, rfl, ?_⟩,
    fun values values' h flags => ?_⟩
  · refine evaluateText_congr reenter ?_
    rw [hjoined [_], leavesOf, leavesOf, leaves, List.append_nil, String.intercalate_singleton]
  · have hsame : Value.joined values = Value.joined values' := by
      rw [hjoined, hjoined, h.leavesOf_eq]
    refine ⟨hsame, ?_, evaluateText_congr reenter hsame⟩
    show (pure (.value (.string (Value.joined values))) : Action κ (Flow Value)) =
      pure (.value (.string (Value.joined values')))
    rw [hsame]

/-- Two lists, one in the other, and an empty one that leaves a blank of its own: the text is still
a statement, and running it sets the variable. -/
theorem text_of_leaves_nested :
    let nested := [Value.list [.string "set", .list [.string "a", .list []]], .integer 1]
    let flat := [Value.list [.string "set", .string "a", .list []], .integer 1]
    let shell := commandSet .empty
    let c := (Context.new {} "/").withCommands registry
    Splices nested flat ∧
    invoke .empty description shell.reenter .echo nested [] = pure (.value (.string "set a  1")) ∧
    ((invoke .empty description shell.reenter .eval nested [] c).2.valueOf? "a").map Value.text =
      some "1" := by
  intro nested flat shell c
  have hinner : Splices [.string "set", .list [.string "a", .list []]]
      [.string "set", .string "a", .list []] :=
    .here [.string "set"] [] (List.cons_ne_nil _ _)
  have hsplices : Splices nested flat := .inside [] [.integer 1] hinner
  have htext : Value.joined flat = "set a  1" := by decide
  have hrun : ((invoke .empty description shell.reenter .eval flat [] c).2.valueOf? "a").map
      Value.text = some "1" := by
    decide +kernel
  obtain ⟨-, hall, hsame⟩ := text_of_leaves .empty description shell.reenter
  obtain ⟨-, hecho, -⟩ := hall flat []
  obtain ⟨-, hecho', heval⟩ := hsame nested flat hsplices []
  refine ⟨hsplices, ?_, ?_⟩
  · rw [hecho', hecho, htext]
  · rw [heval, hrun]

end Builtin

end CommandShell
