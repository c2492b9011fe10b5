/-
# CommandShell.Proofs.Program.IntegerLiterals -- integers are read exactly or not at all

Digits with an optional sign, as a statement of their own or as a word of a command, are the literal
of their value if 64 bits can hold it, and otherwise the text is refused. Nothing else can come of
them: they are no float, no shorter number with a rest, and a minus in front of them makes no flag.

Two things around the digits do not depend on them. The scan for nesting passes over them in the
same way whatever they are (`IntegerText.firstExcess_congr`). And the node of a program with an open
word holds the literal always at the same place, so that the program is a function of the value
(`ProgramHole.holds`).

The words meant are those of the text itself. A string between quotes is one word whatever digits
are in it, and its substitutions are texts of their own.
-/
import CommandShell.Proofs.Grammar.Holes
import CommandShell.Proofs.Program.NestingScope
import CommandShell.Proofs.Program.Places
import Mathlib.Algebra.Group.Int.Defs

namespace CommandShell

open Grammar Grammar.Nesting Rule
open Decimal (isDigit)

/-! ## The scan over digits -/

namespace Grammar

namespace Nesting

/-- Characters that are neither parentheses nor dollar signs leave nothing behind. -/
theorem Gauge.after_of_class {p : Char → Bool}
    (hp : p '(' = false ∧ p ')' = false ∧ p '$' = false) {u : List Char} (hne : u ≠ [])
    (hu : ∀ c ∈ u, p c = true) (g : Gauge) : g.after u = ⟨g.depth, false⟩ := by
  obtain ⟨hopen, hclose, hdollar⟩ := hp
  have hstep : ∀ g : Gauge, ∀ c, p c = true → g.step c = ⟨g.depth, false⟩ := by
    intro g c hc
    rw [step, if_neg (ne_of_class hc hopen), if_neg (ne_of_class hc hclose),
      beq_false_of_ne (ne_of_class hc hdollar)]
  induction u generalizing g with
  | nil => exact absurd rfl hne
  | cons c u ih =>
    show (g.step c).after u = _
    rw [hstep g c (hu c List.mem_cons_self)]
    cases u with
    | nil => rfl
    | cons d u => exact ih (List.cons_ne_nil d u) (fun e he => hu e (List.mem_cons_of_mem c he)) _

end Nesting

section Congr

variable {x y : List Char} {value other : Int} (hx : IntegerText x value)
  (hy : IntegerText y other)

theorem IntegerText.all {c : Char} (hx : IntegerText x value) (hc : c ∈ x) :
    (isDigit c || isSign c) = true := by
  obtain ⟨hs, hds⟩ := hx
  rcases List.mem_append.mp hc with hc | hc
  · have hsign : isSign c = true := by
      cases hs with
      | absent => cases hc
      | plus => exact List.mem_singleton.mp hc ▸ rfl
      | minus => exact List.mem_singleton.mp hc ▸ rfl
    rw [hsign, Bool.or_true]
  · rw [hds.all_digits c hc, Bool.true_or]

include hx

theorem IntegerText.after_eq (g : Gauge) : g.after x = ⟨g.depth, false⟩ := by
  obtain ⟨c, more, rfl, -⟩ := hx.head
  exact g.after_of_class (by decide) (List.cons_ne_nil c more) (fun d hd => hx.all hd)

theorem IntegerText.flat : Flat x :=
  flat_of_class (p := fun c => isDigit c || isSign c) rfl rfl (fun _ hc => hx.all hc)

include hy

/-- The scan passes over the text of any integer in the same way. -/
theorem IntegerText.firstExcess_congr {limit : Nat} (l r : List Char) :
    firstExcess limit (l ++ x ++ r) = none ↔ firstExcess limit (l ++ y ++ r) = none := by
  simp only [firstExcess_eq_none_iff, Gauge.peak_append, Gauge.after_append, hx.after_eq,
    hy.after_eq, hx.flat.peak_eq, hy.flat.peak_eq]

end Congr

theorem integerText_zero : IntegerText ['0'] (0 : Int64).toInt :=
  .mk (s := []) .absent (.mk rfl (fun c hc => by cases hc))

/-- Every number in the range of 64 bits is the value of one of them. -/
theorem exists_toInt_eq {value : Int} (h : -2 ^ 63 ≤ value ∧ value < 2 ^ 63) :
    ∃ v : Int64, v.toInt = value :=
  ⟨.ofInt value, Int64.toInt_ofInt_of_le h.1 h.2⟩

theorem int64?_eq_none_iff {value : Int} :
    int64? value = none ↔ value < -2 ^ 63 ∨ 2 ^ 63 ≤ value := by
  have hsmall : Int64.minValue.toInt = -2 ^ 63 := by decide
  have hlarge : Int64.maxValue.toInt = 2 ^ 63 - 1 := by decide
  unfold int64?
  rw [hsmall, hlarge]
  split
  · simp only [reduceCtorEq, false_iff]
    omega
  · simp only [true_iff]
    omega

end Grammar

/-! ## The node of an open word -/

/-- Nodes with an integer in them, always at the same place, that are words and no flags. -/
structure Node.Holds (N : Int64 → Node) (path : List Nat) : Prop where
  unlessFlag : ∀ v, (N v).unlessFlag? = some (N v)
  at_path : ∀ v, (N v).at? path = some (.literal (.integer v))

/-- A word that holds an integer is an argument of its command, at a fixed place. -/
theorem Node.Holds.ofWords {N : Int64 → Node} {path : List Nat} (h : Holds N path) (name : String)
    (before after : List Node) :
    Holds (fun v => .ofWords name (before ++ N v :: after))
      ((before.filterMap unlessFlag?).length :: path) where
  unlessFlag _ := rfl
  at_path v := by
    have harguments : (before ++ N v :: after).filterMap unlessFlag? =
        before.filterMap unlessFlag? ++ N v :: after.filterMap unlessFlag? := by
      rw [List.filterMap_append, List.filterMap_cons_some (h.unlessFlag v)]
    refine (at?_cons ?_ path).trans (h.at_path v)
    show (List.map some ((before ++ N v :: after).filterMap unlessFlag?))[_]? = some (some (N v))
    rw [harguments]
    simp

namespace Reader

variable {f : String → Except ReadError Node}

theorem wordsOf_append_iff {before after : List Argument} {ns : List Node} :
    wordsOf f (before ++ after) = .ok ns ↔
      ∃ as bs, wordsOf f before = .ok as ∧ wordsOf f after = .ok bs ∧ ns = as ++ bs := by
  induction before generalizing ns with
  | nil => simp [wordsOf]
  | cons a before ih =>
    simp only [List.cons_append, wordsOf, bind_eq_ok, ih]
    constructor
    · rintro ⟨n, hn, _, ⟨as, bs, has, hbs, rfl⟩, heq⟩
      cases heq
      exact ⟨n :: as, bs, ⟨n, hn, as, has, rfl⟩, hbs, rfl⟩
    · rintro ⟨_, bs, ⟨n, hn, as, has, heq⟩, hbs, rfl⟩
      cases heq
      exact ⟨n, hn, as ++ bs, ⟨as, bs, has, hbs, rfl⟩, rfl⟩

end Reader

open Reader

namespace Grammar

variable {f : String → Except ReadError Node}

mutual

/-- If a body can be read with one integer in its hole, it can be with any. -/
theorem BodyHole.holds {l r : List Char} {K : Expr → Body} {v : Int64} {n : Node} :
    BodyHole l r K → nodeOf f (K (.integer v)) = .ok n → ∃ N path, Node.Holds N path ∧
      ∀ v, nodeOf f (K (.integer v)) = .ok (N v)
  | .lone h, hn => h.holds hn
  | @BodyHole.word u _ _ _ _ _ before after K _ _ _ _ h _, hn => by
      simp only [nodeOf, bind_eq_ok, wordsOf_append_iff] at hn
      obtain ⟨_, ⟨as, _, has, hword, rfl⟩, -⟩ := hn
      -- the words on both sides do not depend on the integer
      simp only [wordsOf, wordNode, bind_eq_ok] at hword
      obtain ⟨_, hword, bs, hbs, -⟩ := hword
      obtain ⟨N, path, hholds, hN⟩ := h.holds hword
      refine ⟨_, _, hholds.ofWords (String.ofList u) as bs, fun v => ?_⟩
      have hwords : wordsOf f (before ++ .expr (K (.integer v)) :: after) =
          .ok (as ++ N v :: bs) := by
        refine wordsOf_append_iff.mpr ⟨as, N v :: bs, has, ?_, rfl⟩
        rw [wordsOf, wordNode, hN, hbs]
        rfl
      rw [nodeOf, hwords]
      rfl

theorem ExprHole.holds {l r : List Char} {K : Expr → Expr} {v : Int64} {n : Node} :
    ExprHole l r K → exprNode f (K (.integer v)) = .ok n → ∃ N path, Node.Holds N path ∧
      ∀ v, exprNode f (K (.integer v)) = .ok (N v)
  | .here, _ =>
      ⟨fun v => .literal (.integer v), [], ⟨fun _ => rfl, fun _ => rfl⟩, fun _ => rfl⟩
  | .inside _ h _, hn => h.holds hn

end

theorem StatementHole.holds {follow l r : List Char} {K : Expr → Statement}
    {rest : List Statement} {v : Int64} {ns : List Node} (h : StatementHole follow l r K)
    (hns : statementNodes f (K (.integer v) :: rest) = .ok ns) :
    ∃ N path more, Node.Holds N path ∧
      ∀ v, statementNodes f (K (.integer v) :: rest) = .ok (N v :: more) := by
  obtain ⟨-, hbody, -⟩ := h
  simp only [statementNodes, bind_eq_ok] at hns
  obtain ⟨n, hn, more, hmore, -⟩ := hns
  obtain ⟨N, path, hholds, hN⟩ := hbody.holds hn
  refine ⟨N, path, more, hholds, fun v => ?_⟩
  rw [statementNodes, hN, hmore]
  rfl

/-- If a program can be read with one integer in its hole, it can be with any, and its statements
have the integer always at the same place. -/
theorem ProgramHole.holds {l r : List Char} {K : Expr → List Statement} {v : Int64}
    {ns : List Node} (h : ProgramHole l r K) (hns : statementNodes f (K (.integer v)) = .ok ns) :
    ∃ before N path after, Node.Holds N path ∧
      ∀ v, statementNodes f (K (.integer v)) = .ok (before ++ N v :: after) := by
  induction h generalizing ns with
  | last h =>
    obtain ⟨N, path, more, hholds, hN⟩ := h.holds hns
    exact ⟨[], N, path, more, hholds, hN⟩
  | next h _ _ =>
    obtain ⟨N, path, more, hholds, hN⟩ := h.holds hns
    exact ⟨[], N, path, more, hholds, hN⟩
  | @later _ _ _ _ s K _ _ _ ih =>
    obtain ⟨_ | body, note⟩ := s
    · exact ih hns
    · simp only [statementNodes, bind_eq_ok] at hns
      obtain ⟨n, hn, more, hmore, -⟩ := hns
      obtain ⟨before, N, path, after, hholds, hN⟩ := ih hmore
      refine ⟨n :: before, N, path, after, hholds, fun v => ?_⟩
      rw [statementNodes, hn, hN]
      rfl

end Grammar

/-! ## Programs with an integer in a given place -/

namespace Reader

variable {r : Reader}

theorem program_of_programTree_error {source : String} {e : ReadError}
    (h : r.programTree source = .error e) : r.program source = .error e := by
  rw [program, h]
  rfl

/-- An admitted text that the grammar derives has that tree. -/
theorem programTree_of_text {text : List Char} {t : List Statement}
    (hadmitted : firstExcess r.maxNesting text = none) (ht : ProgramText text t) :
    r.programTree (String.ofList text) = .ok t := by
  rw [programTree_eq_ok_iff, String.toList_ofList]
  exact ⟨hadmitted, ht⟩

/-- An admitted text that the grammar refuses is stuck. -/
theorem stuck_of_refused {text : List Char} {refused : Refusals}
    (hadmitted : firstExcess r.maxNesting text = none)
    (h : Grammar.program text = .error refused) :
    ∃ place expected, r.program (String.ofList text) = .error (.stuck place expected) := by
  have htree : r.programTree (String.ofList text) = .error (.ofRefusals text refused) := by
    rw [programTree, String.toList_ofList, match?_of_admitted hadmitted, h]
    rfl
  exact ⟨_, _, program_of_programTree_error htree⟩

/-- Statements whose strings can all be read can be read. -/
theorem statementNodes_of_strings {f : String → Except ReadError Node} {t : List Statement}
    (hstrings : ∀ w ∈ Statement.stringsOf t, ∃ n, f w = .ok n) :
    ∃ ns, statementNodes f t = .ok ns := by
  cases hns : statementNodes f t with
  | ok ns => exact ⟨ns, rfl⟩
  | error e =>
    obtain ⟨w, hw, hf⟩ := statementNodes_error hns
    obtain ⟨n, hn⟩ := hstrings w hw
    rw [hn] at hf
    cases hf

/-- A program with a place for a word, filled with digits and an optional sign. The rest of it is
such that a zero in that place nests no deeper than is allowed, and its strings can be read. Then it
can be read with any integer that 64 bits can hold: the tree has the word for its value in that
place, and the nodes have the literal. With any greater or smaller one it is stuck. No rule reads a
flag there, whatever the sign. -/
theorem program_integer (r : Reader) {before after : List Char} {K : Expr → List Statement}
    (hplace : ProgramHole before after K)
    (hnesting : firstExcess r.maxNesting (before ++ ['0'] ++ after) = none)
    (hstrings : ∀ w ∈ Statement.stringsOf (K (.integer 0)),
      ∃ n, r.stringNode r.expression w = .ok n) :
    ∃ (Q : Int64 → Program) (i : Nat) (path : List Nat),
      (∀ v, (Q v).statements[i]?.bind (·.at? path) = some (.literal (.integer v))) ∧
      ∀ {x : List Char} {value : Int}, IntegerText x value →
        (-2 ^ 63 ≤ value ∧ value < 2 ^ 63 → ∃ v : Int64, v.toInt = value ∧
          r.programTree (String.ofList (before ++ x ++ after)) = .ok (K (.integer v)) ∧
          r.program (String.ofList (before ++ x ++ after)) = .ok (Q v)) ∧
        (value < -2 ^ 63 ∨ 2 ^ 63 ≤ value → ∃ place expected,
          r.program (String.ofList (before ++ x ++ after)) = .error (.stuck place expected)) ∧
        ∀ rest, Refuses flag (x ++ rest) := by
  obtain ⟨_, hnodes⟩ := statementNodes_of_strings hstrings
  obtain ⟨front, N, path, back, hholds, hN⟩ := hplace.holds hnodes
  refine ⟨fun v => ⟨front ++ N v :: back⟩, front.length, path, fun v => ?_, ?_⟩
  · have hith : (front ++ N v :: back)[front.length]? = some (N v) := by simp
    show (front ++ N v :: back)[front.length]?.bind _ = _
    rw [hith]
    exact hholds.at_path v
  · intro x value hx
    have hadmitted : firstExcess r.maxNesting (before ++ x ++ after) = none :=
      (hx.firstExcess_congr integerText_zero before after).mpr hnesting
    refine ⟨fun hfits => ?_, fun hexceeds => ?_, hx.refuses_flag⟩
    · obtain ⟨v, rfl⟩ := exists_toInt_eq hfits
      have htree : r.programTree (String.ofList (before ++ x ++ after)) = .ok (K (.integer v)) :=
        programTree_of_text hadmitted (hplace.fill hx.exprText rfl)
      exact ⟨v, rfl, htree, program_eq_ok_iff.mpr ⟨_, htree, hN v⟩⟩
    · have hoversized : OversizedText x := .mk hx (int64?_eq_none_iff.mpr hexceeds)
      obtain ⟨refused, hrefused⟩ := hplace.refused hoversized
      exact stuck_of_refused hadmitted hrefused

/-- The least integer, with a zero in front of its digits and where a flag could stand, and the
number behind the greatest one. -/
theorem program_integer_limits :
    (∃ (v : Int64) (q : Program) (i : Nat) (path : List Nat), v.toInt = -2 ^ 63 ∧
      Reader.program {} "echo $(sum x -09223372036854775808)" = .ok q ∧
      q.statements[i]?.bind (·.at? path) = some (.literal (.integer v))) ∧
    ∃ place expected,
      Reader.program {} "echo $(sum x +9223372036854775808)" = .error (.stuck place expected) := by
  have hword : BareText ['x'] := .mk rfl (fun c hc => by cases hc)
  have hinner : BodyHole ['s', 'u', 'm', ' ', 'x', ' '] []
      (fun e => .command "sum" [.expr (.bare "x"), .expr e]) :=
    .word (u := ['s', 'u', 'm']) (.mk rfl (List.all_eq_true.mp rfl))
      (.cons blanks_space (by decide) (.expr (.bare hword)) .nil) blanks_space (by decide)
      .here .nil
  have hbody : BodyHole "echo $(sum x ".toList [')']
      (fun e => .command "echo" [.expr (.substitution (.command "sum" [.expr (.bare "x"),
        .expr e]))]) :=
    .word (u := ['e', 'c', 'h', 'o']) (v := []) (.mk rfl (List.all_eq_true.mp rfl)) .nil
      blanks_space (by decide) (.inside (a := []) (b := []) blanks_nil hinner blanks_nil) .nil
  have hplace : ProgramHole "echo $(sum x ".toList [')'] _ :=
    .last (.mk (a := []) (b := []) (v := []) (c := []) blanks_nil hbody blanks_nil .absent
      blanks_nil (fun h => by cases h))
  have hread := Reader.stringNode_bare {} (Reader.expression {}) (w := "x") hword
  obtain ⟨Q, i, path, hpath, hfill⟩ := program_integer {} hplace (by decide)
    (fun w hw => ⟨_, List.mem_singleton.mp hw ▸ hread⟩)
  have hdigits : DigitsText "9223372036854775808".toList := .mk rfl (List.all_eq_true.mp rfl)
  have hzeros : DigitsText "09223372036854775808".toList := .mk rfl (List.all_eq_true.mp rfl)
  have hleast : IntegerText "-09223372036854775808".toList (-2 ^ 63) := .mk .minus hzeros
  have hlarge : IntegerText "+9223372036854775808".toList (2 ^ 63) := .mk .plus hdigits
  obtain ⟨v, hv, -, hleast⟩ := (hfill hleast).1 (by decide)
  exact ⟨⟨v, Q v, i, path, hv, hleast, hpath v⟩, (hfill hlarge).2.1 (by decide)⟩

end Reader

end CommandShell
