/-
# CommandShell.Proofs.Evaluation.DepthBalance -- every level that is entered is left

Two events change the depth, and both say how deep evaluation is when they happen. So the journal
tells the depth at every moment. Here it is shown that an evaluation, however it ends, comes back to
the depth it started from, and that on the way it keeps to the levels from there to the limit.
-/
import CommandShell.Proofs.Evaluation.LineByLine

namespace CommandShell

open Step

variable {κ τ υ α : Type}

/-! ## The depth along a journal -/

namespace Event

/-- The depth after an event. -/
def depthAfter (depth : Nat) : Event → Nat
  | .entered d => d
  | .left d => d - 1
  | _ => depth

/-- The depth after some events, oldest first. -/
def depthAlong (depth : Nat) (es : List Event) : Nat := es.foldl depthAfter depth

/-- Whether an event leaves the depth as it is. -/
def KeepsDepth : Event → Prop
  | .entered _ | .left _ => False
  | _ => True

/-- Whether an event can happen at a depth: a level is entered one below it, and the level that is
left is the current one, which is not the outermost. -/
def Fits (depth : Nat) : Event → Prop
  | .entered d => d = depth + 1
  | .left d => d = depth ∧ 0 < d
  | _ => True

theorem KeepsDepth.depthAfter {e : Event} (h : e.KeepsDepth) (depth : Nat) :
    e.depthAfter depth = depth := by
  cases e with
  | entered d => exact h.elim
  | left d => exact h.elim
  | _ => rfl

theorem KeepsDepth.fits {e : Event} (h : e.KeepsDepth) (depth : Nat) : e.Fits depth := by
  cases e with
  | entered d => exact h.elim
  | left d => exact h.elim
  | _ => trivial

theorem Mere.keepsDepth {e : Event} (h : e.Mere) : e.KeepsDepth := by
  cases e with
  | entered d => exact h
  | left d => exact h
  | _ => trivial

theorem depthAlong_append (depth : Nat) (es fs : List Event) :
    depthAlong depth (es ++ fs) = depthAlong (depthAlong depth es) fs :=
  List.foldl_append

/-- Events that lead from one depth to another, between a lowest and a greatest depth. -/
structure Course (low top start stop : Nat) (es : List Event) : Prop where
  /-- The depth in the end. -/
  ends : depthAlong start es = stop
  /-- The depth at every moment. -/
  within : ∀ before after, es = before ++ after →
    low ≤ depthAlong start before ∧ depthAlong start before ≤ top
  /-- Every event can happen where it does. -/
  fits : ∀ before e after, es = before ++ e :: after → e.Fits (depthAlong start before)

namespace Course

variable {low top start middle stop : Nat} {es fs : List Event}

theorem nil (hlow : low ≤ start) (htop : start ≤ top) : Course low top start start [] where
  ends := rfl
  within before after h := by
    rw [(List.append_eq_nil_iff.mp h.symm).1]
    exact ⟨hlow, htop⟩
  fits before e after h := by simp at h

theorem singleton (e : Event) (hfits : e.Fits start) (hstart : low ≤ start ∧ start ≤ top)
    (hafter : low ≤ e.depthAfter start ∧ e.depthAfter start ≤ top) :
    Course low top start (e.depthAfter start) [e] where
  ends := rfl
  within before after h := by
    rcases List.singleton_eq_append_iff.mp h with ⟨rfl, -⟩ | ⟨rfl, -⟩
    · exact hstart
    · exact hafter
  fits before e' after h := by
    rcases List.singleton_eq_append_iff.mp h with ⟨rfl, h'⟩ | ⟨-, h'⟩
    · rw [(List.cons.inj h').1]
      exact hfits
    · cases h'

/-- One course after another: a moment of the whole is one of the first or one of the second. -/
theorem append (hes : Course low top start middle es) (hfs : Course low top middle stop fs) :
    Course low top start stop (es ++ fs) where
  ends := by rw [depthAlong_append, hes.ends, hfs.ends]
  within before after h := by
    rcases List.append_eq_append_iff.mp h with ⟨more, rfl, hrest⟩ | ⟨more, hfirst, -⟩
    · rw [depthAlong_append, hes.ends]
      exact hfs.within more after hrest
    · exact hes.within before more hfirst
  fits before e after h := by
    rcases List.append_eq_append_iff.mp h with ⟨more, rfl, hrest⟩ | ⟨more, hfirst, hrest⟩
    · rw [depthAlong_append, hes.ends]
      exact hfs.fits more e after hrest
    · cases more with
      | nil =>
        -- the event is the first one behind the first course
        rw [List.append_nil] at hfirst
        rw [← hfirst, hes.ends]
        exact hfs.fits [] e after hrest.symm
      | cons e' more =>
        rw [(List.cons.inj hrest).1]
        exact hes.fits before e' more hfirst

theorem mono {low' : Nat} (h : Course low top start stop es) (hle : low' ≤ low) :
    Course low' top start stop es where
  ends := h.ends
  within before after hes :=
    ⟨Nat.le_trans hle (h.within before after hes).1, (h.within before after hes).2⟩
  fits := h.fits

/-- Events that keep the depth. -/
theorem of_keepsDepth (hes : ∀ e ∈ es, e.KeepsDepth) (hlow : low ≤ start) (htop : start ≤ top) :
    Course low top start start es := by
  induction es with
  | nil => exact nil hlow htop
  | cons e rest ih =>
    have hkeeps := hes e List.mem_cons_self
    -- such an event is a course from a depth to itself
    have hsame := hkeeps.depthAfter start
    have hfirst : Course low top start (e.depthAfter start) [e] :=
      singleton e (hkeeps.fits start) ⟨hlow, htop⟩ (hsame.symm ▸ ⟨hlow, htop⟩)
    rw [hsame] at hfirst
    exact hfirst.append (ih (fun f hf => hes f (List.mem_cons_of_mem e hf)))

/-- A level that is entered and left, with a course of its own inside. -/
theorem level (htop : start < top) (h : Course (start + 1) top (start + 1) (start + 1) es) :
    Course start top start start (.entered (start + 1) :: (es ++ [.left (start + 1)])) := by
  have henter : Course start top start (start + 1) [.entered (start + 1)] :=
    singleton (.entered (start + 1)) rfl ⟨Nat.le_refl _, Nat.le_of_lt htop⟩ ⟨Nat.le_succ _, htop⟩
  have hleave : Course start top (start + 1) start [.left (start + 1)] :=
    singleton (.left (start + 1)) ⟨rfl, Nat.succ_pos _⟩ ⟨Nat.le_succ _, htop⟩
      ⟨Nat.le_refl _, Nat.le_of_lt htop⟩
  exact henter.append ((h.mono (Nat.le_succ _)).append hleave)

end Course

end Event

open Event

/-! ## Steps -/

namespace Context

theorem log_note (c : Context κ) (e : Event) : (c.note e).log = c.log ++ [e] :=
  List.reverse_cons

/-- The second context comes back to the depth of the first, and the events in between lead there
without leaving the levels from that depth to the limit. -/
structure BackAt (top : Nat) (c d : Context κ) : Prop where
  depth : d.depth = c.depth
  course : ∃ es, d.log = c.log ++ es ∧ Course c.depth top c.depth c.depth es

variable {top : Nat}

theorem BackAt.refl {c : Context κ} (h : c.depth ≤ top) : BackAt top c c :=
  ⟨rfl, [], (List.append_nil _).symm, .nil (Nat.le_refl _) h⟩

theorem BackAt.trans {c d e : Context κ} (h : BackAt top c d) (h' : BackAt top d e) :
    BackAt top c e := by
  obtain ⟨hdepth, es, hlog, hes⟩ := h
  obtain ⟨hdepth', fs, hlog', hfs⟩ := h'
  rw [hdepth] at hdepth' hfs
  exact ⟨hdepth', es ++ fs, by rw [hlog', hlog, List.append_assoc], hes.append hfs⟩

theorem BackAt.note {c : Context κ} (h : c.depth ≤ top) {e : Event} (he : e.KeepsDepth) :
    BackAt top c (c.note e) := by
  refine ⟨rfl, [e], c.log_note e, Course.of_keepsDepth (fun f hf => ?_) (Nat.le_refl _) h⟩
  rwa [List.mem_singleton.mp hf]

/-- What comes back one level deeper comes back to where the level was entered. -/
theorem BackAt.level {c d : Context κ} (h : c.depth < top) (hd : BackAt top (Action.enter c) d) :
    BackAt top c (Action.leave d) := by
  obtain ⟨hdepth, es, hlog, hes⟩ := hd
  -- the depth that leaving takes one from, and writes down, is the one that was entered
  change d.depth = c.depth + 1 at hdepth
  refine ⟨?_, _, ?_, Course.level h hes⟩
  · show d.depth - 1 = c.depth
    rw [hdepth, Nat.add_sub_cancel]
  · have henter : (Action.enter c).log = c.log ++ [.entered (c.depth + 1)] := log_note _ _
    have hleave : (Action.leave d).log = d.log ++ [.left d.depth] := log_note _ _
    rw [hleave, hlog, henter, hdepth]
    simp

end Context

open Context

namespace Step

/-- A step comes back to the depth it starts from, and keeps to the levels that its settings
allow. -/
def Levelled (x : Step κ τ) : Prop :=
  ∀ c, c.depth ≤ c.interpreter.maxDepth →
    (x c).2.interpreter = c.interpreter ∧ BackAt c.interpreter.maxDepth c (x c).2

/-- Minor events keep the depth. -/
theorem Logs.levelled {x : Step κ τ} (hx : Logs Minor x) : Levelled x := by
  intro c hdepth
  obtain ⟨es, hes, hjournal⟩ := hx.journal c
  obtain ⟨_, -, -, hframe⟩ := hx c
  refine ⟨hframe.interpreter, hframe.depth, es.reverse, ?_, ?_⟩
  · rw [Context.log, hjournal, List.reverse_append]
    rfl
  · refine Course.of_keepsDepth (fun e he => ?_) (Nat.le_refl _) hdepth
    exact (hes e (List.mem_reverse.mp he)).mere.keepsDepth

theorem Levelled.seq {x : Step κ τ} {f : τ → Step κ υ} (hx : Levelled x)
    (hf : ∀ t, Levelled (f t)) : Levelled (seq x f) := by
  intro c hdepth
  obtain ⟨hsettings, hback⟩ := hx c hdepth
  have hdepth' : (x c).2.depth ≤ (x c).2.interpreter.maxDepth := by
    rw [hsettings, hback.depth]
    exact hdepth
  obtain ⟨hsettings', hback'⟩ := hf (x c).1 (x c).2 hdepth'
  rw [hsettings] at hsettings' hback'
  exact ⟨hsettings', hback.trans hback'⟩

/-- A level is left again, whatever happens inside; where none is left, nothing happens. -/
theorem Levelled.nested {x : Action κ α} (hx : Levelled x) : Levelled (Action.nested x) := by
  intro c hdepth
  by_cases hlimit : c.depth < c.interpreter.maxDepth
  · obtain ⟨hsettings, hback⟩ := hx (Action.enter c) hlimit
    rw [Action.nested_of_lt x hlimit]
    exact ⟨hsettings, .level hlimit hback⟩
  · rw [Action.nested_of_not_lt x hlimit]
    exact ⟨rfl, .note hdepth trivial⟩

end Step

theorem congruent_levelled : @Congruent κ (fun x _ => Levelled x) where
  result _ := fun _ hdepth => ⟨rfl, .refl hdepth⟩
  noting he := fun _ hdepth => ⟨rfl, .note hdepth he.keepsDepth⟩
  reporting _ n e := fun c hdepth =>
    have hnote : BackAt c.interpreter.maxDepth c (c.note (.contained n e)) := .note hdepth trivial
    ⟨rfl, hnote.depth, hnote.course⟩
  seq := Levelled.seq
  look hf _ _ := fun c => hf c c
  restoring hx := fun c hdepth =>
    ⟨rfl, (hx c hdepth).2.depth, (hx c hdepth).2.course⟩
  nested := Levelled.nested
  refuse := fun _ hdepth => ⟨rfl, .note hdepth trivial⟩

/-! ## Whole evaluations -/

section Runs

variable {evaluate : Node → Action κ (Flow Value)}

theorem levelled_statementsStep (heval : ∀ n, Levelled (evaluate n)) (ns : List Node)
    (acc : List Outcome) : Levelled (statementsStep evaluate ns acc) :=
  @Sequential.statementsStep _ _ congruent_levelled.toSequential evaluate evaluate heval ns acc

theorem levelled_textStep (reader : Reader) (heval : ∀ n, Levelled (evaluate n)) (source : String)
    (acc : List Outcome) : Levelled (textStep reader evaluate source acc) :=
  @Sequential.textStep _ _ congruent_levelled.toSequential evaluate evaluate reader heval source acc

end Runs

theorem Builtin.keeps_levelled (files : Files.Tree) :
    (commandSet files).Keeps (fun x _ => Levelled x) :=
  keeps_commandSet congruent_levelled Logs.levelled files

namespace Interpreter

/-- Settings that run something over a context and put its own settings back come back where it
does. -/
theorem backAt_under {x : Step κ τ} (hx : Levelled x) {i : Interpreter} {c : Context κ}
    (h : c.depth ≤ i.maxDepth) :
    BackAt i.maxDepth c ((x (c.under i)).2.under c.interpreter) :=
  ⟨(hx (c.under i) h).2.depth, (hx (c.under i) h).2.course⟩

/-- The depth is balanced, whether a text, a program, a node or a text inside a command is
evaluated and whether it ends with values, failures or a request to leave. Evaluation comes back to
the depth it started from; at every moment in between it is at least that deep and at most as deep
as its limit; and no level is left at depth zero. -/
theorem depth_balanced (files : Files.Tree) (i : Interpreter) (c : Context Builtin)
    (h : c.depth ≤ i.maxDepth) :
    (∀ source, BackAt i.maxDepth c (i.evaluate (Builtin.commandSet files) source c).2) ∧
    (∀ p, BackAt i.maxDepth c (i.evaluateProgram (Builtin.commandSet files) p c).2) ∧
    (∀ n, BackAt i.maxDepth (c.under i)
      (i.evaluateNode (Builtin.commandSet files) (c.under i) n (c.under i)).2) ∧
    (∀ source, BackAt i.maxDepth (c.under i)
      ((Builtin.commandSet files).reenter source (c.under i)).2) := by
  have hset := Builtin.keeps_levelled files
  have hnode : ∀ n, Levelled (i.evaluateNode (Builtin.commandSet files) c n) :=
    congruent_levelled.evaluateNode hset i c
  refine ⟨fun source => ?_, fun p => ?_, fun n => ?_, fun source => ?_⟩
  · exact backAt_under (levelled_textStep i.reader hnode source []) h
  · exact backAt_under (levelled_statementsStep hnode p.statements []) h
  · exact (hnode n (c.under i) h).2
  · exact (congruent_levelled.reenterWithin hset _ source (c.under i) h).2

/-- At the limit the text inside the command is refused, and the level of the command is left. -/
theorem depth_balanced_refused :
    ((Context.new {} "/" : Context Builtin).withCommands Builtin.registry).depth ≤ 1 ∧
    (evaluate { maxDepth := 1 } (Builtin.commandSet .empty) "eval \"pwd\""
      ((Context.new {} "/").withCommands Builtin.registry)).2.log.any
        (fun | .refused 1 => true | _ => false) = true ∧
    BackAt 1 ((Context.new {} "/").withCommands Builtin.registry)
      (evaluate { maxDepth := 1 } (Builtin.commandSet .empty) "eval \"pwd\""
        ((Context.new {} "/").withCommands Builtin.registry)).2 :=
  ⟨by decide +kernel, by decide +kernel,
    (depth_balanced .empty { maxDepth := 1 } _ (by decide +kernel)).1 "eval \"pwd\""⟩

end Interpreter

end CommandShell
