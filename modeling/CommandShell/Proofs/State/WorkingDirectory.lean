/-
# CommandShell.Proofs.State.WorkingDirectory -- the working directory stays usable

`cd` sees its target from the working directory and walks there; where it gets through, the
canonical path of what it reached is the new working directory, and in all other cases the old one
stays (`Moved`, `call_cd`). So from a canonical path of a directory one comes only to canonical
paths of directories, by whatever calls (`cdAll_canonical`), and it makes no move to go to where
one is. The text that `cd` and `pwd` answer is where one is only for a path that is a text: what is
shown of other paths may lead to another directory (`Misleads`).
-/
import CommandShell.Proofs.Evaluation.NestedProgram
import CommandShell.Proofs.Files.CanonicalPaths
import CommandShell.Proofs.Text.Shown

namespace CommandShell

open CommandSet CommandShell.Action

variable {κ : Type}

/-! ## One call -/

/-- What `cd` answers in a context to its arguments, and the working directory it leaves. -/
inductive Moved (files : Files.Tree) (c : Context κ) (values : List Value) :
    Except Error (Flow Value) → RawText → Prop
  | failed (e : Error) (hnone : ∀ path directory, values = [.string path] →
      files.enter (c.absolutePath path) ≠ .ok directory) :
    Moved files c values (.error e) c.workingDirectory
  | asked (hvalues : values = []) :
    Moved files c values (.ok (.value (.string c.workingDirectory.shown))) c.workingDirectory
  | entered {path : String} {directory : RawText} (hvalues : values = [.string path])
    (henter : files.enter (c.absolutePath path) = .ok directory) :
    Moved files c values (.ok (.value (.string directory.shown))) directory

namespace Builtin

variable (files : Files.Tree)

/-- `cd` to a path. -/
theorem changeDirectory_path (path : String) (c : Context κ) :
    (changeDirectory files [.string path] : Action κ Value) c =
      match files.enter (c.absolutePath path) with
      | .ok directory => (.ok (.string directory.shown),
          { c with workingDirectory := directory }.note (.moved directory))
      | .error failure => (.error (.badPath (c.absolutePath path) failure), c) := by
  show Action.bind (tryUpdate (·.moveTo files path)) _ c = _
  unfold Action.bind tryUpdate Context.moveTo
  dsimp only
  cases files.enter (c.absolutePath path) with
  | ok directory => rfl
  | error failure => rfl

/-- Whatever it is given, `cd` changes the working directory at most. -/
theorem changeDirectory_moved (values : List Value) (c : Context κ) :
    ∃ answer directory es,
      (Flow.value <$> changeDirectory files values : Action κ (Flow Value)) c =
        (answer, { c with workingDirectory := directory, journal := es ++ c.journal }) ∧
      Moved files c values answer directory := by
  match values with
  | [] => exact ⟨_, _, [], rfl, .asked rfl⟩
  | [target] =>
    cases target with
    | string path =>
      have hrun := changeDirectory_path files path c
      show ∃ answer directory es, Action.bind _ _ c = _ ∧ _
      unfold Action.bind
      rw [hrun]
      cases henter : files.enter (c.absolutePath path) with
      | ok directory => exact ⟨_, _, [_], rfl, .entered rfl henter⟩
      | error failure =>
        refine ⟨_, _, [], rfl, .failed _ fun other directory hvalues hok => ?_⟩
        obtain rfl : path = other := by simpa using hvalues
        cases henter.symm.trans hok
    | _ => exact ⟨_, _, [], rfl, .failed _ nofun⟩
  | _ :: _ :: _ => exact ⟨_, _, [], rfl, .failed _ nofun⟩

end Builtin

/-! ## Calls by name -/

section Calls

variable {files : Files.Tree} {c d : Context Builtin} {cd pwd : String}

/-- A call of `cd` changes nothing but the working directory, and more has happened. -/
theorem call_cd (hcd : c.commands.get? cd = some .cd) (values : List Value) (flags : List Flag) :
    ∃ answer directory es, (Builtin.commandSet files).call cd values flags c =
        (answer, { c with workingDirectory := directory, journal := es ++ c.journal }) ∧
      Moved files c values answer directory := by
  obtain ⟨answer, directory, es, hrun, hmoved⟩ := Builtin.changeDirectory_moved files
    values (invoking cd values flags c)
  have hinvoke : (Builtin.commandSet files).invoke ((Builtin.commandSet files).reenterWithin
    (levels c.interpreter c)) .cd values flags (invoking cd values flags c) = _ := hrun
  have hcall := call_registered hcd values flags hinvoke
  refine ⟨answer, directory, .answered cd answer ::
    (es ++ [.invoked cd values flags, .called cd values flags]), ?_, ?_⟩
  · rw [hcall, List.cons_append, List.append_assoc]
    rfl
  · cases hmoved with
    | failed e hnone => exact .failed e hnone
    | asked hvalues => exact .asked hvalues
    | entered hvalues henter => exact .entered hvalues henter

/-- A call of `pwd` without arguments answers with the working directory. -/
theorem call_pwd (hpwd : c.commands.get? pwd = some .pwd) (flags : List Flag) :
    ((Builtin.commandSet files).call pwd [] flags c).1 =
      .ok (.value (.string c.workingDirectory.shown)) :=
  congrArg Prod.fst (call_registered hpwd [] flags rfl)

/-- Where one comes from a usable directory is usable. -/
theorem Moved.isCanonical {values : List Value} {answer : Except Error (Flow Value)}
    {directory : RawText} (h : Moved files c values answer directory)
    (hc : files.IsCanonical c.workingDirectory) : files.IsCanonical directory := by
  cases h with
  | failed e _ => exact hc
  | asked _ => exact hc
  | entered _ henter => exact Files.Tree.isCanonical_of_enter henter

/-- To `.` and to nothing it makes no move. -/
theorem Moved.eq_of_here {path : String} (hc : files.IsCanonical c.workingDirectory)
    (hpath : path = "." ∨ path = "") {answer : Except Error (Flow Value)} {directory : RawText}
    (h : Moved files c [.string path] answer directory) : directory = c.workingDirectory := by
  cases h with
  | failed e _ => rfl
  | asked _ => rfl
  | @entered text _ hvalues henter =>
    obtain rfl : path = text := by simpa using hvalues
    rcases hpath with rfl | rfl
    · exact Files.Tree.enter_canonical_dot hc henter
    · exact Files.Tree.enter_canonical hc henter

/-! ## What is shown of the working directory -/

/-- Whether what is shown of a path leads to a directory that has another path. -/
def Files.Tree.Misleads (files : Files.Tree) (path : RawText) : Prop :=
  ∃ other, files.enter path.shown = .ok other ∧ other ≠ path

/-- A text leads where its path does. -/
theorem Files.Tree.IsCanonical.not_misleads {path : RawText} (h : files.IsCanonical path)
    (htext : path.IsText) : ¬ files.Misleads path := by
  rintro ⟨other, henter, hother⟩
  rw [RawText.isText_iff.mp htext] at henter
  exact hother (Files.Tree.enter_canonical h henter)

/-- Called with what is shown of where one is, it makes a move exactly if that leads elsewhere. -/
theorem Moved.eq_iff_not_misleads (hc : files.IsCanonical c.workingDirectory)
    {answer : Except Error (Flow Value)} {directory : RawText}
    (h : Moved files c [.string c.workingDirectory.shown] answer directory) :
    directory = c.workingDirectory ↔ ¬ files.Misleads c.workingDirectory := by
  have hpath : c.absolutePath c.workingDirectory.shown = c.workingDirectory.shown :=
    Files.Path.absolute_of_isAbsolute
      (Files.Path.isAbsolute_shown (Files.Tree.isAbsolute_canonical hc)) _
  cases h with
  | failed e hnone =>
    refine iff_of_true rfl ?_
    rintro ⟨other, henter, -⟩
    exact hnone _ other rfl (hpath.symm ▸ henter)
  | asked hvalues => cases hvalues
  | @entered text _ hvalues henter =>
    obtain rfl : c.workingDirectory.shown = text := by simpa using hvalues
    rw [hpath] at henter
    constructor
    · rintro rfl ⟨other, hother, hne⟩
      exact hne (Except.ok.inj (hother.symm.trans henter))
    · intro hleads
      exact by_contra fun hne => hleads ⟨directory, henter, hne⟩

/-! ## Calls one after another -/

/-- The context after calls of `cd` under the given name, whether they fail or not. -/
def cdAll (files : Files.Tree) (cd : String) (calls : List (List Value × List Flag))
    (c : Context Builtin) : Context Builtin :=
  calls.foldl (fun c (values, flags) =>
    ((Builtin.commandSet files).call cd values flags c).2) c

theorem cdAll_canonical (hcd : c.commands.get? cd = some .cd)
    (hc : files.IsCanonical c.workingDirectory) (calls : List (List Value × List Flag)) :
    (cdAll files cd calls c).commands = c.commands ∧
      files.IsCanonical (cdAll files cd calls c).workingDirectory := by
  induction calls generalizing c with
  | nil => exact ⟨rfl, hc⟩
  | cons call rest ih =>
    obtain ⟨values, flags⟩ := call
    obtain ⟨answer, directory, es, hrun, hmoved⟩ := call_cd hcd values flags
    have hnext := ih (c := { c with workingDirectory := directory, journal := es ++ c.journal })
      hcd (hmoved.isCanonical hc)
    show (cdAll files cd rest ((Builtin.commandSet files).call cd values flags c).2).commands = _ ∧
      files.IsCanonical
        (cdAll files cd rest ((Builtin.commandSet files).call cd values flags c).2).workingDirectory
    rw [hrun]
    exact hnext

/-- A directory below the root, with another one below it, and a link to that one. -/
def twoDirectories : Files.Tree :=
  { entries := [(["a"], .directory { mode := 0o755 }), (["a", "b"], .directory { mode := 0o755 }),
      (["l"], .link "a/./b/")] }

/-- Two directories that are shown alike: the name of one is no text, and the name of the other is
what is shown of it. A link leads to the first. -/
def lookalikes : Files.Tree :=
  { entries := [([⟨[0xFF]⟩], .directory { mode := 0o755 }),
      (["\ufffd"], .directory { mode := 0o755 }), (["l"], .link ⟨[0xFF]⟩)] }

end Calls

end CommandShell
