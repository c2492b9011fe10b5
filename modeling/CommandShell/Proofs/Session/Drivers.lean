/-
# CommandShell.Proofs.Session.Drivers -- a text, a script and lines of input run alike

A session can be given a text as a whole, as a script file or as bytes of input. The text is run in
one go, the other two line by line, with everything shown after each line. As long as every line can
be read by itself and none is repeated, this makes no difference: what is written, the code at the
end and the session that is left are the same. The steps are: runs do not look at the journal; a
line that is not blank runs as its statements do; and statements run from where those before them
ended.
-/
import CommandShell.Proofs.Session.InputLines
import CommandShell.Proofs.Session.Streams

namespace CommandShell

open Step

/-- No event is shown. -/
def unseen : Event → List String := fun _ => []

/-- The same surroundings, without lines that show events. A session writes values and errors; its
events are shown by whoever watches it. -/
def Surroundings.untraced (around : Surroundings) : Surroundings :=
  { around with trace := unseen }

/-! ## Blank texts and blank lines -/

namespace Text

theorem LinesText.blank_iff {text : List Char} {ls : List (List Char)} (h : LinesText text ls) :
    (∀ c ∈ text, isBlank c = true) ↔ ∀ l ∈ ls, ∀ c ∈ l, isBlank c = true := by
  induction h with
  | nil => simp
  | last u => simp
  | @next u e v ls he hv ih =>
    have hend : ∀ c ∈ e, isBlank c = true := by
      cases he <;> simp [isBlank]
    simp only [List.mem_append, List.forall_mem_cons, ← ih]
    constructor
    · intro hall
      exact ⟨fun c hc => hall c (.inl hc), fun c hc => hall c (.inr (.inr hc))⟩
    · rintro ⟨hu, hv⟩ c (hc | hc | hc)
      · exact hu c hc
      · exact hend c hc
      · exact hv c hc

/-- A text is blank if all its lines are. -/
theorem isAllBlank_iff_lines (text : String) :
    isAllBlank text = true ↔ ∀ line ∈ lines text, isAllBlank line = true := by
  simp only [isAllBlank, lines, List.all_eq_true, List.forall_mem_map, String.toList_ofList]
  exact (linesText_splitLines text.toList).blank_iff

end Text

/-! ## Outcomes without events -/

theorem drainJournal_unseen (s : Progress × Context Builtin) :
    drainJournal unseen s = (s.1, s.2.clearJournal) := by
  have hnone : s.2.log.flatMap unseen = [] := by
    simp [unseen]
  simp only [drainJournal, Progress.showEvents, hnone]
  rfl

theorem settle_alike {s t : Progress × Context Builtin} (h : Alike s t) :
    settle unseen s = settle unseen t := by
  rw [settle, settle, drainJournal_unseen, drainJournal_unseen, h.1, h.2]

theorem blind_present : (present unseen).Blind := by
  intro o s t h
  have hsame : present unseen o s = present unseen o t := by
    simp only [present, drainJournal_unseen, h.1, h.2]
  rw [hsame]
  exact Alike.refl _

namespace Session

variable {around : Surroundings} {s : Session}

theorem closing_alike {st st' : Progress × Context Builtin} (h : Alike st st') :
    closing unseen st = closing unseen st' := by
  rw [closing, closing, settle_alike h]

/-- Where a run starts. -/
def start (s : Session) : Progress × Context Builtin := ({ streams := s.streams }, s.context)

/-- How a session evaluates nodes. -/
def evaluator (around : Surroundings) (s : Session) : Node → Action Builtin (Flow Value) :=
  s.context.interpreter.evaluateNode (Builtin.commandSet around.files) s.context

theorem logs_evaluator (around : Surroundings) (s : Session) (n : Node) :
    Logs Any (s.evaluator around n) :=
  (Builtin.logging_commandSet around.files).logs_evaluateNode _ _ n

/-- A context in which a run stands as it did in the session: evaluation is where it was, and
nothing is left for report. -/
structure Stands (s : Session) (c : Context Builtin) : Prop where
  diagnostics : c.diagnostics = []
  interpreter : c.interpreter = s.context.interpreter
  depth : c.depth = s.context.depth

/-- A state from which a run goes on as it started. -/
def Continues (s : Session) (st : Progress × Context Builtin) : Prop :=
  st.1.Unhindered ∧ s.Stands st.2

theorem continues_start (hdiagnostics : s.context.diagnostics = [])
    (hstreams : s.streams.Reliable) : s.Continues s.start :=
  ⟨⟨hstreams, rfl⟩, hdiagnostics, rfl, rfl⟩

theorem continues_invariant (around : Surroundings) (s : Session) :
    RunInvariant (s.evaluator around) (present unseen) s.Continues := by
  apply unhindered_invariant
  · exact fun c e h => ⟨h.diagnostics, h.interpreter, h.depth⟩
  · exact fun c h => ⟨rfl, h.interpreter, h.depth⟩
  · intro n c h
    obtain ⟨_, -, -, hframe⟩ := s.logs_evaluator around n c
    exact ⟨rfl, hframe.interpreter.trans h.interpreter, hframe.depth.trans h.depth⟩

/-- A code is kept if and only if the statements end with a request to leave. -/
theorem runStatements_code (evaluate : Node → Action Builtin (Flow Value)) (ns : List Node)
    {st : Progress × Context Builtin} (h : st.1.Unhindered) :
    (runStatements evaluate (present unseen) ns st).2.1.code.isSome =
      ((runStatements evaluate (present unseen) ns st).1 || st.1.code.isSome) := by
  induction ns generalizing st with
  | nil => rfl
  | cons n rest ih =>
    obtain ⟨acc, c⟩ := st
    rw [runStatements]
    rcases evaluate n c with ⟨e | ⟨v⟩ | ⟨code⟩, next⟩
    · obtain ⟨hshown, hcode⟩ := present_unhindered unseen
        (s := (acc, next.note (.statementFailed e))) h (.failed e)
      rw [ih hshown, hcode]
    · obtain ⟨hshown, hcode⟩ := present_unhindered unseen (s := (acc, next)) h (.value v)
      rw [ih hshown, hcode]
    · obtain ⟨-, hcode⟩ := present_unhindered unseen (s := (acc, next)) h (.exited code)
      rw [hcode]
      rfl

/-- The session that a run leaves. -/
def resumed (st : Progress × Context Builtin) : Session := ⟨st.2.clearJournal, st.1.streams⟩

theorem closing_of_continues {st : Progress × Context Builtin} (h : s.Continues st) :
    closing unseen st = (.ok st.1.code, resumed st) := by
  obtain ⟨p, c⟩ := st
  have hdiagnostics : c.diagnostics = [] := h.2.diagnostics
  have hcleared : c.clearJournal.clearDiagnostics = c.clearJournal := by
    rw [Context.clearDiagnostics, Context.clearJournal, ← hdiagnostics]
  have hsettled : settle unseen (p, c) = (p, c.clearJournal) := by
    rw [settle, drainJournal_unseen, drainDiagnostics, hcleared]
    show (p.showErrors c.diagnostics, _) = _
    rw [hdiagnostics]
    rfl
  rw [closing, hsettled]
  rfl

/-- The session that a run leaves goes on where the run does, unless that asked to leave. -/
theorem Continues.alike_resumed {st : Progress × Context Builtin} (h : s.Continues st)
    (hcode : st.1.code = none) : Alike (resumed st).start st := by
  obtain ⟨⟨streams, code, refused⟩, c⟩ := st
  obtain rfl : code = none := hcode
  obtain rfl : refused = none := h.1.refused
  exact ⟨rfl, rfl⟩

theorem Continues.resumed_start {st : Progress × Context Builtin} (h : s.Continues st) :
    (resumed st).Continues (resumed st).start :=
  continues_start h.2.diagnostics h.1.reliable

theorem Continues.evaluator_resumed {st : Progress × Context Builtin} (h : s.Continues st) :
    (resumed st).evaluator around = s.evaluator around := by
  rw [evaluator, evaluator, show (resumed st).context.interpreter = _ from h.2.interpreter]
  exact Interpreter.evaluateNode_congr _ h.2.depth

/-! ## Running lines -/

/-- A text is evaluated as a run that leaves the same behind, up to the journal. -/
theorem evaluate_of_alike (around : Surroundings) (hs : s.Continues s.start) {source : String}
    {st : Progress × Context Builtin}
    (h : Alike (runText s.context.interpreter.reader (s.evaluator around) (present unseen) source
      s.start) st) : evaluate around.untraced source s = closing unseen st := by
  have hran := (continues_invariant around s).runText s.context.interpreter.reader source hs
  have heach : s.context.interpreter.evaluateEach (Builtin.commandSet around.files)
      (present unseen) source s.start = runText s.context.interpreter.reader (s.evaluator around)
        (present unseen) source s.start :=
    Interpreter.installed_of_kept rfl hran.2.interpreter
  rw [evaluate_eq_closing hs.1.reliable, ← closing_alike h, ← heach]
  rfl

/-- The sessions at the start of each line that is run. -/
def lineStarts (around : Surroundings) : List String → Session → List Session
  | [], _ => []
  | line :: rest, s => s :: match run around line s with
    | (.ok none, next) => lineStarts around rest next
    | _ => []

theorem run_of_blank {source : String} (h : Text.isAllBlank source = true) :
    run around source s = (.ok none, s) := by
  rw [run, if_pos h]

theorem run_of_shown {source : String} (h : Text.isAllBlank source = false)
    (hecho : s.echoes = false) : run around source s = evaluate around source s := by
  rw [run, if_neg (by simp [h]), if_neg (by simp [hecho])]

/-- Blank lines that can be read have no statements. -/
theorem flatMap_statements_of_blank {r : Reader} {lines : List String}
    (hlines : ∀ line ∈ lines, ∃ p, r.program line = .ok p)
    (hblank : ∀ line ∈ lines, Text.isAllBlank line = true) : lines.flatMap r.statements = [] := by
  rw [List.flatMap_eq_nil_iff]
  intro line hline
  obtain ⟨p, hp⟩ := hlines line hline
  rw [Reader.statements_eq hp, Reader.statements_of_blank hp (hblank line hline)]

/-- A line that is run leaves the session where its statements end. -/
theorem run_line (around : Surroundings) (hs : s.Continues s.start) {line : String} {p : Program}
    (hp : s.context.interpreter.reader.program line = .ok p)
    (hblank : Text.isAllBlank line = false) (hecho : s.echoes = false) :
    ∃ exits st,
      runStatements (s.evaluator around) (present unseen) p.statements s.start = (exits, st) ∧
      s.Continues st ∧ st.1.code.isSome = exits ∧
      run around.untraced line s = (.ok st.1.code, resumed st) := by
  have hran := (continues_invariant around s).runStatements p.statements hs
  have hcode := runStatements_code (s.evaluator around) p.statements hs.1
  refine ⟨_, _, rfl, hran, hcode.trans (Bool.or_false _), ?_⟩
  rw [run_of_shown hblank hecho, ← closing_of_continues hran]
  apply evaluate_of_alike around hs
  exact runText_of_program (s.logs_evaluator around) blind_present hp s.start

/-- Lines that can be read and are not repeated run as their statements do, one after the other;
blank lines do nothing at all. -/
theorem runAll_eq_closing {lines : List String} (hs : s.Continues s.start)
    (hlines : ∀ line ∈ lines, ∃ p, s.context.interpreter.reader.program line = .ok p)
    (hecho : ∀ t ∈ lineStarts around.untraced lines s, t.echoes = false) :
    runAll around.untraced lines s =
      if ∀ line ∈ lines, Text.isAllBlank line = true then (.ok none, s)
      else closing unseen (runStatements (s.evaluator around) (present unseen)
        (lines.flatMap s.context.interpreter.reader.statements) s.start).2 := by
  induction lines generalizing s with
  | nil => rw [if_pos (by simp)]; rfl
  | cons line rest ih =>
    obtain ⟨⟨p, hp⟩, hrest⟩ := List.forall_mem_cons.mp hlines
    obtain ⟨hfirst, hstarts⟩ := List.forall_mem_cons.mp hecho
    rw [List.flatMap_cons, Reader.statements_eq hp]
    cases hblank : Text.isAllBlank line with
    | true =>
      have hrun : run around.untraced line s = (.ok none, s) := run_of_blank hblank
      rw [hrun] at hstarts
      rw [runAll, hrun, Reader.statements_of_blank hp hblank]
      simpa [hblank] using ih hs hrest hstarts
    | false =>
      obtain ⟨exits, st, hst, hran, hcode, hrun⟩ := run_line around hs hp hblank hfirst
      have hinterpreter : (resumed st).context.interpreter = s.context.interpreter :=
        hran.2.interpreter
      rw [hrun] at hstarts
      rw [if_neg (by simp [hblank]), runStatements_append, hst, runAll, hrun]
      cases hexit : st.1.code with
      | some code =>
        obtain rfl : exits = true := by rw [← hcode, hexit]; rfl
        rw [closing_of_continues hran, hexit]
      | none =>
        obtain rfl : exits = false := by rw [← hcode, hexit]; rfl
        rw [hexit] at hstarts
        have hnext := ih hran.resumed_start (by rwa [hinterpreter]) hstarts
        rw [hran.evaluator_resumed, hinterpreter] at hnext
        -- the next line starts where these statements end
        refine hnext.trans ?_
        show _ = closing unseen (runStatements _ _ (rest.flatMap _) st).2
        split
        · next hblanks =>
          rw [flatMap_statements_of_blank hrest hblanks, runStatements]
          exact ((closing_of_continues hran).trans (by rw [hexit])).symm
        · apply closing_alike
          exact (runStatements_alike (s.logs_evaluator around) blind_present _
            (hran.alike_resumed hexit)).2

/-- A text whose lines can be read and are not repeated runs as its lines do. -/
theorem run_eq_runAll (around : Surroundings) {text : String} (hs : s.Continues s.start)
    (hlines : ∀ line ∈ Text.lines text, ∃ p, s.context.interpreter.reader.program line = .ok p)
    (hecho : ∀ t ∈ lineStarts around.untraced (Text.lines text) s, t.echoes = false) :
    run around.untraced text s = runAll around.untraced (Text.lines text) s := by
  rw [runAll_eq_closing hs hlines hecho]
  split
  · next hblank => exact run_of_blank ((Text.isAllBlank_iff_lines text).mpr hblank)
  · next hshown =>
    have hblank : Text.isAllBlank text = false := by
      rw [← Bool.not_eq_true, Text.isAllBlank_iff_lines]
      exact hshown
    have hfirst : s.echoes = false := by
      apply hecho
      cases hsplit : Text.lines text with
      | nil =>
        rw [hsplit] at hshown
        exact absurd (by simp) hshown
      | cons line rest =>
        rw [lineStarts]
        exact List.mem_cons_self
    rw [run_of_shown hblank hfirst]
    apply evaluate_of_alike around hs
    exact runText_of_lines (s.logs_evaluator around) blind_present hlines s.start

/-- Without a prompt, lines of input run as the lines of a text. -/
theorem runInput_some (around : Surroundings) (lines : List String) (s : Session) :
    runInput around false (lines.map some) s = finished (runAll around lines s) := by
  induction lines generalizing s with
  | nil => rfl
  | cons line rest ih =>
    rw [List.map_cons, runInput, runAll]
    rcases run around line s with ⟨_ | _ | code, next⟩
    · rfl
    · exact ih next
    · rfl

/-- A text, a script and lines of input run alike: with the same code, the same lines written and
the same context left. It is required that every line of the text can be read by itself, that none
is repeated, and that the streams never fail. -/
theorem drivers_agree (around : Surroundings) (path : RawText) (text : String) (s : Session)
    (hfile : around.files.read around.home path = .ok text)
    (hlines : ∀ line ∈ Text.lines text, ∃ p, s.context.interpreter.reader.program line = .ok p)
    (hdiagnostics : s.context.diagnostics = []) (hstreams : s.streams.Reliable)
    (hecho : ∀ t ∈ lineStarts around.untraced (Text.lines text) s, t.echoes = false) :
    ∃ code t, finished (run around.untraced text s) = (.ok code, t) ∧
      runScript around.untraced path s = (.ok code, t) ∧
      runInteractively around.untraced false text.toUTF8.data.toList s = (.ok code, t) := by
  have hs := continues_start hdiagnostics hstreams
  have hrun := run_eq_runAll around hs hlines hecho
  have hscript : runScript around.untraced path s = finished (run around.untraced text s) := by
    have hread : around.untraced.files.read around.untraced.home path = .ok text := hfile
    rw [runScript, hread, hrun]
  have hinput : runInteractively around.untraced false text.toUTF8.data.toList s =
      finished (run around.untraced text s) := by
    rw [runInteractively, Input.lines_of_readable hlines, runInput_some, hrun]
  obtain ⟨code, t, hok⟩ := run_ok around.untraced hstreams text
  rw [hscript, hinput, hok]
  exact ⟨code.getD 0, t, rfl, rfl, rfl⟩

/-- Five lines: one that ends in both line ending characters, a comment, an empty one, a request to
leave and one behind it that is not reached. -/
def sampleScript : String := "echo a\r\n# b\n\nexit 3\npwd"

/-- A place where the five lines stand in a file. -/
def sampleSurroundings : Surroundings :=
  ⟨{ entries := [(["s"], .file { mode := 0o644, size := 23, text := some sampleScript })] }, [],
    fun _ => []⟩

theorem drivers_agree_sampleScript :
    sampleSurroundings.files.read sampleSurroundings.home "s" = .ok sampleScript ∧
    (∀ line ∈ Text.lines sampleScript,
      ∃ p, (new {} "/").context.interpreter.reader.program line = .ok p) ∧
    (new {} "/").context.diagnostics = [] ∧ (new {} "/").streams.Reliable ∧
    (∀ t ∈ lineStarts sampleSurroundings.untraced (Text.lines sampleScript) (new {} "/"),
      t.echoes = false) ∧
    ∃ code t, finished (run sampleSurroundings.untraced sampleScript (new {} "/")) = (.ok code, t) ∧
      runScript sampleSurroundings.untraced "s" (new {} "/") = (.ok code, t) ∧
      runInteractively sampleSurroundings.untraced false sampleScript.toUTF8.data.toList
        (new {} "/") = (.ok code, t) := by
  have hfile : sampleSurroundings.files.read sampleSurroundings.home "s" = .ok sampleScript := rfl
  have hread : ∀ line ∈ Text.lines sampleScript,
      (({} : Reader).program line).toOption.isSome = true := by
    decide +kernel
  have hlines : ∀ line ∈ Text.lines sampleScript,
      ∃ p, (new {} "/").context.interpreter.reader.program line = .ok p := by
    intro line hline
    have hok := hread line hline
    cases hprogram : ({} : Reader).program line with
    | ok p => exact ⟨p, hprogram⟩
    | error e =>
      rw [hprogram] at hok
      cases hok
  have hstreams : (new {} "/").streams.Reliable := ⟨fun _ => rfl, fun _ => rfl, fun _ => rfl⟩
  have hecho : ∀ t ∈ lineStarts sampleSurroundings.untraced (Text.lines sampleScript) (new {} "/"),
      t.echoes = false := by
    have hall : (lineStarts sampleSurroundings.untraced (Text.lines sampleScript) (new {} "/")).all
        (fun t => !t.echoes) = true := by
      decide +kernel
    simpa using hall
  exact ⟨hfile, hlines, rfl, hstreams, hecho,
    drivers_agree sampleSurroundings "s" sampleScript (new {} "/") hfile hlines rfl hstreams hecho⟩

end Session

end CommandShell
