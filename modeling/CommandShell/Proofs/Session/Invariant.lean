/-
# CommandShell.Proofs.Session.Invariant -- what every session keeps

Whatever a session is asked to run, some things about it never change. The builtins stay registered,
and nothing else is; `echo` stays the only option, with its default below all that covers it; and
between two calls evaluation is at the surface, under the settings the session was made with, with
no error left for report. Options are the one thing of these that builtins do change; the rest is
what evaluation leaves as it finds it.
-/
import CommandShell.Proofs.Session.Streams

namespace CommandShell

open Step CommandShell.Action

variable {κ τ : Type}

/-! ## Options -/

namespace OptionTable

/-- The option `echo` alone, with the given values over its default. -/
def echoing (covered : List Value) : OptionTable :=
  ⟨NameMap.empty.insert echo (covered ++ [.string "off"])⟩

theorem get?_echoing (covered : List Value) (name : String) :
    (echoing covered).values.get? name =
      if echo = name then some (covered ++ [.string "off"]) else none := by
  rw [echoing, NameMap.get?_insert, NameMap.get?_empty]

theorem insert_echoing (covered stack : List Value) :
    (echoing covered).values.insert echo stack = NameMap.empty.insert echo stack := by
  apply NameMap.ext
  intro name
  rw [NameMap.get?_insert, NameMap.get?_insert, get?_echoing, NameMap.get?_empty]
  split <;> rfl

/-- A property that covering and uncovering values keeps. -/
structure Kept (Q : OptionTable → Prop) : Prop where
  push {t next : OptionTable} {name : String} {value : Value} : Q t →
    t.push name value = .ok next → Q next
  pop {t next : OptionTable} {name : String} {value : Value} : Q t →
    t.pop name = .ok (value, next) → Q next

/-- `echo` stays the only option, and its default stays at the bottom. -/
theorem kept_echoing : Kept (fun t => ∃ covered, t = echoing covered) where
  push {t next name value} := by
    rintro ⟨covered, rfl⟩ hpush
    rw [push, get?_echoing] at hpush
    by_cases hname : echo = name
    · rw [if_pos hname, ← hname] at hpush
      simp only [insert_echoing] at hpush
      cases hpush
      exact ⟨value :: covered, rfl⟩
    · rw [if_neg hname] at hpush
      cases hpush
  pop {t next name value} := by
    rintro ⟨covered, rfl⟩ hpop
    rw [pop, get?_echoing] at hpop
    by_cases hname : echo = name
    · rw [if_pos hname, ← hname] at hpop
      -- the default alone cannot be taken off
      cases covered with
      | nil => cases hpop
      | cons top below =>
        cases below with
        | nil =>
          simp only [List.cons_append, List.nil_append, insert_echoing] at hpop
          cases hpop
          exact ⟨[], rfl⟩
        | cons second rest =>
          simp only [List.cons_append, insert_echoing] at hpop
          cases hpop
          exact ⟨second :: rest, rfl⟩
    · rw [if_neg hname] at hpop
      cases hpop

end OptionTable

namespace Step

/-- A step after which the options are as good as before. -/
def KeepsOptions (Q : OptionTable → Prop) (x : Step κ τ) : Prop :=
  ∀ c, Q c.options → Q (x c).2.options

variable {Q : OptionTable → Prop}

theorem keepsOptions_of_eq {x : Step κ τ} (h : ∀ c, (x c).2.options = c.options) :
    KeepsOptions Q x := by
  intro c hc
  rwa [h c]

theorem KeepsOptions.nested {α : Type} {x : Action κ α} (hx : KeepsOptions Q x) :
    KeepsOptions Q (Action.nested x) := by
  intro c hc
  by_cases hdepth : c.depth < c.interpreter.maxDepth
  · rw [nested_of_lt x hdepth]
    exact hx (enter c) hc
  · rw [nested_of_not_lt x hdepth]
    exact hc

theorem keepsOptions_tryUpdate {f : Context κ → Except Error (Context κ)}
    (h : ∀ c next, f c = .ok next → Q c.options → Q next.options) :
    KeepsOptions Q (tryUpdate f) := by
  intro c hc
  unfold tryUpdate
  cases hf : f c with
  | error e => exact hc
  | ok next => exact h c next hf hc

/-- Evaluation by itself does not touch the options. -/
theorem congruent_keepsOptions (Q : OptionTable → Prop) :
    @Congruent κ (fun x _ => KeepsOptions Q x) where
  result _ := keepsOptions_of_eq (fun _ => rfl)
  noting _ := keepsOptions_of_eq (fun _ => rfl)
  reporting _ _ _ := keepsOptions_of_eq (fun _ => rfl)
  seq hx hf := fun c hc => hf _ _ (hx c hc)
  look hf _ _ := fun c hc => hf c c hc
  restoring hx := fun c hc => hx c hc
  nested := KeepsOptions.nested
  refuse := keepsOptions_of_eq (fun _ => rfl)

end Step

namespace Builtin

variable {Q : OptionTable → Prop}

/-- Of the steps of the builtins, two change options: they cover a value or uncover one. -/
theorem closed_keepsOptions (hQ : OptionTable.Kept Q) :
    @Closed κ (fun x => KeepsOptions Q x) where
  pure _ := keepsOptions_of_eq (fun _ => rfl)
  fail _ := keepsOptions_of_eq (fun _ => rfl)
  bind {_ _ x f} hx hf := (congruent_keepsOptions Q).toSequential.bind (y := x) (g := f) hx hf
  look hf _ := fun c hc => hf c c hc
  moved _ := keepsOptions_of_eq (fun _ => rfl)
  moveTo files path := keepsOptions_tryUpdate (fun c next hnext hc => by
    simp only [Context.moveTo] at hnext
    split at hnext <;> cases hnext
    exact hc)
  setVariable _ _ _ := keepsOptions_of_eq (fun _ => rfl)
  unsetVariable _ := keepsOptions_of_eq (fun _ => rfl)
  exportVariable name := keepsOptions_tryUpdate (fun c next hnext hc => by
    simp only [Context.exportVariable?] at hnext
    cases hget : c.bindings.get? name <;> rw [hget] at hnext <;> cases hnext
    exact hc)
  pushOption name value := keepsOptions_tryUpdate (fun c next hnext hc => by
    simp only [Context.pushOption] at hnext
    cases hpush : c.options.push name value <;> rw [hpush] at hnext <;> cases hnext
    exact hQ.push hc hpush)
  popOption name := by
    intro c hc
    simp only [Context.popOption]
    cases hpop : c.options.pop name with
    | error e => exact hc
    | ok taken => exact hQ.pop hc hpop

theorem keepsOptions_evaluateNode (hQ : OptionTable.Kept Q) (files : Files.Tree) (i : Interpreter)
    (c : Context Builtin) (n : Node) : KeepsOptions Q (i.evaluateNode (commandSet files) c n) :=
  (congruent_keepsOptions Q).evaluateNode
    (keeps_of_plain (congruent_keepsOptions Q).toSequential files (fun _ hb reenter values flags =>
      (closed_keepsOptions hQ).invoke hb files description reenter values flags)) i c n

end Builtin

/-! ## The context of a session -/

/-- What evaluation keeps of the context of a session with the given settings. -/
structure Context.Sound (i : Interpreter) (c : Context Builtin) : Prop where
  commands : c.commands.entries = Builtin.registry
  options : ∃ covered, c.options = OptionTable.echoing covered
  depth : c.depth = 0
  interpreter : c.interpreter = i

theorem Context.Sound.evaluateNode {i : Interpreter} {c : Context Builtin} (h : c.Sound i)
    (files : Files.Tree) (start : Context Builtin) (n : Node) :
    (i.evaluateNode (Builtin.commandSet files) start n c).2.Sound i := by
  obtain ⟨_, -, -, hframe⟩ := (Builtin.logging_commandSet files).logs_evaluateNode i start n c
  refine ⟨?_, ?_, hframe.depth.trans h.depth, hframe.interpreter.trans h.interpreter⟩
  · rw [hframe.commands, h.commands]
  · exact Builtin.keepsOptions_evaluateNode OptionTable.kept_echoing files i start n c h.options

namespace Session

/-- Nothing hinders a run, and its context is sound. -/
def Running (i : Interpreter) (s : Progress × Context Builtin) : Prop :=
  s.1.Unhindered ∧ s.2.Sound i

theorem running_invariant (i : Interpreter) (around : Surroundings) (start : Context Builtin) :
    RunInvariant (i.evaluateNode (Builtin.commandSet around.files) start) (present around.trace)
      (Running i) := by
  apply unhindered_invariant
  · exact fun c e h => ⟨h.commands, h.options, h.depth, h.interpreter⟩
  · exact fun c h => ⟨h.commands, h.options, h.depth, h.interpreter⟩
  · intro n c h
    have hnext := h.evaluateNode around.files start n
    exact ⟨hnext.commands, hnext.options, hnext.depth, hnext.interpreter⟩

/-- The run of a whole text puts the settings back that it found. -/
theorem Running.evaluateEach {i : Interpreter} {s : Progress × Context Builtin} (h : Running i s)
    (around : Surroundings) (source : String) :
    Running i
      (i.evaluateEach (Builtin.commandSet around.files) (present around.trace) source s) := by
  have hran := (running_invariant i around s.2).runText i.reader source
    (s := (s.1, { s.2 with interpreter := i }))
    ⟨h.1, h.2.commands, h.2.options, h.2.depth, rfl⟩
  exact ⟨hran.1, hran.2.commands, hran.2.options, hran.2.depth, h.2.interpreter⟩

/-! ## From line to line -/

/-- A session whose context is sound, with nothing left for report and streams that never fail. -/
structure Steady (i : Interpreter) (s : Session) : Prop where
  context : s.context.Sound i
  diagnostics : s.context.diagnostics = []
  reliable : s.streams.Reliable

variable {i : Interpreter} {s : Session}

theorem Steady.withStreams (h : s.Steady i) {streams : Streams} (hstreams : streams.Reliable) :
    (s.withStreams streams).Steady i :=
  ⟨h.context, h.diagnostics, hstreams⟩

/-- With everything shown at its end, a run leaves the session steady. -/
theorem Running.closing {st : Progress × Context Builtin} (h : Running i st)
    (trace : Event → List String) : (closing trace st).2.Steady i := by
  obtain ⟨hprogress, hcontext⟩ := h
  refine ⟨⟨hcontext.commands, hcontext.options, hcontext.depth, hcontext.interpreter⟩, rfl, ?_⟩
  exact (settle_unhindered trace hprogress).1.reliable

theorem Steady.evaluate (h : s.Steady i) (around : Surroundings) (source : String) :
    (evaluate around source s).2.Steady i := by
  have hstart : Running i ({ streams := s.streams }, s.context) := ⟨⟨h.reliable, rfl⟩, h.context⟩
  rw [evaluate_eq_closing h.reliable, h.context.interpreter]
  exact (hstart.evaluateEach around source).closing around.trace

/-- Whether the text is blank, repeated first or just run, the session stays steady. -/
theorem Steady.run (h : s.Steady i) (around : Surroundings) (source : String) :
    (run around source s).2.Steady i := by
  unfold Session.run
  split
  · exact h
  · split
    · obtain ⟨streams, hoffer, hreliable⟩ := h.reliable.offerOut [source]
      simp only [hoffer]
      exact (h.withStreams hreliable).evaluate around source
    · exact h.evaluate around source

theorem Steady.runAll (h : s.Steady i) (around : Surroundings) (lines : List String) :
    (runAll around lines s).2.Steady i := by
  induction lines generalizing s with
  | nil => exact h
  | cons line rest ih =>
    have hrun := h.run around line
    rw [Session.runAll]
    split
    · next next heq =>
      rw [heq] at hrun
      exact ih hrun
    · exact hrun

theorem finished_session (ended : Except Trouble (Option Int32) × Session) :
    (finished ended).2 = ended.2 := by
  obtain ⟨_ | _, _⟩ := ended <;> rfl

theorem Steady.runScript (h : s.Steady i) (around : Surroundings) (path : RawText) :
    (runScript around path s).2.Steady i := by
  unfold Session.runScript
  split
  · exact h
  · rw [finished_session]
    exact h.runAll around _

theorem Steady.runInput (h : s.Steady i) (around : Surroundings) (interactive : Bool)
    (lines : List (Option String)) : (runInput around interactive lines s).2.Steady i := by
  induction lines generalizing s with
  | nil =>
    rw [Session.runInput]
    split
    · obtain ⟨streams, hoffer, hreliable⟩ := h.reliable.offerOut [""]
      simp only [hoffer]
      exact h.withStreams hreliable
    · exact h
  | cons line rest ih =>
    cases line with
    | none => exact h
    | some line =>
      have hrun := h.run around line
      rw [Session.runInput]
      split
      · next next heq =>
        rw [heq] at hrun
        exact ih hrun
      · rw [finished_session]
        exact hrun

/-! ## From call to call -/

/-- What a session can be asked to run. -/
inductive Request where
  | text (source : String)
  | script (path : RawText)
  | input (interactive : Bool) (bytes : List UInt8)

/-- A request, with what is around the session and where it writes. -/
structure Call where
  around : Surroundings
  streams : Streams
  request : Request

/-- The session after a call, whatever the answer is. -/
def serve (s : Session) (call : Call) : Session :=
  match call.request with
  | .text source => (run call.around source (s.withStreams call.streams)).2
  | .script path => (runScript call.around path (s.withStreams call.streams)).2
  | .input interactive bytes =>
    (runInteractively call.around interactive bytes (s.withStreams call.streams)).2

theorem Steady.serve (h : s.Steady i) {call : Call} (hcall : call.streams.Reliable) :
    (s.serve call).Steady i := by
  have hstart := h.withStreams hcall
  unfold Session.serve
  cases call.request with
  | text source => exact hstart.run call.around source
  | script path => exact hstart.runScript call.around path
  | input interactive bytes => exact hstart.runInput call.around interactive _

/-- Registering commands changes nothing else. -/
theorem withCommands_eq {κ : Type} (entries : List (String × κ)) (c : Context κ) :
    c.withCommands entries =
      { c with commands := entries.foldl (fun m e => m.insert e.1 e.2) c.commands } := by
  induction entries generalizing c with
  | nil => rfl
  | cons e rest ih => exact ih _

theorem steady_new (i : Interpreter) (workingDirectory : RawText) :
    (new i workingDirectory).Steady i := by
  have hregistry : (NameMap.ofList Builtin.registry).entries = Builtin.registry := by decide
  rw [new, withCommands_eq]
  exact ⟨⟨hregistry, ⟨[], rfl⟩, rfl, rfl⟩, rfl, fun _ => rfl, fun _ => rfl, fun _ => rfl⟩

/-- What can be relied on between two calls. -/
structure Sound (i : Interpreter) (s : Session) : Prop where
  /-- The registered commands are the builtins. -/
  commands : s.context.commands.entries = Builtin.registry
  /-- The only option is `echo`. -/
  options : s.context.options.names = [OptionTable.echo]
  /-- Its values end with the default. -/
  default : ∃ covered, s.context.options.values.get? OptionTable.echo =
    some (covered ++ [.string "off"])
  depth : s.context.depth = 0
  interpreter : s.context.interpreter = i
  diagnostics : s.context.diagnostics = []

theorem Steady.sound (h : s.Steady i) : s.Sound i := by
  obtain ⟨covered, hoptions⟩ := h.context.options
  refine ⟨h.context.commands, ?_, ⟨covered, ?_⟩, h.context.depth, h.context.interpreter,
    h.diagnostics⟩
  · rw [hoptions]
    rfl
  · rw [hoptions, OptionTable.get?_echoing, if_pos rfl]

/-- However often and with whatever a session is called, it stays sound, as long as its streams never
fail. -/
theorem sound_of_calls (i : Interpreter) (workingDirectory : RawText) (calls : List Call)
    (hcalls : ∀ call ∈ calls, call.streams.Reliable) :
    (calls.foldl serve (new i workingDirectory)).Sound i := by
  have hsteady : ∀ s : Session, s.Steady i → (calls.foldl serve s).Steady i := by
    induction calls with
    | nil => exact fun _ h => h
    | cons call rest ih =>
      intro s hs
      exact ih (fun c hc => hcalls c (List.mem_cons_of_mem _ hc)) _
        (hs.serve (hcalls call List.mem_cons_self))
  exact (hsteady _ (steady_new i workingDirectory)).sound

/-- A text with a failure and a request to leave in it, a script that is not there, and input that
is no text. -/
def variedCalls : List Call :=
  [⟨⟨.empty, [], fun _ => []⟩, {}, .text "pushopt echo on\necho $(nosuch) $(exit 3)"⟩,
    ⟨⟨.empty, [], fun _ => []⟩, {}, .script "missing"⟩,
    ⟨⟨.empty, [], fun _ => []⟩, {}, .input true [112, 119, 100, 10, 255]⟩]

theorem sound_of_variedCalls : (∀ call ∈ variedCalls, call.streams.Reliable) ∧
    (variedCalls.foldl serve (new {} "/")).Sound {} := by
  have hcalls : ∀ call ∈ variedCalls, call.streams.Reliable := by
    intro call hcall
    simp only [variedCalls, List.mem_cons, List.not_mem_nil, or_false] at hcall
    rcases hcall with rfl | rfl | rfl <;> exact ⟨fun _ => rfl, fun _ => rfl, fun _ => rfl⟩
  exact ⟨hcalls, sound_of_calls {} "/" variedCalls hcalls⟩

end Session

end CommandShell
