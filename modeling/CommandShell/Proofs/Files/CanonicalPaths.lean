/-
# CommandShell.Proofs.Files.CanonicalPaths -- where walks through the files end

A canonical path of a directory goes from the root through directories only, by names that are no
`.` and no `..`, so that it leads past no link. Whatever path a walk follows, it ends at a canonical
path: this is kept by each step, also by those of the links on the way (`walkOver_placed`). A walk
along a canonical path goes straight, so if it gets through at all it ends at this path
(`enter_canonical`); a `.` behind the path makes no difference (`enter_canonical_dot`).
-/
import CommandShell.Files.Walk
import Mathlib.Data.List.Infix

namespace CommandShell.Files

namespace Path

/-! ## Names and components -/

/-- The names that entries of a directory can have. -/
structure Proper (name : RawText) : Prop where
  ne_empty : name.bytes ≠ []
  ne_dot : name.bytes ≠ [dot]
  ne_dots : name.bytes ≠ [dot, dot]
  no_slash : slash ∉ name.bytes

/-- A step that goes nowhere. -/
def Step.Rests (s : Step) : Prop := s = .stay ∨ s = .directory

theorem splitSlashes_ne_nil (u : List UInt8) : splitSlashes u ≠ [] := by
  cases u with
  | nil => exact List.cons_ne_nil _ _
  | cons b rest =>
    rw [splitSlashes]
    split
    · exact List.cons_ne_nil _ _
    · split <;> exact List.cons_ne_nil _ _

theorem splitSlashes_append_slash (u v : List UInt8) :
    splitSlashes (u ++ slash :: v) = splitSlashes u ++ splitSlashes v := by
  induction u with
  | nil => simp [splitSlashes]
  | cons b rest ih =>
    rw [List.cons_append, splitSlashes, splitSlashes, ih]
    split
    · rfl
    · obtain ⟨part, more, hparts⟩ := List.exists_cons_of_ne_nil (splitSlashes_ne_nil rest)
      simp [hparts]

theorem splitSlashes_of_not_mem {u : List UInt8} (h : slash ∉ u) : splitSlashes u = [u] := by
  induction u with
  | nil => rfl
  | cons b rest ih =>
    obtain ⟨hb, hrest⟩ := not_or.mp (mt List.mem_cons.mpr h)
    rw [splitSlashes, if_neg (Ne.symm hb), ih hrest]

theorem not_mem_of_mem_splitSlashes {u part : List UInt8} (h : part ∈ splitSlashes u) :
    slash ∉ part := by
  induction u generalizing part with
  | nil => simp_all [splitSlashes]
  | cons b rest ih =>
    rw [splitSlashes] at h
    split at h
    · rcases List.mem_cons.mp h with rfl | hrest
      · exact List.not_mem_nil
      · exact ih hrest
    · next hb =>
      obtain ⟨first, more, hparts⟩ := List.exists_cons_of_ne_nil (splitSlashes_ne_nil rest)
      rw [hparts] at h ih
      rcases List.mem_cons.mp h with rfl | hmore
      · exact List.not_mem_cons_of_ne_of_not_mem (Ne.symm hb) (ih List.mem_cons_self)
      · exact ih (List.mem_cons_of_mem _ hmore)

theorem splitSlashes_intercalate {parts : List (List UInt8)} (hne : parts ≠ [])
    (h : ∀ part ∈ parts, slash ∉ part) : splitSlashes ([slash].intercalate parts) = parts := by
  induction parts with
  | nil => exact absurd rfl hne
  | cons part parts ih =>
    cases parts with
    | nil =>
      rw [List.intercalate_singleton]
      exact splitSlashes_of_not_mem (h part List.mem_cons_self)
    | cons other parts =>
      rw [List.intercalate_cons_cons, List.append_assoc, List.singleton_append,
        splitSlashes_append_slash, splitSlashes_of_not_mem (h part List.mem_cons_self),
        ih (List.cons_ne_nil _ _) (fun p hp => h p (List.mem_cons_of_mem _ hp))]
      rfl

/-! ## Steps -/

theorem stepOf_name {name : RawText} (h : Proper name) : stepOf name.bytes = some (.into name) := by
  rw [stepOf, if_neg h.ne_empty, if_neg h.ne_dot, if_neg h.ne_dots]

theorem proper_of_stepOf {part : List UInt8} {name : RawText} (hpart : slash ∉ part)
    (h : stepOf part = some (.into name)) : Proper name := by
  unfold stepOf at h
  split_ifs at h with hempty hdot hdots
  · cases h
  · cases h
  · cases h
    exact ⟨hempty, hdot, hdots, hpart⟩

/-- Walks go by proper names only. -/
theorem proper_of_mem_steps {path name : RawText} (h : .into name ∈ steps path) : Proper name := by
  rcases List.mem_append.mp h with hpart | htail
  · obtain ⟨part, hmem, hstep⟩ := List.mem_filterMap.mp hpart
    exact proper_of_stepOf (not_mem_of_mem_splitSlashes hmem) hstep
  · split at htail
    · cases List.mem_singleton.mp htail
    · cases htail

/-! ## Absolute paths -/

theorem isAbsolute_iff {path : RawText} : isAbsolute path ↔ ∃ rest, path.bytes = slash :: rest := by
  rw [isAbsolute, beq_iff_eq, List.head?_eq_some_iff]

/-- An absolute path stands for itself, wherever it is seen from. -/
theorem absolute_of_isAbsolute {path : RawText} (h : isAbsolute path) (here : RawText) :
    absolute here path = path := by
  obtain ⟨rest, hbytes⟩ := isAbsolute_iff.mp h
  have hfilled : ¬ path.bytes.isEmpty := by simp [hbytes]
  rw [absolute, if_neg hfilled, join, if_pos h]

/-- What is shown of an absolute path is an absolute path. -/
theorem isAbsolute_shown {path : RawText} (h : isAbsolute path) : isAbsolute path.shown := by
  obtain ⟨rest, hbytes⟩ := isAbsolute_iff.mp h
  have hshown : path.shown.toList = '/' :: RawText.shownFrom .nothing rest := by
    rw [RawText.shown, String.toList_ofList, hbytes]
    rfl
  rw [isAbsolute_iff, RawText.ofText, hshown]
  exact ⟨_, rfl⟩

/-! ## Paths through names -/

section Canonical

variable {names : List RawText} (hnames : ∀ name ∈ names, Proper name)

include hnames

theorem splitSlashes_ofNames (hne : names ≠ []) :
    splitSlashes (ofNames names).bytes = [] :: names.map RawText.bytes := by
  have hparts : ∀ part ∈ names.map RawText.bytes, slash ∉ part :=
    List.forall_mem_map.mpr (fun name hname => (hnames name hname).no_slash)
  show splitSlashes ([] ++ slash :: [slash].intercalate (names.map RawText.bytes)) = _
  rw [splitSlashes_append_slash, splitSlashes_intercalate (mt List.map_eq_nil_iff.mp hne) hparts]
  rfl

theorem filterMap_stepOf_ofNames :
    (splitSlashes (ofNames names).bytes).filterMap stepOf = names.map .into := by
  by_cases hne : names = []
  · subst hne
    rfl
  · rw [splitSlashes_ofNames hnames hne]
    show (names.map RawText.bytes).filterMap stepOf = _
    rw [List.filterMap_map, ← List.filterMap_eq_map]
    exact List.filterMap_congr (fun name hname => stepOf_name (hnames name hname))

/-- Only the path of the root ends in a slash. -/
theorem getLast?_ofNames (hne : names ≠ []) : (ofNames names).bytes.getLast? ≠ some slash := by
  intro hslash
  obtain ⟨u, hu⟩ := List.getLast?_eq_some_iff.mp hslash
  obtain ⟨above, last, rfl⟩ := (List.eq_nil_or_concat' names).resolve_left hne
  have hsplit := splitSlashes_ofNames hnames hne
  rw [hu, splitSlashes_append_slash, List.map_append, ← List.cons_append] at hsplit
  have hlast : [] = last.bytes := (List.append_inj' hsplit rfl).2 |> List.head_eq_of_cons_eq
  exact (hnames last (List.mem_append_right _ List.mem_cons_self)).ne_empty hlast.symm

/-- The steps of the path through some names go into one after the other. -/
theorem steps_ofNames :
    ∃ tail : List Step, (∀ s ∈ tail, s.Rests) ∧
      steps (ofNames names) = names.map .into ++ tail := by
  refine ⟨_, ?_, congrArg (· ++ _) (filterMap_stepOf_ofNames hnames)⟩
  intro s hs
  split at hs
  · exact .inr (List.mem_singleton.mp hs)
  · cases hs

/-- A `.` behind it adds a step that goes nowhere. -/
theorem steps_join_dot :
    ∃ tail : List Step, (∀ s ∈ tail, s.Rests) ∧
      steps (join (ofNames names) ".") = names.map .into ++ tail := by
  refine ⟨[.stay], fun s hs => .inl (List.mem_singleton.mp hs), ?_⟩
  by_cases hne : names = []
  · subst hne
    decide
  · have hslash : ¬ (ofNames names).bytes.getLast?.all (· == slash) := by
      have hfilled : (ofNames names).bytes ≠ [] := List.cons_ne_nil _ _
      have hlast := getLast?_ofNames hnames hne
      rw [List.getLast?_eq_some_getLast hfilled] at hlast ⊢
      simpa using hlast
    have hjoin : join (ofNames names) "." = ⟨(ofNames names).bytes ++ slash :: [dot]⟩ := by
      rw [join, if_neg (by decide), if_neg hslash]
      rfl
    rw [hjoin, steps, splitSlashes_append_slash, List.filterMap_append,
      filterMap_stepOf_ofNames hnames]
    simp [splitSlashes, stepOf, slash, dot]

end Canonical

end Path

namespace Tree

variable {t : Tree} {here names : List RawText}

/-! ## Canonical paths -/

/-- Whether the names from the root lead to a directory. -/
def IsDirectory (t : Tree) (names : List RawText) : Prop :=
  ∃ data, t.object? names = some (.directory data)

/-- Where a walk can be: every place above is a directory, and the names are proper. -/
structure Placed (t : Tree) (names : List RawText) : Prop where
  proper : ∀ name ∈ names, Path.Proper name
  above : ∀ place, place <+: names → place ≠ names → t.IsDirectory place

/-- Whether a path is the canonical one of a directory. -/
def IsCanonical (t : Tree) (path : RawText) : Prop :=
  ∃ names, path = Path.ofNames names ∧ t.Placed names ∧ t.IsDirectory names

theorem placed_root : t.Placed [] :=
  ⟨nofun, fun _ hstart hne => absurd (List.prefix_nil.mp hstart) hne⟩

theorem Placed.isDirectory (h : t.Placed names) (hnames : t.IsDirectory names)
    {place : List RawText} (hstart : place <+: names) : t.IsDirectory place := by
  by_cases hsame : place = names
  · exact hsame ▸ hnames
  · exact h.above place hstart hsame

theorem Placed.dropLast (h : t.Placed here) : t.Placed here.dropLast := by
  have hstart : here.dropLast <+: here := List.dropLast_prefix here
  refine ⟨fun name hname => h.proper name (hstart.subset hname), fun place hplace hne => ?_⟩
  refine h.above place (hplace.trans hstart) (fun hsame => ?_)
  -- what is all of the path cannot be a part of what stands above
  subst hsame
  exact hne (hstart.eq_of_length_le (hplace.length_le)).symm

theorem Placed.into (h : t.Placed here) (hhere : t.IsDirectory here) {name : RawText}
    (hname : Path.Proper name) : t.Placed (here ++ [name]) := by
  refine ⟨fun other hother => ?_, fun place hplace hne => ?_⟩
  · rcases List.mem_append.mp hother with hin | hin
    · exact h.proper other hin
    · exact List.mem_singleton.mp hin ▸ hname
  · rcases List.prefix_concat_iff.mp hplace with hwhole | hstart
    · exact absurd hwhole hne
    · exact h.isDirectory hhere hstart

/-! ## One step of a walk -/

section Walk

variable {follow : List RawText → RawText → List Path.Step → Except Failure (List RawText)}
  {step : Path.Step} {rest : List Path.Step} {last : List RawText}

/-- A walk that gets through starts each step at a directory. It goes on from there, from above, or
from an entry; at a link it goes on as it is told. -/
theorem walkOver_cons_ok (h : t.walkOver follow here (step :: rest) = .ok last) :
    t.IsDirectory here ∧
    (step.Rests ∧ t.walkOver follow here rest = .ok last ∨
      step = .up ∧ t.walkOver follow here.dropLast rest = .ok last ∨
      ∃ name, step = .into name ∧
        ((∃ target, t.object? (here ++ [name]) = some (.link target) ∧
            follow here target rest = .ok last) ∨
          t.walkOver follow (here ++ [name]) rest = .ok last ∧
            ∀ target, t.object? (here ++ [name]) ≠ some (.link target))) := by
  unfold walkOver at h
  split at h
  · next data hdata =>
    refine ⟨⟨data, hdata⟩, ?_⟩
    split at h
    · next hstep => exact .inl ⟨.inr hstep, h⟩
    · split at h
      · cases h
      · cases step with
        | stay => exact .inl ⟨.inl rfl, h⟩
        | directory => exact .inl ⟨.inr rfl, h⟩
        | up => exact .inr (.inl ⟨rfl, h⟩)
        | into name =>
          refine .inr (.inr ⟨name, rfl, ?_⟩)
          simp only at h
          split at h
          · cases h
          · split at h
            · cases h
            · next target hlink => exact .inl ⟨target, hlink, h⟩
            · next o hnone hother =>
              refine .inr ⟨h, fun target hlink => hnone target ?_⟩
              exact Option.some.inj (hother.symm.trans hlink)
  · cases h

/-! ## Whole walks -/

/-- A walk by proper names ends where a walk can be, if it does so behind each link. -/
theorem walkOver_placed {walk : List Path.Step} (hhere : t.Placed here)
    (hwalk : ∀ name, .into name ∈ walk → Path.Proper name)
    (hfollow : ∀ here target rest, t.Placed here →
      (∀ name, .into name ∈ rest → Path.Proper name) → follow here target rest = .ok last →
      t.Placed last)
    (h : t.walkOver follow here walk = .ok last) : t.Placed last := by
  induction walk generalizing here with
  | nil =>
    obtain rfl : here = last := by simpa [walkOver] using h
    exact hhere
  | cons step rest ih =>
    have hrest : ∀ name, .into name ∈ rest → Path.Proper name :=
      fun name hname => hwalk name (List.mem_cons_of_mem _ hname)
    obtain ⟨hdirectory, hgoes⟩ := walkOver_cons_ok h
    rcases hgoes with ⟨-, hon⟩ | ⟨-, hon⟩ | ⟨name, rfl, ⟨target, -, hon⟩ | ⟨hon, -⟩⟩
    · exact ih hhere hrest hon
    · exact ih hhere.dropLast hrest hon
    · exact hfollow here target rest hhere hrest hon
    · exact ih (hhere.into hdirectory (hwalk name List.mem_cons_self)) hrest hon

theorem walkWithin_placed {links : Nat} {walk : List Path.Step} (hhere : t.Placed here)
    (hwalk : ∀ name, .into name ∈ walk → Path.Proper name)
    (h : t.walkWithin links here walk = .ok last) : t.Placed last := by
  induction links generalizing here walk with
  | zero =>
    have hnone : t.walkOver (fun _ _ _ => .error .tooManyLinks) here walk = .ok last := h
    exact walkOver_placed hhere hwalk (fun _ _ _ _ _ hfailed => by cases hfailed) hnone
  | succ links ih =>
    refine walkOver_placed hhere hwalk (fun here target rest hhere hrest hon => ?_) h
    refine ih ?_ (fun name hname => ?_) hon
    · unfold linkStart
      split
      · exact placed_root
      · exact hhere
    · rcases List.mem_append.mp hname with hin | hin
      · exact Path.proper_of_mem_steps hin
      · exact hrest name hin

/-- Steps that go nowhere. -/
theorem walkOver_rests {walk : List Path.Step} (hwalk : ∀ s ∈ walk, s.Rests)
    (h : t.walkOver follow here walk = .ok last) : last = here := by
  induction walk with
  | nil => simpa [walkOver, eq_comm] using h
  | cons step rest ih =>
    have hstep := hwalk step List.mem_cons_self
    obtain ⟨-, hgoes⟩ := walkOver_cons_ok h
    rcases hgoes with ⟨-, hon⟩ | ⟨rfl, -⟩ | ⟨name, rfl, -⟩
    · exact ih (fun s hs => hwalk s (List.mem_cons_of_mem _ hs)) hon
    · simp [Path.Step.Rests] at hstep
    · simp [Path.Step.Rests] at hstep

/-- A walk past directories only goes straight. -/
theorem walkOver_straight {tail : List Path.Step} (htail : ∀ s ∈ tail, s.Rests)
    (hdirectories : ∀ place, place <+: here ++ names → t.IsDirectory place)
    (h : t.walkOver follow here (names.map .into ++ tail) = .ok last) : last = here ++ names := by
  induction names generalizing here with
  | nil =>
    rw [List.append_nil]
    exact walkOver_rests htail h
  | cons name names ih =>
    have hassoc : here ++ name :: names = here ++ [name] ++ names := by simp
    rw [hassoc] at hdirectories ⊢
    obtain ⟨data, hentry⟩ := hdirectories (here ++ [name]) (List.prefix_append _ _)
    obtain ⟨-, hgoes⟩ := walkOver_cons_ok h
    rcases hgoes with ⟨hrests, -⟩ | ⟨hup, -⟩ | ⟨_, hinto, ⟨target, hlink, -⟩ | ⟨hon, -⟩⟩
    · simp [Path.Step.Rests] at hrests
    · cases hup
    · cases hinto
      cases hentry.symm.trans hlink
    · cases hinto
      exact ih hdirectories hon

theorem walkWithin_straight {links : Nat} {tail : List Path.Step} (htail : ∀ s ∈ tail, s.Rests)
    (hdirectories : ∀ place, place <+: names → t.IsDirectory place)
    (h : t.walkWithin links [] (names.map .into ++ tail) = .ok last) : last = names := by
  have hstart : ∀ place, place <+: [] ++ names → t.IsDirectory place := hdirectories
  cases links with
  | zero => exact walkOver_straight htail hstart h
  | succ links => exact walkOver_straight htail hstart h

end Walk

/-! ## Entering a directory -/

theorem walk_of_resolve {path : RawText} (h : t.resolve [] path = .ok names) :
    t.walkWithin maxLinks [] (Path.steps path) = .ok names := by
  have hstart : linkStart [] path = [] := ite_self []
  unfold resolve at h
  rw [hstart] at h
  split at h
  · cases h
  · split at h
    · cases h
    · split at h
      · cases h
      · exact h

theorem resolve_of_find {path : RawText} {o : Object} (h : t.find here path = .ok (names, o)) :
    t.resolve here path = .ok names ∧ t.object? names = some o := by
  unfold find at h
  cases hresolve : t.resolve here path with
  | error failure =>
    rw [hresolve] at h
    cases h
  | ok reached =>
    rw [hresolve] at h
    cases hobject : t.object? reached with
    | none => simp [bind, Except.bind, hobject] at h
    | some found =>
      simp [bind, Except.bind, hobject, pure, Except.pure] at h
      obtain ⟨rfl, rfl⟩ := h
      exact ⟨rfl, hobject⟩

/-- Entering the directory at an absolute path walks along it. -/
theorem walk_of_enter {path directory : RawText} (h : t.enter path = .ok directory) :
    ∃ names, t.walkWithin maxLinks [] (Path.steps path) = .ok names ∧ t.IsDirectory names ∧
      directory = Path.ofNames names := by
  unfold enter at h
  rcases hfind : t.find [] path with failure | ⟨names, o⟩
  · rw [hfind] at h
    cases h
  · rw [hfind] at h
    obtain ⟨hresolve, hobject⟩ := resolve_of_find hfind
    cases o with
    | directory data =>
      refine ⟨names, walk_of_resolve hresolve, ⟨data, hobject⟩, ?_⟩
      exact (Except.ok.inj h).symm
    | file data => cases h
    | link target => cases h

/-- The directory that is entered is given by its canonical path. -/
theorem isCanonical_of_enter {path directory : RawText} (h : t.enter path = .ok directory) :
    t.IsCanonical directory := by
  obtain ⟨names, hwalk, hdirectory, rfl⟩ := walk_of_enter h
  exact ⟨names, rfl, walkWithin_placed placed_root (fun _ => Path.proper_of_mem_steps) hwalk,
    hdirectory⟩

/-- A path whose steps go straight past directories to another. -/
theorem enter_straight {path directory : RawText} (hplaced : t.Placed names)
    (hnames : t.IsDirectory names)
    (hsteps : ∃ tail : List Path.Step, (∀ s ∈ tail, s.Rests) ∧
      Path.steps path = names.map .into ++ tail)
    (h : t.enter path = .ok directory) : directory = Path.ofNames names := by
  obtain ⟨tail, htail, hsteps⟩ := hsteps
  obtain ⟨reached, hwalk, -, rfl⟩ := walk_of_enter h
  rw [hsteps] at hwalk
  rw [walkWithin_straight htail (fun _ => hplaced.isDirectory hnames) hwalk]

section Canonical

variable {path directory : RawText} (hpath : t.IsCanonical path)

include hpath

theorem isAbsolute_canonical : Path.isAbsolute path := by
  obtain ⟨names, rfl, -, -⟩ := hpath
  rfl

/-- A directory that is entered by its canonical path has this path. -/
theorem enter_canonical (h : t.enter path = .ok directory) : directory = path := by
  obtain ⟨names, rfl, hplaced, hdirectory⟩ := hpath
  exact enter_straight hplaced hdirectory (Path.steps_ofNames hplaced.proper) h

theorem enter_canonical_dot (h : t.enter (Path.join path ".") = .ok directory) :
    directory = path := by
  obtain ⟨names, rfl, hplaced, hdirectory⟩ := hpath
  exact enter_straight hplaced hdirectory (Path.steps_join_dot hplaced.proper) h

end Canonical

end Tree

end CommandShell.Files
