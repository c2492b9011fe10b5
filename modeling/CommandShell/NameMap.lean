/-
# CommandShell.NameMap -- finite maps from names, in the order of the names

Variables, commands and options are all kept by name and always shown sorted. A `NameMap` is a list
of entries whose names strictly increase, so a map has one representation only: two maps that answer
every lookup alike are equal, whatever was done to build them.

Main statements: `get?_insert` and `get?_erase` describe the operations through lookup, and `ext`
says that lookup determines the map.
-/

namespace CommandShell

/-- A map from names to values; the names of its entries strictly increase. -/
structure NameMap (α : Type) where
  entries : List (String × α)
  sorted : entries.Pairwise (fun a b => a.1 < b.1)

namespace NameMap

variable {α : Type}

/-! ## Sorted lists of entries -/

/-- The value of a name in a list of entries. -/
def find (name : String) : List (String × α) → Option α
  | [] => none
  | (key, a) :: rest => if key = name then some a else find name rest

/-- Puts an entry in its place, over an entry of the same name. -/
def put (name : String) (a : α) : List (String × α) → List (String × α)
  | [] => [(name, a)]
  | (key, b) :: rest =>
    if name < key then (name, a) :: (key, b) :: rest
    else if name = key then (name, a) :: rest
    else (key, b) :: put name a rest

theorem mem_put {name : String} {a : α} {e : String × α} {entries : List (String × α)}
    (h : e ∈ put name a entries) : e = (name, a) ∨ e ∈ entries := by
  induction entries with
  | nil => simpa [put] using h
  | cons head rest ih =>
    obtain ⟨key, b⟩ := head
    simp only [put] at h
    split at h
    · simpa using h
    · split at h
      · rcases List.mem_cons.mp h with h | h
        · exact Or.inl h
        · exact Or.inr (List.mem_cons_of_mem _ h)
      · rcases List.mem_cons.mp h with h | h
        · exact Or.inr (h ▸ List.mem_cons_self)
        · exact (ih h).imp id (List.mem_cons_of_mem _)

theorem sorted_put {name : String} {a : α} {entries : List (String × α)}
    (h : entries.Pairwise (fun a b => a.1 < b.1)) :
    (put name a entries).Pairwise (fun a b => a.1 < b.1) := by
  induction entries with
  | nil => simp [put]
  | cons head rest ih =>
    obtain ⟨key, b⟩ := head
    have tail := List.pairwise_cons.mp h
    simp only [put]
    split
    · next below =>
      refine List.pairwise_cons.mpr ⟨fun e he => ?_, h⟩
      rcases List.mem_cons.mp he with rfl | he
      · exact below
      · exact String.lt_trans below (tail.1 e he)
    · next notBelow =>
      split
      · next same =>
        subst same
        exact List.pairwise_cons.mpr ⟨tail.1, tail.2⟩
      · next differs =>
        refine List.pairwise_cons.mpr ⟨fun e he => ?_, ih tail.2⟩
        rcases mem_put he with rfl | he
        · apply String.not_le.mp
          intro above
          exact differs (String.le_antisymm above (String.not_lt.mp notBelow))
        · exact tail.1 e he

theorem find_put (name other : String) (a : α) (entries : List (String × α)) :
    find other (put name a entries) = if name = other then some a else find other entries := by
  induction entries with
  | nil => simp [put, find]
  | cons head rest ih =>
    obtain ⟨key, b⟩ := head
    simp only [put]
    split
    · simp [find]
    · split
      · next same => subst same; simp only [find]; split <;> rfl
      · next differs =>
        simp only [find, ih]
        by_cases hk : key = other
        · subst hk; simp [differs]
        · simp [hk]

theorem find_eq_none_of_lt {name : String} {entries : List (String × α)}
    (h : ∀ e ∈ entries, name < e.1) : find name entries = none := by
  induction entries with
  | nil => rfl
  | cons head rest ih =>
    have first := h head List.mem_cons_self
    have differs : head.1 ≠ name := fun same => String.lt_irrefl _ (same ▸ first)
    simp only [find, if_neg differs]
    exact ih (fun e he => h e (List.mem_cons_of_mem _ he))

theorem find_filter {name other : String} (entries : List (String × α)) :
    find other (entries.filter (fun e => e.1 != name)) =
      if name = other then none else find other entries := by
  induction entries with
  | nil => simp [find]
  | cons head rest ih =>
    obtain ⟨key, b⟩ := head
    by_cases hk : key = name
    · subst hk
      simp only [List.filter, bne_self_eq_false, find, ih]
      by_cases ho : key = other <;> simp [ho]
    · have kept : (key != name) = true := by simpa using hk
      simp only [List.filter, kept, find, ih]
      by_cases ho : key = other
      · subst ho; simp [Ne.symm hk]
      · simp [ho]

theorem eq_of_find_eq {xs ys : List (String × α)}
    (hx : xs.Pairwise (fun a b => a.1 < b.1)) (hy : ys.Pairwise (fun a b => a.1 < b.1))
    (h : ∀ name, find name xs = find name ys) : xs = ys := by
  induction xs generalizing ys with
  | nil =>
    cases ys with
    | nil => rfl
    | cons y ys => have := h y.1; simp [find] at this
  | cons x xs ih =>
    cases ys with
    | nil => have := h x.1; simp [find] at this
    | cons y ys =>
      have hx' := List.pairwise_cons.mp hx
      have hy' := List.pairwise_cons.mp hy
      have notLess : ∀ {a b : String × α} {as bs : List (String × α)},
          (∀ e ∈ bs, b.1 < e.1) → find a.1 (a :: as) = find a.1 (b :: bs) → ¬ a.1 < b.1 := by
        intro a b as bs hb same less
        have : find a.1 (b :: bs) = none := by
          apply find_eq_none_of_lt
          intro e he
          rcases List.mem_cons.mp he with rfl | he
          · exact less
          · exact String.lt_trans less (hb e he)
        rw [this] at same
        simp [find] at same
      have key : x.1 = y.1 := String.le_antisymm
        (String.not_lt.mp (notLess hx'.1 (h y.1).symm)) (String.not_lt.mp (notLess hy'.1 (h x.1)))
      have value : x.2 = y.2 := by
        have := h x.1
        simpa [find, key] using this
      have tails : ∀ name, find name xs = find name ys := by
        intro name
        by_cases hn : x.1 = name
        · subst hn
          rw [find_eq_none_of_lt hx'.1, find_eq_none_of_lt (key ▸ hy'.1)]
        · have := h name
          simpa [find, hn, key ▸ hn] using this
      rw [ih hx'.2 hy'.2 tails, Prod.ext key value]

/-! ## Maps -/

/-- The map without entries. -/
def empty : NameMap α := ⟨[], List.Pairwise.nil⟩

instance : EmptyCollection (NameMap α) := ⟨empty⟩

/-- The value of a name. -/
def get? (m : NameMap α) (name : String) : Option α := find name m.entries

/-- Sets the value of a name. -/
def insert (m : NameMap α) (name : String) (a : α) : NameMap α :=
  ⟨put name a m.entries, sorted_put m.sorted⟩

/-- Removes a name. -/
def erase (m : NameMap α) (name : String) : NameMap α :=
  ⟨m.entries.filter (fun e => e.1 != name), m.sorted.filter _⟩

/-- Whether a name has a value. -/
def contains (m : NameMap α) (name : String) : Bool := (m.get? name).isSome

/-- The names, in order. -/
def names (m : NameMap α) : List String := m.entries.map Prod.fst

/-- The map with the given entries; of two with one name the later one counts. -/
def ofList (entries : List (String × α)) : NameMap α :=
  entries.foldl (fun m e => m.insert e.1 e.2) empty

@[simp] theorem get?_empty (name : String) : (empty : NameMap α).get? name = none := rfl

theorem get?_insert (m : NameMap α) (name other : String) (a : α) :
    (m.insert name a).get? other = if name = other then some a else m.get? other :=
  find_put name other a m.entries

theorem get?_erase (m : NameMap α) (name other : String) :
    (m.erase name).get? other = if name = other then none else m.get? other :=
  find_filter m.entries

/-- Lookup determines a map. -/
theorem ext {m n : NameMap α} (h : ∀ name, m.get? name = n.get? name) : m = n := by
  obtain ⟨xs, hx⟩ := m
  obtain ⟨ys, hy⟩ := n
  have : xs = ys := eq_of_find_eq hx hy h
  subst this
  rfl

/-- The names of a map strictly increase. -/
theorem names_sorted (m : NameMap α) : m.names.Pairwise (· < ·) :=
  List.pairwise_map.mpr m.sorted

end NameMap

end CommandShell
