/-!
# Tables of named values

A table gives each of finitely many names one value.  Its whole meaning is
`find?`; `find?_insert` says what an insertion changes.  The latest insertion
stands first in `entries`, and every name occurs there once.
-/

namespace GrammarRepair

/-- Finitely many names, each with one value. -/
structure Table (α : Type) where
  entries : List (String × α) := []
  nodup : (entries.map Prod.fst).Nodup := by simp

namespace Table

variable {α : Type}

/-- The table without names. -/
def empty : Table α := {}

instance : Inhabited (Table α) := ⟨empty⟩

/-- The value of a name, if it has one. -/
def find? (table : Table α) (name : String) : Option α :=
  table.entries.lookup name

/-- Whether a name has a value. -/
def contains (table : Table α) (name : String) : Bool :=
  (table.find? name).isSome

/-- Give a name a value, in place of any earlier one. -/
def insert (table : Table α) (name : String) (value : α) : Table α where
  entries := (name, value) :: table.entries.filter (·.1 != name)
  nodup := by
    refine List.nodup_cons.mpr ⟨fun hmem => ?_, ?_⟩
    · obtain ⟨entry, hentry, hname⟩ := List.mem_map.mp hmem
      simp [hname] at hentry
    · exact table.nodup.sublist ((List.filter_sublist (p := fun e => e.1 != name)).map Prod.fst)

/-- The names that have a value. -/
def names (table : Table α) : List String :=
  table.entries.map Prod.fst

/-- How many names have a value. -/
def size (table : Table α) : Nat :=
  table.entries.length

/-- Whether no name has a value. -/
def isEmpty (table : Table α) : Bool :=
  table.entries.isEmpty

@[simp] theorem find?_empty (name : String) : (empty : Table α).find? name = none := rfl

/-- Filtering out one key leaves every other look-up alone. -/
theorem lookup_filter_ne
    (entries : List (String × α)) {name other : String} (hne : other ≠ name) :
    (entries.filter (·.1 != name)).lookup other = entries.lookup other := by
  induction entries with
  | nil => rfl
  | cons entry entries ih =>
      obtain ⟨key, value⟩ := entry
      by_cases hkey : key = name
      · have hother : (other == key) = false := by simpa [hkey] using hne
        simp [hkey, List.lookup_cons, ih, hkey ▸ hother]
      · simp [hkey, List.lookup_cons, ih]

theorem find?_insert (table : Table α) (name : String) (value : α) (other : String) :
    (table.insert name value).find? other =
      if other = name then some value else table.find? other := by
  by_cases hne : other = name
  · simp [find?, insert, hne]
  · have hbeq : (other == name) = false := by simpa using hne
    simp [find?, insert, List.lookup_cons, hbeq, hne, lookup_filter_ne _ hne]

@[simp] theorem find?_insert_self (table : Table α) (name : String) (value : α) :
    (table.insert name value).find? name = some value := by
  simp [find?_insert]

theorem find?_insert_of_ne
    (table : Table α) {name other : String} (value : α) (hne : other ≠ name) :
    (table.insert name value).find? other = table.find? other := by
  simp [find?_insert, hne]

theorem contains_insert_iff (table : Table α) (name : String) (value : α) (other : String) :
    (table.insert name value).contains other = true ↔
      other = name ∨ table.contains other = true := by
  rw [contains, find?_insert, contains]
  split
  · rename_i heq
    simp [heq]
  · rename_i hne
    simp [hne]

/-- A name and its value stand in the entries. -/
theorem mem_entries_of_find?
    {table : Table α} {name : String} {value : α} (hfind : table.find? name = some value) :
    (name, value) ∈ table.entries := by
  simp only [find?] at hfind
  generalize table.entries = entries at hfind ⊢
  induction entries with
  | nil => simp at hfind
  | cons entry entries ih =>
      obtain ⟨key, first⟩ := entry
      rw [List.lookup_cons] at hfind
      split at hfind
      · rename_i hkey
        simp_all
      · exact List.mem_cons_of_mem _ (ih hfind)

/-- An entry is found under its name. -/
theorem find?_of_mem_entries
    {table : Table α} {name : String} {value : α} (hmem : (name, value) ∈ table.entries) :
    table.find? name = some value := by
  obtain ⟨entries, hnodup⟩ := table
  simp only [find?] at *
  induction entries with
  | nil => simp at hmem
  | cons entry entries ih =>
      obtain ⟨key, first⟩ := entry
      rw [List.map_cons, List.nodup_cons] at hnodup
      rw [List.lookup_cons]
      rcases List.mem_cons.mp hmem with heq | hlater
      · cases heq
        simp
      · have hne : name ≠ key := by
          rintro rfl
          exact hnodup.1 (List.mem_map.mpr ⟨_, hlater, rfl⟩)
        simp [beq_eq_false_iff_ne.mpr hne, ih hnodup.2 hlater]

theorem mem_names_iff (table : Table α) (name : String) :
    name ∈ table.names ↔ (table.find? name).isSome = true := by
  constructor
  · intro hmem
    obtain ⟨⟨key, value⟩, hentry, rfl⟩ := List.mem_map.mp hmem
    simp [find?_of_mem_entries hentry]
  · intro hsome
    obtain ⟨value, hvalue⟩ := Option.isSome_iff_exists.mp hsome
    exact List.mem_map.mpr ⟨_, mem_entries_of_find? hvalue, rfl⟩

end Table
end GrammarRepair
