/-!
Tables from names to values that remember in which order the names came. A name that is already in
the table keeps its place when it gets a new value.
-/
namespace IntLang

/-- Gives a name a value: in its place if it has one, and at the end otherwise. -/
def putEntry (name : String) (value : α) : List (String × α) → List (String × α)
  | [] => [(name, value)]
  | (n, v) :: rest =>
    if n = name then (name, value) :: rest else (n, v) :: putEntry name value rest

theorem names_putEntry (name : String) (value : α) (entries : List (String × α)) :
    (putEntry name value entries).map Prod.fst =
      if name ∈ entries.map Prod.fst then entries.map Prod.fst
      else entries.map Prod.fst ++ [name] := by
  induction entries with
  | nil => simp [putEntry]
  | cons entry rest ih =>
    obtain ⟨n, v⟩ := entry
    by_cases h : n = name
    · simp [putEntry, h]
    · have hne : ¬name = n := fun heq => h heq.symm
      by_cases hmem : name ∈ rest.map Prod.fst
      · simp only [putEntry, h, if_false, List.map_cons, ih, hmem, if_true, List.mem_cons, or_true]
      · simp only [putEntry, h, if_false, List.map_cons, ih, hmem, List.mem_cons, hne, or_self,
          List.cons_append]

theorem nodup_names_putEntry {name : String} {value : α} {entries : List (String × α)}
    (h : (entries.map Prod.fst).Nodup) : ((putEntry name value entries).map Prod.fst).Nodup := by
  rw [names_putEntry]
  split
  · exact h
  · next hnot =>
    refine List.nodup_append.mpr ⟨h, by simp, fun a ha b hb => ?_⟩
    rw [List.mem_singleton] at hb
    rintro rfl
    exact hnot (hb ▸ ha)

theorem lookup_putEntry_self (name : String) (value : α) (entries : List (String × α)) :
    (putEntry name value entries).lookup name = some value := by
  induction entries with
  | nil => simp [putEntry]
  | cons entry rest ih =>
    obtain ⟨n, v⟩ := entry
    by_cases h : n = name
    · simp [putEntry, h]
    · have hne : (name == n) = false := beq_false_of_ne fun heq => h heq.symm
      simp only [putEntry, h, if_false, List.lookup_cons, hne, ih]

theorem lookup_putEntry_of_ne {name other : String} (h : other ≠ name) (value : α)
    (entries : List (String × α)) :
    (putEntry name value entries).lookup other = entries.lookup other := by
  have hne : (other == name) = false := beq_false_of_ne h
  induction entries with
  | nil => simp [putEntry, List.lookup_cons, hne]
  | cons entry rest ih =>
    obtain ⟨n, v⟩ := entry
    by_cases hn : n = name
    · subst hn
      simp only [putEntry, if_true, List.lookup_cons, hne]
    · simp only [putEntry, hn, if_false, List.lookup_cons, ih]

theorem isSome_lookup_iff {name : String} {entries : List (String × α)} :
    (entries.lookup name).isSome = true ↔ name ∈ entries.map Prod.fst := by
  induction entries with
  | nil => simp
  | cons entry rest ih =>
    obtain ⟨n, v⟩ := entry
    by_cases h : name = n
    · simp [h]
    · have hne : (name == n) = false := beq_false_of_ne h
      simp only [List.lookup_cons, hne, ih, List.map_cons, List.mem_cons, h, false_or]

/-- Names with values, in the order in which the names first came. No name comes twice. -/
@[ext]
structure Table (α : Type) where
  entries : List (String × α)
  nodup_names : (entries.map Prod.fst).Nodup

namespace Table

def empty : Table α := ⟨[], by simp⟩

def names (t : Table α) : List String := t.entries.map Prod.fst

def size (t : Table α) : Nat := t.entries.length

def get? (t : Table α) (name : String) : Option α := t.entries.lookup name

def contains (t : Table α) (name : String) : Bool := (t.get? name).isSome

def insert (t : Table α) (name : String) (value : α) : Table α :=
  ⟨putEntry name value t.entries, nodup_names_putEntry t.nodup_names⟩

theorem contains_iff {t : Table α} {name : String} : t.contains name = true ↔ name ∈ t.names :=
  isSome_lookup_iff

/-- A new name comes last, and a known one keeps its place. -/
theorem names_insert (t : Table α) (name : String) (value : α) :
    (t.insert name value).names = if name ∈ t.names then t.names else t.names ++ [name] :=
  names_putEntry name value t.entries

theorem get?_insert_self (t : Table α) (name : String) (value : α) :
    (t.insert name value).get? name = some value :=
  lookup_putEntry_self name value t.entries

theorem get?_insert_of_ne {name other : String} (h : other ≠ name) (t : Table α) (value : α) :
    (t.insert name value).get? other = t.get? other :=
  lookup_putEntry_of_ne h value t.entries

end Table

end IntLang
