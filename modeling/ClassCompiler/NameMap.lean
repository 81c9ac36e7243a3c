/-!
# Maps keyed by names

A map keeps its entries in ascending order of their names, one entry a name. Two maps with the same
entries are therefore the same value, and listing a map needs no sorting. Each operation is
described by what `get?` finds in its result.
-/

namespace ClassCompiler

/-- A finite map from names, with its entries in ascending order of name. -/
structure NameMap (α : Type) where
  entries : List (String × α)
  sorted : entries.Pairwise (fun left right => left.1 < right.1)
deriving DecidableEq

namespace NameMap

variable {α : Type}

/-- Puts an entry in its place in an ascending list; it replaces an entry of the same name. -/
def place (name : String) (value : α) : List (String × α) → List (String × α)
  | [] => [(name, value)]
  | first :: rest =>
    if name < first.1 then (name, value) :: first :: rest
    else if name = first.1 then (name, value) :: rest
    else first :: place name value rest

theorem mem_place {name : String} {value : α} {entries : List (String × α)} {entry : String × α}
    (h : entry ∈ place name value entries) : entry = (name, value) ∨ entry ∈ entries := by
  induction entries with
  | nil => exact .inl (List.mem_singleton.mp h)
  | cons first rest ih =>
    rw [place] at h
    split at h
    · exact List.mem_cons.mp h
    · split at h
      · exact (List.mem_cons.mp h).imp_right (List.mem_cons_of_mem first)
      · rcases List.mem_cons.mp h with rfl | h
        · exact .inr List.mem_cons_self
        · exact (ih h).imp_right (List.mem_cons_of_mem first)

/-- Putting an entry in its place keeps the order, so maps with the same entries are equal. -/
theorem sorted_place (name : String) (value : α) {entries : List (String × α)}
    (h : entries.Pairwise (fun left right => left.1 < right.1)) :
    (place name value entries).Pairwise (fun left right => left.1 < right.1) := by
  induction entries with
  | nil => simp [place]
  | cons first rest ih =>
    obtain ⟨below, hrest⟩ := List.pairwise_cons.mp h
    rw [place]
    split
    · next hlt =>
      refine List.pairwise_cons.mpr ⟨?_, h⟩
      intro other hother
      rcases List.mem_cons.mp hother with rfl | hother
      · exact hlt
      · exact String.lt_trans hlt (below other hother)
    · next hnlt =>
      split
      · next heq =>
        refine List.pairwise_cons.mpr ⟨?_, hrest⟩
        intro other hother
        exact heq ▸ below other hother
      · next hne =>
        refine List.pairwise_cons.mpr ⟨?_, ih hrest⟩
        intro other hother
        rcases mem_place hother with rfl | hother
        · refine Decidable.byContradiction fun hn => hne ?_
          exact String.le_antisymm (String.not_lt.mp hn) (String.not_lt.mp hnlt)
        · exact below other hother

def empty : NameMap α := ⟨[], .nil⟩

instance : EmptyCollection (NameMap α) := ⟨empty⟩

instance : Inhabited (NameMap α) := ⟨empty⟩

def insert (map : NameMap α) (name : String) (value : α) : NameMap α :=
  ⟨place name value map.entries, sorted_place name value map.sorted⟩

def get? (map : NameMap α) (name : String) : Option α := map.entries.lookup name

/-- The map of a list of entries, where the last entry of a name counts. -/
def ofList (entries : List (String × α)) : NameMap α :=
  entries.foldl (fun map entry => map.insert entry.1 entry.2) empty

def keys (map : NameMap α) : List String := map.entries.map (·.1)

def values (map : NameMap α) : List α := map.entries.map (·.2)

theorem lookup_place_self (name : String) (value : α) (entries : List (String × α)) :
    (place name value entries).lookup name = some value := by
  induction entries with
  | nil => simp [place]
  | cons first rest ih =>
    rw [place]
    split
    · simp
    · split
      · simp
      · next hne =>
        have hbeq : (name == first.1) = false := by simpa using hne
        rw [List.lookup_cons, hbeq]
        exact ih

/-- An entry of another name is found as before. -/
theorem lookup_place_of_ne {name other : String} (hne : other ≠ name) (value : α)
    (entries : List (String × α)) :
    (place name value entries).lookup other = entries.lookup other := by
  have hbeq : (other == name) = false := by simpa using hne
  induction entries with
  | nil => simp [place, List.lookup_cons, hbeq]
  | cons first rest ih =>
    rw [place]
    split
    · rw [List.lookup_cons, hbeq]
    · split
      · next heq => rw [List.lookup_cons, hbeq, List.lookup_cons, ← heq, hbeq]
      · rw [List.lookup_cons, List.lookup_cons, ih]

@[simp] theorem get?_empty (name : String) : (∅ : NameMap α).get? name = none := rfl

@[simp] theorem get?_insert_self (map : NameMap α) (name : String) (value : α) :
    (map.insert name value).get? name = some value := lookup_place_self name value map.entries

theorem get?_insert_of_ne (map : NameMap α) {name other : String} (hne : other ≠ name) (value : α) :
    (map.insert name value).get? other = map.get? other := lookup_place_of_ne hne value map.entries

end NameMap

end ClassCompiler
