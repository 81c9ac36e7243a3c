/-!
# Sets of names

A set keeps its names in ascending order without repetition. Two sets with the same members are
therefore the same value, and equality of sets is decided by comparing lists. Each operation is
described by the members of its result.
-/

namespace ClassCompiler

/-- A finite set of names, listed in ascending order. -/
structure NameSet where
  names : List String
  sorted : names.Pairwise (· < ·)
deriving DecidableEq

namespace NameSet

def place (name : String) : List String → List String
  | [] => [name]
  | first :: rest =>
    if name < first then name :: first :: rest
    else if name = first then first :: rest
    else first :: place name rest

theorem mem_place {name other : String} {names : List String} :
    other ∈ place name names ↔ other = name ∨ other ∈ names := by
  induction names with
  | nil => simp [place]
  | cons first rest ih =>
    rw [place]
    split
    · simp
    · split
      · next heq => subst heq; simp
      · simp only [List.mem_cons, ih]
        constructor
        · rintro (h | h | h) <;> simp [h]
        · rintro (h | h | h) <;> simp [h]

/-- Putting a name in its place keeps the order, so sets with the same names are equal. -/
theorem sorted_place (name : String) {names : List String} (h : names.Pairwise (· < ·)) :
    (place name names).Pairwise (· < ·) := by
  induction names with
  | nil => simp [place]
  | cons first rest ih =>
    obtain ⟨below, hrest⟩ := List.pairwise_cons.mp h
    rw [place]
    split
    · next hlt =>
      refine List.pairwise_cons.mpr ⟨?_, h⟩
      intro other hother
      rcases List.mem_cons.mp hother with rfl | hother
      · exact hlt
      · exact String.lt_trans hlt (below other hother)
    · next hnlt =>
      split
      · exact h
      · next hne =>
        refine List.pairwise_cons.mpr ⟨?_, ih hrest⟩
        intro other hother
        rcases mem_place.mp hother with rfl | hother
        · refine Decidable.byContradiction fun hn => hne ?_
          exact String.le_antisymm (String.not_lt.mp hn) (String.not_lt.mp hnlt)
        · exact below other hother

def empty : NameSet := ⟨[], .nil⟩

instance : EmptyCollection NameSet := ⟨empty⟩

instance : Inhabited NameSet := ⟨empty⟩

instance : Membership String NameSet := ⟨fun set name => name ∈ set.names⟩

instance (name : String) (set : NameSet) : Decidable (name ∈ set) :=
  inferInstanceAs (Decidable (name ∈ set.names))

def insert (set : NameSet) (name : String) : NameSet :=
  ⟨place name set.names, sorted_place name set.sorted⟩

def ofList (names : List String) : NameSet := names.foldl insert empty

def union (left right : NameSet) : NameSet := right.names.foldl insert left

def diff (left right : NameSet) : NameSet :=
  ⟨left.names.filter (· ∉ right), left.sorted.filter _⟩

def size (set : NameSet) : Nat := set.names.length

theorem mem_mk {name : String} {names : List String} {h : names.Pairwise (· < ·)} :
    name ∈ (⟨names, h⟩ : NameSet) ↔ name ∈ names := Iff.rfl

@[simp] theorem mem_names {name : String} {set : NameSet} : name ∈ set.names ↔ name ∈ set := Iff.rfl

@[simp] theorem not_mem_empty (name : String) : name ∉ (∅ : NameSet) := List.not_mem_nil

@[simp] theorem mem_insert {name other : String} {set : NameSet} :
    other ∈ set.insert name ↔ other = name ∨ other ∈ set := mem_place

theorem mem_foldl_insert {name : String} {names : List String} {set : NameSet} :
    name ∈ names.foldl insert set ↔ name ∈ set ∨ name ∈ names := by
  induction names generalizing set with
  | nil => simp
  | cons first rest ih =>
    simp only [List.foldl_cons, ih, mem_insert, List.mem_cons]
    constructor
    · rintro ((h | h) | h) <;> simp [h]
    · rintro (h | h | h) <;> simp [h]

@[simp] theorem mem_ofList {name : String} {names : List String} :
    name ∈ ofList names ↔ name ∈ names := by
  rw [ofList, mem_foldl_insert]
  exact or_iff_right (not_mem_empty name)

@[simp] theorem mem_union {name : String} {left right : NameSet} :
    name ∈ left.union right ↔ name ∈ left ∨ name ∈ right := mem_foldl_insert

@[simp] theorem mem_diff {name : String} {left right : NameSet} :
    name ∈ left.diff right ↔ name ∈ left ∧ name ∉ right := by
  simp [diff, mem_mk]

end NameSet

end ClassCompiler
