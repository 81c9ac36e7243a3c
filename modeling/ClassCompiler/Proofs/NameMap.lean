import ClassCompiler.NameMap

/-!
# Maps by their entries

The entries of a map have different names, so a map has under a name what its entry of that name
says, and an insertion takes out no other entry than the one of its name. A map can be made again
from its entries.
-/

namespace ClassCompiler

namespace NameMap

variable {α : Type} {name : String} {value : α} {entries : List (String × α)}

/-- As names are distinct, looking one up finds every entry of the map. -/
theorem get?_eq_some_iff {map : NameMap α} :
    map.get? name = some value ↔ (name, value) ∈ map.entries := by
  rw [get?, List.lookup_eq_some_iff]
  constructor
  · rintro ⟨before, after, hentries, _⟩
    rw [hentries]
    exact List.mem_append_right before List.mem_cons_self
  · intro hmem
    obtain ⟨before, after, hentries⟩ := List.append_of_mem hmem
    refine ⟨before, after, hentries, ?_⟩
    intro entry hentry
    have sorted := map.sorted
    rw [hentries, List.pairwise_append] at sorted
    have hlt : entry.1 < name := sorted.2.2 entry hentry (name, value) List.mem_cons_self
    simpa using (String.ne_of_lt hlt).symm

theorem filter_ne_of_forall_lt (below : ∀ entry ∈ entries, name < entry.1) :
    entries.filter (·.1 ≠ name) = entries := by
  refine List.filter_eq_self.mpr ?_
  intro entry hentry
  simpa using (String.ne_of_lt (below entry hentry)).symm

/-- Where an entry comes to stand is of no account here, only which entry it replaces. -/
theorem place_perm (value : α)
    (sorted : entries.Pairwise (fun left right => left.1 < right.1)) :
    (place name value entries).Perm ((name, value) :: entries.filter (·.1 ≠ name)) := by
  induction entries with
  | nil => exact .refl _
  | cons first rest ih =>
    obtain ⟨below, hrest⟩ := List.pairwise_cons.mp sorted
    rw [place]
    split
    · next hlt =>
      have hbelow : ∀ entry ∈ first :: rest, name < entry.1 :=
        List.forall_mem_cons.mpr ⟨hlt, fun entry hentry => String.lt_trans hlt (below entry hentry)⟩
      rw [filter_ne_of_forall_lt hbelow]
    · split
      · next heq =>
        rw [List.filter_cons_of_neg (by simpa using heq.symm), heq, filter_ne_of_forall_lt below]
      · next hne =>
        -- the entry goes further down, past one that stays
        rw [List.filter_cons_of_pos (by simpa using Ne.symm hne)]
        exact ((ih hrest).cons first).trans (.swap ..)

/-- What had the name is taken out, and the rest stays. -/
theorem entries_insert_perm (map : NameMap α) (name : String) (value : α) :
    (map.insert name value).entries.Perm ((name, value) :: map.entries.filter (·.1 ≠ name)) :=
  place_perm value map.sorted

theorem place_of_forall_lt (h : ∀ entry ∈ entries, entry.1 < name) (value : α) :
    place name value entries = entries ++ [(name, value)] := by
  induction entries with
  | nil => rfl
  | cons first rest ih =>
    obtain ⟨hfirst, hrest⟩ := List.forall_mem_cons.mp h
    rw [place, if_neg (String.lt_asymm hfirst), if_neg (String.ne_of_lt hfirst).symm, ih hrest]
    rfl

/-- Entries that come in order are put behind one another. -/
theorem entries_foldl_insert (entries : List (String × α)) (map : NameMap α)
    (h : (map.entries ++ entries).Pairwise fun left right => left.1 < right.1) :
    (entries.foldl (fun map entry => map.insert entry.1 entry.2) map).entries =
      map.entries ++ entries := by
  induction entries generalizing map with
  | nil => simp
  | cons first rest ih =>
    have hbelow : ∀ entry ∈ map.entries, entry.1 < first.1 := by
      intro entry hentry
      exact (List.pairwise_append.mp h).2.2 entry hentry first List.mem_cons_self
    have hinsert : (map.insert first.1 first.2).entries = map.entries ++ [first] :=
      place_of_forall_lt hbelow first.2
    have happend : (map.insert first.1 first.2).entries ++ rest = map.entries ++ first :: rest := by
      rw [hinsert, List.append_assoc, List.singleton_append]
    rw [List.foldl_cons, ih _ (happend ▸ h), happend]

theorem get?_ofList_concat (entries : List (String × α)) (name : String) (value : α) :
    (ofList (entries ++ [(name, value)])).get? name = some value := by
  rw [ofList, List.foldl_append, List.foldl_cons, List.foldl_nil]
  exact get?_insert_self _ name value

/-- Entries of other names do not matter. -/
theorem get?_ofList_append (entries : List (String × α)) {others : List (String × α)}
    (h : ∀ entry ∈ others, entry.1 ≠ name) :
    (ofList (entries ++ others)).get? name = (ofList entries).get? name := by
  induction others generalizing entries with
  | nil => rw [List.append_nil]
  | cons first rest ih =>
    rw [List.forall_mem_cons] at h
    have hfirst : ofList (entries ++ [first]) = (ofList entries).insert first.1 first.2 := by
      rw [ofList, List.foldl_append]
      rfl
    rw [List.append_cons, ih _ h.2, hfirst, get?_insert_of_ne _ h.1.symm]

/-- A map is the map of its entries. -/
theorem ofList_entries (map : NameMap α) : ofList map.entries = map := by
  have hentries := entries_foldl_insert map.entries empty map.sorted
  cases map
  exact (NameMap.mk.injEq ..).mpr hentries

end NameMap

end ClassCompiler
