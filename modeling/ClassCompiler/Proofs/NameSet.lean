import ClassCompiler.NameSet

/-!
# Sets of names by their members

A set is determined by its members, and a set that has members besides those of another is larger.
-/

namespace ClassCompiler

namespace NameSet

theorem nodup (set : NameSet) : set.names.Nodup := by
  refine set.sorted.imp ?_
  intro left right hlt heq
  exact String.lt_irrefl right (heq ▸ hlt)

theorem ext {left right : NameSet} (h : ∀ name, name ∈ left ↔ name ∈ right) : left = right := by
  have perm : left.names.Perm right.names :=
    (List.perm_ext_iff_of_nodup left.nodup right.nodup).mpr h
  have heq : left.names = right.names := by
    refine perm.eq_of_pairwise ?_ left.sorted right.sorted
    intro a b _ _ hab hba
    exact absurd (String.lt_trans hab hba) (String.lt_irrefl a)
  cases left
  cases right
  cases heq
  rfl

theorem size_le {left right : NameSet} (h : ∀ name ∈ left, name ∈ right) :
    left.size ≤ right.size :=
  left.nodup.length_le_of_subset h

/-- A set that grows has more names. Counting relies on each name being listed once. -/
theorem size_lt {left right : NameSet} (h : ∀ name ∈ left, name ∈ right) (hne : left ≠ right) :
    left.size < right.size := by
  have missing : ∃ name ∈ right, name ∉ left := by
    refine Classical.byContradiction fun none => hne ?_
    refine ext fun name => ⟨h name, fun hright => ?_⟩
    refine Classical.byContradiction fun hleft => none ⟨name, hright, hleft⟩
  obtain ⟨name, hright, hleft⟩ := missing
  have longer : (name :: left.names).length ≤ right.names.length := by
    refine (List.nodup_cons.mpr ⟨hleft, left.nodup⟩).length_le_of_subset ?_
    intro other hother
    rcases List.mem_cons.mp hother with rfl | hother
    · exact hright
    · exact h other hother
  exact longer

end NameSet

end ClassCompiler
