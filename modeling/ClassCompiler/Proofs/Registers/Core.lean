import Mathlib.Order.Bounds.Basic
import ClassCompiler.Proofs.Registers.Selection

/-!
# What cannot be colored

A set of vertices each of which has as many neighbors in the set as there are colors resists taking:
none of its vertices can be the first of them to be taken. Whatever the order in which vertices are
taken, the vertices that are left in the end are therefore the same, the largest such set. Coloring
fails exactly if that set is not empty, and it reports how large the set is.
-/

namespace ClassCompiler.Registers

variable {graph : InterferenceGraph} {bound : Nat} {set left : Finset Nat}

/-- Vertices each of which has at least `bound` neighbors among them. -/
def InterferenceGraph.Dense (graph : InterferenceGraph) (bound : Nat) (set : Finset Nat) : Prop :=
  ∀ index ∈ set, index < graph.size ∧ bound ≤ graph.degreeIn set index

/-- Vertices that are left when others are taken one by one, in any order, each of them while fewer
than `bound` of its neighbors are left. -/
inductive Leaves (graph : InterferenceGraph) (bound : Nat) : Finset Nat → Prop where
  | all : Leaves graph bound (Finset.range graph.size)
  | take {left : Finset Nat} {index : Nat} (h : Leaves graph bound left) (hindex : index ∈ left)
    (few : graph.degreeIn left index < bound) : Leaves graph bound (left.erase index)

namespace Leaves

theorem lt_size (h : Leaves graph bound left) : ∀ index ∈ left, index < graph.size := by
  induction h with
  | all => exact fun index hindex => Finset.mem_range.mp hindex
  | take _ _ _ ih => exact fun index hindex => ih index (Finset.mem_of_mem_erase hindex)

/-- No vertex of a dense set is ever taken. -/
theorem dense_subset (h : Leaves graph bound left) (dense : graph.Dense bound set) :
    set ⊆ left := by
  induction h with
  | all => exact fun index hindex => Finset.mem_range.mpr (dense index hindex).1
  | @take left taken _ _ few ih =>
    intro index hindex
    refine Finset.mem_erase.mpr ⟨?_, ih hindex⟩
    rintro rfl
    -- the first to be taken would have all its neighbors in the set left
    have hmany := Nat.le_trans (dense index hindex).2 (InterferenceGraph.degreeIn_mono ih index)
    omega

/-- Vertices that are left and of which none can be taken are the largest dense set. -/
theorem isGreatest (h : Leaves graph bound left)
    (stuck : ∀ index ∈ left, bound ≤ graph.degreeIn left index) :
    IsGreatest {set | graph.Dense bound set} left :=
  ⟨fun index hindex => ⟨h.lt_size index hindex, stuck index hindex⟩,
    fun _ dense => h.dense_subset dense⟩

end Leaves

theorem leaves_ofGraph (graph : InterferenceGraph) (bound : Nat) :
    Leaves graph bound (Simplifying.ofGraph graph).left.toFinset := by
  have hset : (Simplifying.ofGraph graph).left.toFinset = Finset.range graph.size := by
    ext index
    simp [Simplifying.ofGraph]
  rw [hset]
  exact .all

theorem leaves_take {state : Simplifying} {index : Nat} (faithful : state.Faithful graph)
    (h : Leaves graph bound state.left.toFinset) (hnext : state.next? bound = some index) :
    Leaves graph bound (state.take graph index).left.toFinset := by
  obtain ⟨hindex, hdegree⟩ := Simplifying.next?_eq_some hnext
  rw [faithful.degree_eq hindex] at hdegree
  rw [faithful.toFinset_take]
  exact h.take (List.mem_toFinset.mpr hindex) hdegree

theorem le_degreeIn_of_next? {state : Simplifying} (faithful : state.Faithful graph)
    (h : state.next? bound = none) :
    ∀ index ∈ state.left.toFinset, bound ≤ graph.degreeIn state.left.toFinset index := by
  intro index hindex
  have hleft := List.mem_toFinset.mp hindex
  rw [← faithful.degree_eq hleft]
  simpa using List.find?_eq_none.mp h index hleft

/-- Coloring leaves the largest dense set. -/
theorem exists_core (simple : graph.Simple) (bound : Nat) :
    ∃ core, IsGreatest {set | graph.Dense bound set} core ∧
      (core = ∅ ∧ (∃ colors, color graph bound = .ok colors) ∨
        core.Nonempty ∧ color graph bound = .error (.noLowDegree core.card bound)) := by
  obtain ⟨final, faithful, leaves, hends⟩ := color_ends simple
    (P := fun state => Leaves graph bound state.left.toFinset)
    (fun state index faithful leaves hnext => leaves_take faithful leaves hnext)
    (leaves_ofGraph graph bound)
  rcases hends with ⟨hleft, hok⟩ | ⟨hleft, hnext, herror⟩
  · have hempty : final.left.toFinset = ∅ := by rw [hleft]; rfl
    refine ⟨final.left.toFinset, leaves.isGreatest ?_, .inl ⟨hempty, hok⟩⟩
    simp [hempty]
  · refine ⟨final.left.toFinset, leaves.isGreatest (le_degreeIn_of_next? faithful hnext), .inr ?_⟩
    rw [List.toFinset_card_of_nodup faithful.nodup]
    exact ⟨(List.toFinset_nonempty_iff _).mpr hleft, herror⟩

/-- Coloring of a graph that additions have built fails exactly if some vertices, at least one, all
have `bound` or more neighbors among them. It then says how many vertices the largest such set has.
This does not depend on the order in which vertices are taken: in any order, the vertices left when
none can be taken are the largest dense set. -/
theorem color_error_iff_dense (additions : List InterferenceGraph.Addition) (bound : Nat) :
    let graph := InterferenceGraph.ofAdditions additions
    ((∃ fault, color graph bound = .error fault) ↔
      ∃ set : Finset Nat, set.Nonempty ∧ graph.Dense bound set) ∧
    (∀ fault, color graph bound = .error fault →
      ∃ core : Finset Nat, IsGreatest {set | set.Nonempty ∧ graph.Dense bound set} core ∧
        fault = .noLowDegree core.card bound) ∧
    ∀ left, Leaves graph bound left → (∀ index ∈ left, bound ≤ graph.degreeIn left index) →
      IsGreatest {set | graph.Dense bound set} left := by
  intro graph
  have simple : graph.Simple := InterferenceGraph.simple_ofAdditions additions
  obtain ⟨core, ⟨hdense, hgreatest⟩, hends⟩ := exists_core simple bound
  refine ⟨?_, fun fault h => ?_, fun left leaves stuck => leaves.isGreatest stuck⟩
  · rcases hends with ⟨rfl, colors, hok⟩ | ⟨hnonempty, herror⟩
    · constructor
      · rintro ⟨fault, herror⟩
        rw [hok] at herror
        cases herror
      · rintro ⟨set, ⟨index, hindex⟩, dense⟩
        exact absurd (hgreatest dense hindex) (Finset.notMem_empty index)
    · exact ⟨fun _ => ⟨core, hnonempty, hdense⟩, fun _ => ⟨_, herror⟩⟩
  · rcases hends with ⟨_, colors, hok⟩ | ⟨hnonempty, herror⟩
    · rw [hok] at h
      cases h
    · rw [herror] at h
      cases h
      exact ⟨core, ⟨⟨hnonempty, hdense⟩, fun set hset => hgreatest hset.2⟩, rfl⟩

theorem color_error_wheel :
    color (.ofAdditions wheel) 3 = .error (.noLowDegree 6 3) ∧
      (∃ set : Finset Nat, set.Nonempty ∧ (InterferenceGraph.ofAdditions wheel).Dense 3 set) ∧
      (∃ core : Finset Nat,
        IsGreatest {set | set.Nonempty ∧ (InterferenceGraph.ofAdditions wheel).Dense 3 set} core ∧
          core.card = 6) ∧
      Leaves (.ofAdditions wheel) 3 ((Finset.range 7).erase 6) ∧
      IsGreatest {set | (InterferenceGraph.ofAdditions wheel).Dense 3 set}
        ((Finset.range 7).erase 6) := by
  obtain ⟨hiff, hcore, horder⟩ := color_error_iff_dense wheel 3
  have herror : color (.ofAdditions wheel) 3 = .error (.noLowDegree 6 3) := by decide +kernel
  have hsize : (InterferenceGraph.ofAdditions wheel).size = 7 := by decide +kernel
  have hall : Leaves (.ofAdditions wheel) 3 (Finset.range 7) := hsize ▸ .all
  have hleaves : Leaves (.ofAdditions wheel) 3 ((Finset.range 7).erase 6) :=
    hall.take (by decide) (by decide +kernel)
  refine ⟨herror, hiff.mp ⟨_, herror⟩, ?_, hleaves, horder _ hleaves (by decide +kernel)⟩
  obtain ⟨core, hgreatest, hfault⟩ := hcore _ herror
  exact ⟨core, hgreatest, (ColoringFault.noLowDegree.inj hfault).1.symm⟩

end ClassCompiler.Registers
