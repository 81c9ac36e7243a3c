import Mathlib.Data.Finset.Card
import ClassCompiler.Proofs.Registers.Coloring

/-!
# Taking vertices away

While vertices are taken, the degree kept for a vertex that is left is the number of its neighbors
that are left. No degree is therefore taken below zero, and taking comes to one of two ends: nothing
is left, or every vertex that is left has too many neighbors among those left.
-/

namespace ClassCompiler.Registers

namespace InterferenceGraph

inductive Addition where
  | vertex (name : String)
  | edge (left right : String)
deriving DecidableEq

def add (graph : InterferenceGraph) : Addition → InterferenceGraph
  | .vertex name => (graph.addVertex name).1
  | .edge left right => graph.addEdge left right

def ofAdditions (additions : List Addition) : InterferenceGraph := additions.foldl add empty

theorem sorted_placeNumber (number : Nat) {numbers : List Nat} (h : numbers.Pairwise (· < ·)) :
    (placeNumber number numbers).Pairwise (· < ·) := by
  induction numbers with
  | nil => simp [placeNumber]
  | cons first rest ih =>
    obtain ⟨below, hrest⟩ := List.pairwise_cons.mp h
    rw [placeNumber]
    split
    · next hlt =>
      refine List.pairwise_cons.mpr ⟨?_, h⟩
      intro other hother
      rcases List.mem_cons.mp hother with rfl | hother
      · exact hlt
      · exact Nat.lt_trans hlt (below other hother)
    · split
      · exact h
      · refine List.pairwise_cons.mpr ⟨?_, ih hrest⟩
        intro other hother
        rcases mem_placeNumber.mp hother with rfl | hother
        · omega
        · exact below other hother

/-- A sound graph in which no neighbor is listed twice. -/
structure Simple (graph : InterferenceGraph) : Prop extends Sound graph where
  ascending : ∀ i, (graph.neighbors i).Pairwise (· < ·)

variable {graph : InterferenceGraph}

theorem Simple.nodup (simple : graph.Simple) (i : Nat) : (graph.neighbors i).Nodup :=
  (simple.ascending i).imp Nat.ne_of_lt

theorem ascending_link (h : ∀ i, (graph.neighbors i).Pairwise (· < ·)) (i j k : Nat) :
    ((graph.link i j).neighbors k).Pairwise (· < ·) := by
  have hk := h k
  simp only [neighbors, link, List.getD_eq_getElem?_getD, List.getElem?_modify] at hk ⊢
  cases hneighbors : graph.adjacency[k]? with
  | none => simp
  | some neighbors =>
    rw [hneighbors] at hk
    by_cases heq : i = k
    · simpa [heq] using sorted_placeNumber j hk
    · simpa [heq] using hk

def Addition.Joins : Addition → String → String → Prop
  | .vertex _ => fun _ _ => False
  | .edge left right => NewEdge left right

theorem extends_add (addition : Addition) : Extends graph (graph.add addition) addition.Joins := by
  cases addition with
  | vertex name => exact graph.extends_addVertex name
  | edge left right => exact graph.extends_addEdge left right

/-- Variables interfere exactly if an edge between them has been added. -/
theorem interferes_ofAdditions {additions : List Addition} {a b : String} :
    (ofAdditions additions).interferes a b = true ↔
      a ≠ b ∧ (.edge a b ∈ additions ∨ .edge b a ∈ additions) := by
  rw [ofAdditions, (Extends.foldl (fun graph => graph.extends_add) additions empty).interferes_iff
    sound_empty]
  constructor
  · rintro (h | ⟨addition, hmem, hjoins⟩)
    · cases h
    · cases addition with
      | vertex name => cases hjoins
      | edge left right =>
        obtain ⟨hne, ⟨rfl, rfl⟩ | ⟨rfl, rfl⟩⟩ := hjoins
        · exact ⟨hne, .inl hmem⟩
        · exact ⟨hne.symm, .inr hmem⟩
  · rintro ⟨hne, hmem | hmem⟩
    · exact .inr ⟨_, hmem, hne, .inl ⟨rfl, rfl⟩⟩
    · exact .inr ⟨_, hmem, hne.symm, .inr ⟨rfl, rfl⟩⟩

/-- Additions never list a neighbor twice. -/
theorem simple_add (simple : graph.Simple) (addition : Addition) : (graph.add addition).Simple := by
  refine ⟨(graph.extends_add addition).sound simple.toSound, ?_⟩
  cases addition with
  | vertex name =>
    intro i
    rw [add, neighbors_addVertex]
    exact simple.ascending i
  | edge left right =>
    rw [add, addEdge]
    split
    · exact simple.ascending
    · have both : ∀ i,
          (((graph.addVertex left).1.addVertex right).1.neighbors i).Pairwise (· < ·) := by
        intro i
        rw [neighbors_addVertex, neighbors_addVertex]
        exact simple.ascending i
      exact ascending_link (ascending_link both _ _) _ _

theorem simple_ofAdditions (additions : List Addition) : (ofAdditions additions).Simple := by
  have fold : ∀ graph : InterferenceGraph, graph.Simple → (additions.foldl add graph).Simple := by
    induction additions with
    | nil => exact fun _ simple => simple
    | cons addition rest ih => exact fun graph simple => ih _ (simple_add simple addition)
  exact fold empty ⟨sound_empty, fun i => by simp [neighbors, empty]⟩

/-- How many of some vertices are neighbors of a vertex. -/
def degreeIn (graph : InterferenceGraph) (set : Finset Nat) (index : Nat) : Nat :=
  (set.filter (· ∈ graph.neighbors index)).card

theorem degreeIn_mono {set set' : Finset Nat} (h : set ⊆ set') (index : Nat) :
    graph.degreeIn set index ≤ graph.degreeIn set' index :=
  Finset.card_le_card (Finset.filter_subset_filter _ h)

theorem degreeIn_range (simple : graph.Simple) (index : Nat) :
    graph.degreeIn (Finset.range graph.size) index = graph.degree index := by
  have hset : (Finset.range graph.size).filter (· ∈ graph.neighbors index) =
      (graph.neighbors index).toFinset := by
    ext neighbor
    simp only [Finset.mem_filter, Finset.mem_range, List.mem_toFinset]
    exact and_iff_right_of_imp simple.neighbor_lt
  rw [degreeIn, hset, List.toFinset_card_of_nodup (simple.nodup index), degree]

/-- Without one of the vertices, those that have it for a neighbor have one neighbor less. -/
theorem degreeIn_erase {set : Finset Nat} {taken : Nat} (h : taken ∈ set) (index : Nat) :
    graph.degreeIn set index =
      graph.degreeIn (set.erase taken) index + if taken ∈ graph.neighbors index then 1 else 0 := by
  rw [degreeIn, degreeIn, Finset.filter_erase]
  split
  · next hmem => rw [Finset.card_erase_add_one (Finset.mem_filter.mpr ⟨h, hmem⟩)]
  · next hmem => rw [Finset.erase_eq_of_notMem (by simp [hmem]), Nat.add_zero]

end InterferenceGraph

/-- Takes one from a number of a list, which has to be there and not to be zero. -/
def decrement? (degrees : List Nat) (index : Nat) : Option (List Nat) :=
  match degrees[index]? with
  | some (degree + 1) => some (degrees.set index degree)
  | _ => none

/-- Takes a vertex as `Simplifying.take` does, with degrees that cannot go below zero. -/
def Simplifying.takeExact? (graph : InterferenceGraph) (state : Simplifying) (index : Nat) :
    Option Simplifying := do
  let left := state.left.erase index
  let degrees ← ((graph.neighbors index).filter (· ∈ left)).foldlM decrement? state.degrees
  return { left, degrees, taken := index :: state.taken }

/-- Takes vertices as `simplify` does; there is no result if a degree would go below zero. -/
def simplifyExact? (graph : InterferenceGraph) (bound : Nat) :
    Nat → Simplifying → Option (Except ColoringFault (List Nat))
  | 0, state => some (.ok state.taken)
  | remaining + 1, state =>
    match state.next? bound with
    | some index => do simplifyExact? graph bound remaining (← state.takeExact? graph index)
    | none => some (.error (.noLowDegree (remaining + 1) bound))

theorem getD_modify_pred (degrees : List Nat) (index other : Nat) :
    (degrees.modify index (· - 1)).getD other 0 =
      degrees.getD other 0 - if other = index then 1 else 0 := by
  simp only [List.getD, List.getElem?_modify]
  by_cases heq : index = other
  · cases hget : degrees[other]? <;> simp [heq]
  · have hne : other ≠ index := fun h => heq h.symm
    cases hget : degrees[other]? <;> simp [heq, hne]

theorem decrement?_eq {degrees : List Nat} {index : Nat} (h : 0 < degrees.getD index 0) :
    decrement? degrees index = some (degrees.modify index (· - 1)) := by
  rw [decrement?, List.modify_eq_set_getElem?]
  cases hget : degrees[index]? with
  | none => simp [List.getD, hget] at h
  | some degree =>
    cases degree with
    | zero => simp [List.getD, hget] at h
    | succ degree => rfl

section

variable {degrees indices : List Nat}

/-- Numbers that are taken down once each. -/
theorem getD_foldl_modify (nodup : indices.Nodup) (other : Nat) :
    (indices.foldl (fun degrees index => degrees.modify index (· - 1)) degrees).getD other 0 =
      degrees.getD other 0 - if other ∈ indices then 1 else 0 := by
  induction indices generalizing degrees with
  | nil => simp
  | cons first rest ih =>
    obtain ⟨hfirst, hrest⟩ := List.nodup_cons.mp nodup
    rw [List.foldl_cons, ih hrest, getD_modify_pred]
    by_cases heq : other = first
    · subst heq
      simp [hfirst]
    · simp [heq]

/-- Where no degree is zero, truncated subtraction is exact. -/
theorem foldlM_decrement?_eq (nodup : indices.Nodup)
    (positive : ∀ index ∈ indices, 0 < degrees.getD index 0) :
    indices.foldlM decrement? degrees =
      some (indices.foldl (fun degrees index => degrees.modify index (· - 1)) degrees) := by
  induction indices generalizing degrees with
  | nil => rfl
  | cons first rest ih =>
    obtain ⟨hfirst, hrest⟩ := List.nodup_cons.mp nodup
    rw [List.foldlM_cons, decrement?_eq (positive first List.mem_cons_self), List.foldl_cons]
    refine ih hrest fun index hindex => ?_
    have hne : index ≠ first := fun heq => hfirst (heq ▸ hindex)
    rw [getD_modify_pred, if_neg hne, Nat.sub_zero]
    exact positive index (List.mem_cons_of_mem first hindex)

end

variable {graph : InterferenceGraph} {state : Simplifying} {bound : Nat}

/-- The vertices left are distinct vertices of the graph, and the degree of each is the number of
its neighbors that are left. -/
structure Simplifying.Faithful (graph : InterferenceGraph) (state : Simplifying) : Prop where
  nodup : state.left.Nodup
  left_lt : ∀ {index}, index ∈ state.left → index < graph.size
  degree_eq : ∀ {index}, index ∈ state.left →
    state.degree index = graph.degreeIn state.left.toFinset index

namespace Simplifying

theorem faithful_ofGraph (simple : graph.Simple) : (ofGraph graph).Faithful graph := by
  refine ⟨List.nodup_range, fun h => List.mem_range.mp h, fun {index} h => ?_⟩
  have hset : (List.range graph.size).toFinset = Finset.range graph.size := by
    ext index
    simp
  simp only [ofGraph, degree] at h ⊢
  rw [hset, InterferenceGraph.degreeIn_range simple]
  simp [List.getD, List.mem_range.mp h]

theorem next?_eq_some {index : Nat} (h : state.next? bound = some index) :
    index ∈ state.left ∧ state.degree index < bound :=
  ⟨List.mem_of_find?_eq_some h, by simpa using List.find?_some h⟩

namespace Faithful

variable {index : Nat}

theorem toFinset_take (faithful : state.Faithful graph) (index : Nat) :
    (state.take graph index).left.toFinset = state.left.toFinset.erase index := by
  ext other
  simp [take, faithful.nodup.mem_erase_iff]

/-- The neighbors of a vertex whose degrees change when the vertex is taken. -/
theorem mem_left_erase (faithful : state.Faithful graph) {neighbor : Nat} :
    neighbor ∈ (graph.neighbors index).filter (· ∈ state.left.erase index) ↔
      neighbor ∈ graph.neighbors index ∧ neighbor ≠ index ∧ neighbor ∈ state.left := by
  simp [faithful.nodup.mem_erase_iff]

/-- Taking a vertex lowers the degrees of just its neighbors that are left, by one. -/
theorem take (simple : graph.Simple) (faithful : state.Faithful graph)
    (hindex : index ∈ state.left) : (state.take graph index).Faithful graph := by
  have hleft : ∀ {other}, other ∈ (state.take graph index).left →
      other ≠ index ∧ other ∈ state.left :=
    fun h => faithful.nodup.mem_erase_iff.mp h
  refine ⟨faithful.nodup.erase index, fun h => faithful.left_lt (hleft h).2, fun {other} h => ?_⟩
  obtain ⟨hne, hother⟩ := hleft h
  have hdegree : (state.take graph index).degree other =
      state.degree other - if other ∈ graph.neighbors index then 1 else 0 := by
    rw [degree, Simplifying.take, getD_foldl_modify ((simple.nodup index).filter _)]
    simp only [faithful.mem_left_erase, hne, hother, ne_eq, not_false_eq_true, and_true]
    rfl
  have hedge : other ∈ graph.neighbors index ↔ index ∈ graph.neighbors other :=
    ⟨simple.symm, simple.symm⟩
  rw [faithful.toFinset_take, hdegree, faithful.degree_eq hother,
    InterferenceGraph.degreeIn_erase (List.mem_toFinset.mpr hindex), if_congr hedge rfl rfl,
    Nat.add_sub_cancel]

/-- The degrees that go down when a vertex is taken are those of vertices which still have that
vertex for a neighbor, so none is zero. -/
theorem takeExact?_eq (simple : graph.Simple) (faithful : state.Faithful graph)
    (hindex : index ∈ state.left) :
    state.takeExact? graph index = some (state.take graph index) := by
  have positive : ∀ neighbor ∈ (graph.neighbors index).filter (· ∈ state.left.erase index),
      0 < state.degrees.getD neighbor 0 := by
    intro neighbor hmem
    obtain ⟨hneighbor, _, hleft⟩ := faithful.mem_left_erase.mp hmem
    have hdegree := faithful.degree_eq hleft
    rw [InterferenceGraph.degreeIn_erase (List.mem_toFinset.mpr hindex),
      if_pos (simple.symm hneighbor)] at hdegree
    rw [degree] at hdegree
    omega
  rw [takeExact?, foldlM_decrement?_eq ((simple.nodup index).filter _) positive]
  rfl

end Faithful

end Simplifying

/-- Degrees never go below zero, so simplification without truncation does the same. -/
theorem simplifyExact?_eq (simple : graph.Simple) {remaining : Nat}
    (faithful : state.Faithful graph) :
    simplifyExact? graph bound remaining state = some (simplify graph bound remaining state) := by
  induction remaining generalizing state with
  | zero => rfl
  | succ remaining ih =>
    rw [simplifyExact?, simplify]
    cases hnext : state.next? bound with
    | none => rfl
    | some index =>
      have hindex := (Simplifying.next?_eq_some hnext).1
      simp only [faithful.takeExact?_eq simple hindex]
      exact ih (faithful.take simple hindex)

/-- What each taking keeps holds where taking ends: where nothing is left, or where no vertex that
is left can be taken. -/
theorem simplify_ends {P : Simplifying → Prop} {remaining : Nat}
    (step : ∀ state index, P state → state.next? bound = some index → P (state.take graph index))
    (hcount : state.left.length = remaining) (start : P state) :
    ∃ final, P final ∧
      (final.left = [] ∧ simplify graph bound remaining state = .ok final.taken ∨
        final.left ≠ [] ∧ final.next? bound = none ∧
          simplify graph bound remaining state =
            .error (.noLowDegree final.left.length bound)) := by
  induction remaining generalizing state with
  | zero => exact ⟨state, start, .inl ⟨List.eq_nil_of_length_eq_zero hcount, rfl⟩⟩
  | succ remaining ih =>
    rw [simplify]
    cases hnext : state.next? bound with
    | none =>
      refine ⟨state, start, .inr ⟨List.ne_nil_of_length_eq_add_one hcount, hnext, ?_⟩⟩
      rw [hcount]
    | some index =>
      have hindex := (Simplifying.next?_eq_some hnext).1
      refine ih ?_ (step state index start hnext)
      rw [Simplifying.take, List.length_erase_of_mem hindex, hcount, Nat.add_sub_cancel]

end ClassCompiler.Registers
