import Mathlib.Combinatorics.Enumerative.DoubleCounting
import Mathlib.Order.Interval.Finset.Nat
import ClassCompiler.Proofs.Registers.Vertices

/-!
# Graphs under addition

A graph is built by adding vertices and edges in any order, some of them more than once. What is in
it stays: a variable keeps its number, and an edge is never taken away. The names by number, the
numbers by name and the lists of neighbors stay in step. The list of edges has each edge once, from
its lower end, so the degrees count it twice.
-/

namespace ClassCompiler.Registers.InterferenceGraph

variable {graph graph' graph'' : InterferenceGraph}

/-- The second graph has all of the first one, with the same numbers. -/
structure Grows (graph graph' : InterferenceGraph) : Prop where
  names : graph.names <+: graph'.names
  numbers : ∀ {name i}, graph.index? name = some i → graph'.index? name = some i
  neighbors : ∀ i, graph.neighbors i ⊆ graph'.neighbors i

namespace Grows

theorem refl (graph : InterferenceGraph) : Grows graph graph :=
  ⟨List.prefix_refl _, fun h => h, fun _ => List.Subset.refl _⟩

theorem trans (h : Grows graph graph') (h' : Grows graph' graph'') : Grows graph graph'' :=
  ⟨h.names.trans h'.names, fun hindex => h'.numbers (h.numbers hindex),
    fun i _ hmem => h'.neighbors i (h.neighbors i hmem)⟩

end Grows

/-- Vertices that are there keep their numbers when another one is added. -/
theorem grows_addVertex (graph : InterferenceGraph) (name : String) :
    Grows graph (graph.addVertex name).1 := by
  constructor
  · rw [names_addVertex]
    split
    · exact List.prefix_refl _
    · exact List.prefix_append _ _
  · intro other i hindex
    rw [index?_addVertex, hindex, Option.some_or]
  · intro i
    rw [neighbors_addVertex]
    exact List.Subset.refl _

theorem grows_link (inStep : graph.InStep) {i : Nat} (hlt : i < graph.size) (j : Nat) :
    Grows graph (graph.link i j) :=
  ⟨List.prefix_refl _, fun h => h, fun _ _ hother =>
    (mem_neighbors_link inStep hlt j).mpr (.inl hother)⟩

/-- An edge adds its ends, if they are missing, and takes nothing away. -/
theorem grows_addEdge (inStep : graph.InStep) (left right : String) :
    Grows graph (graph.addEdge left right) := by
  rw [addEdge]
  split
  · exact .refl graph
  · have first := graph.grows_addVertex left
    have second := (graph.addVertex left).1.grows_addVertex right
    have inStep' := inStep_addVertex (inStep_addVertex inStep left) right
    have hi := inStep'.index?_lt (second.numbers (index?_addVertex_self left))
    have hj := inStep'.index?_lt (index?_addVertex_self right)
    exact ((first.trans second).trans (grows_link inStep' hi _)).trans
      (grows_link (inStep_link inStep' _ _) hj _)

theorem grows_add (inStep : graph.InStep) (addition : Addition) :
    Grows graph (graph.add addition) := by
  cases addition with
  | vertex name => exact graph.grows_addVertex name
  | edge left right => exact grows_addEdge inStep left right

theorem grows_foldl_add (additions : List Addition) (simple : graph.Simple) :
    Grows graph (additions.foldl add graph) := by
  induction additions generalizing graph with
  | nil => exact .refl graph
  | cons addition rest ih =>
    exact (grows_add simple.toInStep addition).trans (ih (simple_add simple addition))

def Addition.names : Addition → List String
  | .vertex name => [name]
  | .edge left right => if left = right then [] else [left, right]

/-- Variables are numbered in the order in which they are first added. -/
theorem names_ofAdditions (additions : List Addition) :
    (ofAdditions additions).names = (additions.flatMap Addition.names).eraseDups := by
  induction additions using List.reverseRecOn with
  | nil => rfl
  | append_singleton earlier last ih =>
    have inStep := (simple_ofAdditions earlier).toInStep
    rw [ofAdditions, List.foldl_append, List.foldl_cons, List.foldl_nil, ← ofAdditions,
      List.flatMap_append, List.flatMap_singleton]
    cases last with
    | vertex name => exact names_addVertex_of_eraseDups inStep ih name
    | edge left right =>
      rw [add, addEdge, Addition.names]
      split
      · rw [List.append_nil, ih]
      · have hleft := names_addVertex_of_eraseDups inStep ih left
        have hright := names_addVertex_of_eraseDups (inStep_addVertex inStep left) hleft right
        rw [List.append_assoc] at hright
        exact hright

/-- How an edge is listed: from its lower end. -/
def Edge (graph : InterferenceGraph) (low high : Nat) : Prop :=
  low < high ∧ high ∈ graph.neighbors low

instance (graph : InterferenceGraph) (low high : Nat) : Decidable (graph.Edge low high) :=
  inferInstanceAs (Decidable (_ ∧ _))

theorem mem_edges (inStep : graph.InStep) {low high : Nat} :
    (low, high) ∈ graph.edges ↔ graph.Edge low high := by
  simp only [Edge, edges, List.mem_flatMap, List.mem_map, List.mem_filter, List.mem_range,
    Prod.mk.injEq, decide_eq_true_eq]
  constructor
  · rintro ⟨_, _, _, ⟨hmem, hlt⟩, rfl, rfl⟩
    exact ⟨hlt, hmem⟩
  · rintro ⟨hlt, hmem⟩
    exact ⟨low, inStep.lt_of_mem_neighbors hmem, high, ⟨hmem, hlt⟩, rfl, rfl⟩

theorem sorted_edges (simple : graph.Simple) :
    graph.edges.Pairwise (Prod.Lex (· < ·) (· < ·)) := by
  refine List.pairwise_flatMap.mpr ⟨?_, ?_⟩
  · intro low _
    have hascending := (simple.ascending low).filter (low < ·)
    exact hascending.map _ fun _ _ hlt => .right low hlt
  · refine List.pairwise_lt_range.imp ?_
    intro low low' hlt edge hedge edge' hedge'
    obtain ⟨high, _, rfl⟩ := List.mem_map.mp hedge
    obtain ⟨high', _, rfl⟩ := List.mem_map.mp hedge'
    exact .left high high' hlt

/-- The edges of a vertex are those to higher numbers and those from lower ones. -/
theorem degree_eq_add (simple : graph.Simple) (i : Nat) :
    graph.degree i = ((Finset.range graph.size).bipartiteAbove graph.Edge i).card +
      ((Finset.range graph.size).bipartiteBelow graph.Edge i).card := by
  have hsplit := Finset.card_filter_add_card_filter_not (fun j => i < j)
    (s := (Finset.range graph.size).filter (· ∈ graph.neighbors i))
  have habove : ((Finset.range graph.size).filter (· ∈ graph.neighbors i)).filter (i < ·) =
      (Finset.range graph.size).bipartiteAbove graph.Edge i := by
    ext j
    simp only [Finset.mem_filter, Finset.mem_bipartiteAbove, Edge]
    tauto
  have hbelow : ((Finset.range graph.size).filter (· ∈ graph.neighbors i)).filter (¬ i < ·) =
      (Finset.range graph.size).bipartiteBelow graph.Edge i := by
    ext j
    simp only [Finset.mem_filter, Finset.mem_bipartiteBelow, Edge]
    constructor
    · rintro ⟨⟨hrange, hmem⟩, hle⟩
      have hne : j ≠ i := fun heq => simple.irrefl (heq ▸ hmem)
      exact ⟨hrange, by omega, simple.symm hmem⟩
    · rintro ⟨hrange, hlt, hmem⟩
      exact ⟨⟨hrange, simple.symm hmem⟩, by omega⟩
  rw [← degreeIn_range simple, degreeIn, ← hsplit, habove, hbelow]

/-- Every edge is listed once, from its lower end. -/
theorem length_edges (simple : graph.Simple) :
    graph.edges.length = ∑ low ∈ Finset.range graph.size,
      ((Finset.range graph.size).bipartiteAbove graph.Edge low).card := by
  have hlength : ∀ low, ((graph.neighbors low).filter (low < ·)).length =
      ((Finset.range graph.size).bipartiteAbove graph.Edge low).card := by
    intro low
    rw [← List.toFinset_card_of_nodup ((simple.nodup low).filter _)]
    congr 1
    ext high
    simp only [List.mem_toFinset, List.mem_filter, decide_eq_true_eq, Finset.mem_bipartiteAbove,
      Finset.mem_range, Edge]
    constructor
    · rintro ⟨hmem, hlt⟩
      exact ⟨simple.neighbor_lt hmem, hlt, hmem⟩
    · rintro ⟨_, hlt, hmem⟩
      exact ⟨hmem, hlt⟩
  have hsum := List.sum_toFinset
    (fun low => ((Finset.range graph.size).bipartiteAbove graph.Edge low).card)
    (List.nodup_range (n := graph.size))
  rw [List.toFinset_range] at hsum
  rw [hsum, edges, List.length_flatMap]
  simp only [List.length_map, hlength]

/-- Every edge is counted at both its ends. -/
theorem two_mul_length_edges (simple : graph.Simple) :
    2 * graph.edges.length = ∑ i ∈ Finset.range graph.size, graph.degree i := by
  have hboth := Finset.sum_card_bipartiteAbove_eq_sum_card_bipartiteBelow graph.Edge
    (s := Finset.range graph.size) (t := Finset.range graph.size)
  simp only [degree_eq_add simple, Finset.sum_add_distrib]
  rw [← hboth, length_edges simple]
  omega

/-- The graph that additions build, whatever they are and in whatever order they come. Its variables
are distinct, those that have been added. The three parts of the graph are in step: names and
numbers tell each other, and there are as many lists of neighbors as names. Interference is
symmetric and irreflexive, and between numbers of the graph. Whatever is added later, a variable
keeps its number and an edge stays. Two variables interfere exactly if an edge between them has been
added and they differ. Each edge is listed once, the lower number first, in ascending order, so
there are half as many edges as the degrees sum up to. -/
theorem graph_kept_by_additions (additions : List Addition) :
    let graph := ofAdditions additions
    graph.names.Nodup ∧ graph.names = (additions.flatMap Addition.names).eraseDups ∧
    (∀ name i, graph.numbers.get? name = some i ↔ graph.names[i]? = some name) ∧
    graph.adjacency.length = graph.names.length ∧
    (∀ i j, j ∈ graph.neighbors i →
      i ∈ graph.neighbors j ∧ i ≠ j ∧ i < graph.names.length ∧ j < graph.names.length) ∧
    (∀ later, let graph' := ofAdditions (additions ++ later)
      graph.names <+: graph'.names ∧
      (∀ name i, graph.numbers.get? name = some i → graph'.numbers.get? name = some i) ∧
      ∀ i, graph.neighbors i ⊆ graph'.neighbors i) ∧
    (∀ a b, graph.interferes a b = true ↔
      a ≠ b ∧ (.edge a b ∈ additions ∨ .edge b a ∈ additions)) ∧
    (∀ low high, (low, high) ∈ graph.edges ↔ low < high ∧ high ∈ graph.neighbors low) ∧
    graph.edges.Pairwise (Prod.Lex (· < ·) (· < ·)) ∧
    2 * graph.edges.length = ∑ i ∈ Finset.range graph.size, graph.degree i := by
  intro graph
  have simple : graph.Simple := simple_ofAdditions additions
  refine ⟨simple.distinct, names_ofAdditions additions, fun _ _ => simple.numbers,
    simple.adjacency, ?_, ?_, ?_, ?_, sorted_edges simple, two_mul_length_edges simple⟩
  · intro i j hmem
    refine ⟨simple.symm hmem, ?_, simple.lt_of_mem_neighbors hmem, simple.neighbor_lt hmem⟩
    rintro rfl
    exact simple.irrefl hmem
  · intro later graph'
    have hgraph' : graph' = later.foldl add graph := List.foldl_append
    have grows : Grows graph graph' := hgraph' ▸ grows_foldl_add later simple
    exact ⟨grows.names, fun _ _ => grows.numbers, grows.neighbors⟩
  · intro a b
    exact interferes_ofAdditions
  · intro low high
    exact mem_edges simple.toInStep

end ClassCompiler.Registers.InterferenceGraph
