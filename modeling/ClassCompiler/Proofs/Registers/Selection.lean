import ClassCompiler.Proofs.Registers.Simplification

/-!
# A color is always free

Vertices are colored in the reverse of the order in which they were taken. When the turn of a vertex
comes, the neighbors that have a color are those that were left when it was taken, and these were
fewer than the colors. Choosing colors therefore never fails, and coloring fails only while vertices
are taken.
-/

namespace ClassCompiler.Registers

variable {graph : InterferenceGraph} {bound : Nat}

/-- Vertices in the reverse of the order in which they were taken, until those of a set were left:
each had few neighbors among the vertices that were left once it was taken. -/
def TakenUntil (graph : InterferenceGraph) (bound : Nat) : Finset Nat → List Nat → Prop
  | _, [] => True
  | left, index :: rest =>
    graph.degreeIn left index < bound ∧ TakenUntil graph bound (insert index left) rest

/-- A vertex is taken while it has few neighbors left. That is what selection needs later. -/
theorem takenUntil_take {state : Simplifying} {index : Nat} (faithful : state.Faithful graph)
    (hnext : state.next? bound = some index)
    (h : TakenUntil graph bound state.left.toFinset state.taken) :
    TakenUntil graph bound (state.take graph index).left.toFinset
      (state.take graph index).taken := by
  obtain ⟨hindex, hdegree⟩ := Simplifying.next?_eq_some hnext
  rw [faithful.degree_eq hindex] at hdegree
  rw [faithful.toFinset_take]
  refine ⟨?_, ?_⟩
  · exact Nat.lt_of_le_of_lt
      (InterferenceGraph.degreeIn_mono (Finset.erase_subset index _) index) hdegree
  · rw [Finset.insert_erase (List.mem_toFinset.mpr hindex)]
    exact h

theorem length_takenColors_le (simple : graph.Simple) {colors : PartialColoring}
    {colored : Finset Nat} (h : ∀ i, (colors.getD i none).isSome → i ∈ colored) (index : Nat) :
    (takenColors graph colors index).length ≤ graph.degreeIn colored index := by
  rw [takenColors, List.length_filterMap_eq_countP, List.countP_eq_length_filter,
    ← List.toFinset_card_of_nodup ((simple.nodup index).filter _)]
  refine Finset.card_le_card fun i hi => ?_
  obtain ⟨hneighbor, hsome⟩ := List.mem_filter.mp (List.mem_toFinset.mp hi)
  exact Finset.mem_filter.mpr ⟨h i hsome, hneighbor⟩

/-- Fewer colors than a palette has leave one of them free. -/
theorem exists_free {palette taken : List Nat} (nodup : palette.Nodup)
    (h : taken.length < palette.length) : ∃ color, palette.find? (· ∉ taken) = some color := by
  cases hfind : palette.find? (· ∉ taken) with
  | some color => exact ⟨color, rfl⟩
  | none =>
    have hall : ∀ color ∈ palette, color ∈ taken := by
      intro color hcolor
      simpa using List.find?_eq_none.mp hfind color hcolor
    exact absurd (nodup.length_le_of_subset hall) (Nat.not_le.mpr h)

/-- A vertex that was taken with few neighbors left finds a free color when they have theirs. -/
theorem exists_select (simple : graph.Simple) {order : List Nat} {colors : PartialColoring}
    {colored : Finset Nat} (horder : TakenUntil graph bound colored order)
    (hlt : ∀ index ∈ order, index < colors.length)
    (hcolored : ∀ i, (colors.getD i none).isSome → i ∈ colored) :
    ∃ result, select graph (List.range bound) order colors = .ok result := by
  induction order generalizing colors colored with
  | nil => exact ⟨colors, rfl⟩
  | cons first rest ih =>
    obtain ⟨hfirst, hrest⟩ := horder
    have hfew : (takenColors graph colors first).length < (List.range bound).length := by
      rw [List.length_range]
      exact Nat.lt_of_le_of_lt (length_takenColors_le simple hcolored first) hfirst
    obtain ⟨color, hcolor⟩ := exists_free List.nodup_range hfew
    rw [select]
    simp only [hcolor]
    refine ih hrest (fun index hindex => ?_) fun i hi => ?_
    · rw [List.length_set]
      exact hlt index (List.mem_cons_of_mem first hindex)
    · rw [getD_set (hlt first List.mem_cons_self)] at hi
      split at hi
      · next heq => exact heq ▸ Finset.mem_insert_self first colored
      · exact Finset.mem_insert_of_mem (hcolored i hi)

/-- What each taking keeps holds where coloring gets to: either no vertex is left and all of them
get colors, or none of those left can be taken and their number is reported. -/
theorem color_ends (simple : graph.Simple) {P : Simplifying → Prop}
    (step : ∀ state index, state.Faithful graph → P state → state.next? bound = some index →
      P (state.take graph index))
    (start : P (.ofGraph graph)) :
    ∃ final : Simplifying, final.Faithful graph ∧ P final ∧
      (final.left = [] ∧ (∃ colors, color graph bound = .ok colors) ∨
        final.left ≠ [] ∧ final.next? bound = none ∧
          color graph bound = .error (.noLowDegree final.left.length bound)) := by
  have hcount : (Simplifying.ofGraph graph).left.length = graph.size := List.length_range
  obtain ⟨final, ⟨faithful, htaken, hfinal⟩, hends⟩ := simplify_ends
    (P := fun state => state.Faithful graph ∧
      TakenUntil graph bound state.left.toFinset state.taken ∧ P state)
    (fun state index h hnext =>
      ⟨h.1.take simple (Simplifying.next?_eq_some hnext).1, takenUntil_take h.1 hnext h.2.1,
        step state index h.1 h.2.2 hnext⟩)
    hcount ⟨Simplifying.faithful_ofGraph simple, trivial, start⟩
  refine ⟨final, faithful, hfinal, ?_⟩
  rcases hends with ⟨hleft, hok⟩ | ⟨hleft, hnext, herror⟩
  · refine .inl ⟨hleft, ?_⟩
    rw [hleft] at htaken
    have hlt : ∀ index ∈ final.taken,
        index < (List.replicate graph.size (none : Option Nat)).length := by
      intro index hindex
      simpa [Simplifying.ofGraph] using (mem_simplify hok hcount index).mp hindex
    obtain ⟨result, hresult⟩ := exists_select simple htaken hlt
      fun i hi => by rw [getD_replicate_none] at hi; cases hi
    refine ⟨result.map (·.getD 0), ?_⟩
    rw [color, hok, Outcome.ok_bind, hresult]
    rfl
  · refine .inr ⟨hleft, hnext, ?_⟩
    rw [color, herror]
    rfl

theorem color_ne_noFreeColor (simple : graph.Simple) (name : String) (limit : Nat) :
    color graph bound ≠ .error (.noFreeColor name limit) := by
  intro h
  obtain ⟨_, _, _, ⟨_, _, hok⟩ | ⟨_, _, herror⟩⟩ := @color_ends graph bound simple
    (fun _ => True) (fun _ _ _ _ _ => trivial) trivial
  · rw [hok] at h
    cases h
  · rw [herror] at h
    cases h

theorem colors_of_neighbors (sound : graph.Sound) {colors : List Nat}
    (h : color graph bound = .ok colors) {i j : Nat} (hedge : j ∈ graph.neighbors i) :
    ∃ color color', colors[i]? = some color ∧ colors[j]? = some color' ∧ color ≠ color' := by
  obtain ⟨hlength, hproper⟩ := color_spec sound h
  have hi : i < colors.length := hlength ▸ sound.lt_of_mem_neighbors hedge
  have hj : j < colors.length := hlength ▸ sound.neighbor_lt hedge
  have hne := hproper i j hedge
  rw [List.getElem?_eq_getElem hi, List.getElem?_eq_getElem hj] at hne ⊢
  exact ⟨_, _, rfl, rfl, fun heq => hne (congrArg some heq)⟩

/-- Coloring of a graph that additions have built, whose edges are those that were added. No degree
goes below zero while vertices are taken, a vertex always finds a free color, and the colors of a
graph that is colored are one for each vertex, below the bound, and different for neighbors. -/
theorem color_sound_of_additions (additions : List InterferenceGraph.Addition) (bound : Nat) :
    let graph := InterferenceGraph.ofAdditions additions
    (∀ a b, graph.interferes a b = true ↔
      a ≠ b ∧ (.edge a b ∈ additions ∨ .edge b a ∈ additions)) ∧
    simplifyExact? graph bound graph.size (.ofGraph graph) =
      some (simplify graph bound graph.size (.ofGraph graph)) ∧
    (∀ name limit, color graph bound ≠ .error (.noFreeColor name limit)) ∧
    ∀ colors, color graph bound = .ok colors →
      colors.length = graph.size ∧ (∀ color ∈ colors, color < bound) ∧
      ∀ i j, j ∈ graph.neighbors i →
        ∃ color color', colors[i]? = some color ∧ colors[j]? = some color' ∧ color ≠ color' := by
  intro graph
  have simple : graph.Simple := InterferenceGraph.simple_ofAdditions additions
  refine ⟨fun a b => InterferenceGraph.interferes_ofAdditions, ?_,
    fun name limit => color_ne_noFreeColor simple name limit, fun colors h => ?_⟩
  · exact simplifyExact?_eq simple (Simplifying.faithful_ofGraph simple)
  · refine ⟨(color_spec simple.toSound h).1, fun color hcolor => ?_, fun i j hedge => ?_⟩
    · exact color_lt simple.toSound h hcolor
    · exact colors_of_neighbors simple.toSound h hedge

/-- A cycle of five variables, a hub that interferes with all of them, and a variable that
interferes with none. -/
def wheel : List InterferenceGraph.Addition :=
  [.edge "a" "b", .edge "b" "c", .edge "c" "d", .edge "d" "e", .edge "e" "a", .edge "a" "a",
    .vertex "hub", .edge "hub" "a", .edge "hub" "b", .edge "hub" "c", .edge "hub" "d",
    .edge "e" "hub", .vertex "f"]

theorem color_sound_wheel :
    (InterferenceGraph.ofAdditions wheel).interferes "hub" "e" = true ∧
      (InterferenceGraph.ofAdditions wheel).interferes "a" "a" = false ∧
      color (.ofAdditions wheel) 4 = .ok [3, 2, 1, 2, 1, 0, 0] ∧
      (InterferenceGraph.ofAdditions wheel).size = 7 ∧
      (∀ color ∈ [3, 2, 1, 2, 1, 0, 0], color < 4) ∧
      4 ∈ (InterferenceGraph.ofAdditions wheel).neighbors 0 ∧
      ∃ color color', [3, 2, 1, 2, 1, 0, 0][0]? = some color ∧
        [3, 2, 1, 2, 1, 0, 0][4]? = some color' ∧ color ≠ color' := by
  have hcolor : color (.ofAdditions wheel) 4 = .ok [3, 2, 1, 2, 1, 0, 0] := by decide +kernel
  have hedge : 4 ∈ (InterferenceGraph.ofAdditions wheel).neighbors 0 := by decide +kernel
  obtain ⟨hedges, _, _, hspec⟩ := color_sound_of_additions wheel 4
  obtain ⟨hlength, hlt, hproper⟩ := hspec _ hcolor
  refine ⟨(hedges "hub" "e").mpr (by decide), ?_, hcolor, hlength.symm, hlt, hedge,
    hproper 0 4 hedge⟩
  exact Bool.eq_false_iff.mpr fun h => ((hedges "a" "a").mp h).1 rfl

end ClassCompiler.Registers
