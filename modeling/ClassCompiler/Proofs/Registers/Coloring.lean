import ClassCompiler.Proofs.Outcome
import ClassCompiler.Proofs.Registers.Interference
import ClassCompiler.Registers.Assignment

/-!
# Coloring separates neighbors

Every vertex is taken before colors are chosen, so every vertex has a color in the end, and a vertex
never takes a color that a neighbor has. In the register map that the colors give, variables that
clash somewhere have different registers.
-/

namespace ClassCompiler.Registers

variable {graph : InterferenceGraph}

theorem mem_take {state : Simplifying} {first : Nat} (hfirst : first ∈ state.left) (index : Nat) :
    index ∈ (state.take graph first).taken ∨ index ∈ (state.take graph first).left ↔
      index ∈ state.taken ∨ index ∈ state.left := by
  by_cases heq : index = first
  · subst heq
    simp [Simplifying.take, hfirst]
  · simp [Simplifying.take, heq, List.mem_erase_of_ne heq]

/-- Taking as many vertices as are left takes them all, and no others. -/
theorem mem_simplify {bound remaining : Nat} {state : Simplifying} {order : List Nat}
    (h : simplify graph bound remaining state = .ok order)
    (hcount : state.left.length = remaining) (index : Nat) :
    index ∈ order ↔ index ∈ state.taken ∨ index ∈ state.left := by
  induction remaining generalizing state with
  | zero =>
    cases h
    rw [List.eq_nil_of_length_eq_zero hcount]
    simp
  | succ remaining ih =>
    rw [simplify] at h
    split at h
    · next first hfirst =>
      have hleft : first ∈ state.left := List.mem_of_find?_eq_some hfirst
      have hcount' : (state.take graph first).left.length = remaining := by
        rw [Simplifying.take, List.length_erase_of_mem hleft, hcount, Nat.add_sub_cancel]
      rw [ih h hcount', mem_take hleft]
    · cases h

theorem length_simplify {bound remaining : Nat} {state : Simplifying} {order : List Nat}
    (h : simplify graph bound remaining state = .ok order) :
    order.length = state.taken.length + remaining := by
  induction remaining generalizing state with
  | zero =>
    cases h
    rfl
  | succ remaining ih =>
    rw [simplify] at h
    split at h
    · rw [ih h, Simplifying.take, List.length_cons]
      omega
    · cases h

/-- No two neighbors have the same color, as far as colors have been chosen. -/
def Proper (graph : InterferenceGraph) (colors : PartialColoring) : Prop :=
  ∀ i j color, j ∈ graph.neighbors i → colors.getD i none = some color →
    colors.getD j none ≠ some color

theorem getD_set {colors : PartialColoring} {index color : Nat} (hlt : index < colors.length)
    (other : Nat) :
    (colors.set index (some color)).getD other none =
      if other = index then some color else colors.getD other none := by
  by_cases heq : other = index
  · subst heq
    simp [List.getD, hlt]
  · have hne : index ≠ other := fun h => heq h.symm
    simp [List.getD, List.getElem?_set_ne hne, heq]

/-- A color that no neighbor has can be given to a vertex. -/
theorem Proper.set (sound : graph.Sound) {colors : PartialColoring} (proper : Proper graph colors)
    {index color : Nat} (hlt : index < colors.length)
    (free : color ∉ takenColors graph colors index) :
    Proper graph (colors.set index (some color)) := by
  have free' : ∀ neighbor ∈ graph.neighbors index, colors.getD neighbor none ≠ some color :=
    fun neighbor hmem heq => free (List.mem_filterMap.mpr ⟨neighbor, hmem, heq⟩)
  intro i j shared hedge hi hj
  rw [getD_set hlt] at hi hj
  by_cases hieq : i = index
  · have hjne : j ≠ index := fun hjeq => sound.irrefl (hieq ▸ hjeq ▸ hedge)
    rw [if_pos hieq] at hi
    rw [if_neg hjne] at hj
    exact free' j (hieq ▸ hedge) (hj.trans hi.symm)
  · rw [if_neg hieq] at hi
    by_cases hjeq : j = index
    · rw [if_pos hjeq] at hj
      exact free' i (hjeq ▸ sound.symm hedge) (hi.trans hj.symm)
    · rw [if_neg hjeq] at hj
      exact proper i j shared hedge hi hj

theorem getD_replicate_none (count index : Nat) :
    (List.replicate count (none : Option Nat)).getD index none = none := by
  simp only [List.getD, List.getElem?_replicate]
  split <;> rfl

/-- What choosing colors keeps and achieves. -/
theorem select_spec (sound : graph.Sound) {palette order : List Nat}
    {colors result : PartialColoring} (h : select graph palette order colors = .ok result)
    (proper : Proper graph colors) (hlt : ∀ index ∈ order, index < colors.length) :
    result.length = colors.length ∧ Proper graph result ∧
      ∀ index, index ∈ order ∨ (colors.getD index none).isSome →
        (result.getD index none).isSome := by
  induction order generalizing colors with
  | nil =>
    cases h
    exact ⟨rfl, proper, fun index hindex => hindex.resolve_left List.not_mem_nil⟩
  | cons first rest ih =>
    rw [select] at h
    split at h
    · next color hcolor =>
      -- the neighbors colored later see this color among those taken
      have hfree : color ∉ takenColors graph colors first := by
        simpa using List.find?_some hcolor
      have hfirst := hlt first List.mem_cons_self
      obtain ⟨hlength, hproper, hcolored⟩ := ih h (proper.set sound hfirst hfree)
        fun index hindex => by simpa using hlt index (List.mem_cons_of_mem first hindex)
      refine ⟨by simpa using hlength, hproper, fun index hindex => hcolored index ?_⟩
      rw [getD_set hfirst]
      by_cases heq : index = first
      · exact .inr (by simp [heq])
      · rcases hindex with hmem | hsome
        · exact .inl (List.mem_of_ne_of_mem heq hmem)
        · exact .inr (by simpa [heq] using hsome)
    · cases h

/-- The colors of a graph are those chosen in some order of its vertices, and every vertex has
one. -/
theorem exists_select_of_color (sound : graph.Sound) {bound : Nat} {colors : List Nat}
    (h : color graph bound = .ok colors) :
    ∃ order result, order.length = graph.size ∧
      select graph (List.range bound) order (List.replicate graph.size none) = .ok result ∧
      Proper graph result ∧ colors.length = graph.size ∧
      ∀ i < graph.size, ∃ color, result.getD i none = some color ∧ colors[i]? = some color := by
  rw [color] at h
  obtain ⟨order, horder, h⟩ := Outcome.bind_eq_ok.mp h
  obtain ⟨result, hresult, h⟩ := Outcome.bind_eq_ok.mp h
  obtain rfl := Outcome.pure_eq_ok.mp h
  have hmem : ∀ index, index ∈ order ↔ index < graph.size := by
    intro index
    rw [mem_simplify horder (by simp [Simplifying.ofGraph])]
    simp [Simplifying.ofGraph]
  obtain ⟨hlength, hproper, hcolored⟩ := select_spec sound hresult
    (fun i j shared _ hi => by rw [getD_replicate_none] at hi; cases hi)
    (fun index hindex => by simpa using (hmem index).mp hindex)
  rw [List.length_replicate] at hlength
  have horder' : order.length = graph.size := by
    simpa [Simplifying.ofGraph] using length_simplify horder
  refine ⟨order, result, horder', hresult, hproper, by simpa using hlength, fun i hi => ?_⟩
  -- every vertex has the color that was chosen for it, so the default is not used
  obtain ⟨color, hcolor⟩ := Option.isSome_iff_exists.mp (hcolored i (.inl ((hmem i).mpr hi)))
  refine ⟨color, hcolor, ?_⟩
  rw [List.getD, List.getElem?_eq_getElem (hlength ▸ hi), Option.getD_some] at hcolor
  rw [List.getElem?_map, List.getElem?_eq_getElem (hlength ▸ hi), hcolor]
  rfl

/-- Colors are taken from the palette only. -/
theorem mem_palette_of_select {palette order : List Nat} {colors result : PartialColoring}
    (h : select graph palette order colors = .ok result)
    (hcolors : ∀ color, some color ∈ colors → color ∈ palette) {color : Nat}
    (hcolor : some color ∈ result) : color ∈ palette := by
  induction order generalizing colors with
  | nil =>
    cases h
    exact hcolors color hcolor
  | cons first rest ih =>
    rw [select] at h
    split at h
    · next chosen hchosen =>
      refine ih h fun other hother => ?_
      rcases List.mem_or_eq_of_mem_set hother with hmem | heq
      · exact hcolors other hmem
      · cases heq
        exact List.mem_of_find?_eq_some hchosen
    · cases h

theorem mem_of_getD_eq_some {colors : PartialColoring} {i color : Nat}
    (h : colors.getD i none = some color) : some color ∈ colors := by
  rw [List.getD] at h
  cases hget : colors[i]? with
  | none => rw [hget] at h; cases h
  | some chosen =>
    rw [hget, Option.getD_some] at h
    exact h ▸ List.mem_of_getElem? hget

/-- All colors are below the bound, so registers are as well. -/
theorem color_lt (sound : graph.Sound) {bound : Nat} {colors : List Nat}
    (h : color graph bound = .ok colors) {color : Nat} (hcolor : color ∈ colors) :
    color < bound := by
  obtain ⟨order, result, _, hselect, _, hlength, hget⟩ := exists_select_of_color sound h
  obtain ⟨i, hi⟩ := List.mem_iff_getElem?.mp hcolor
  obtain ⟨hlt, _⟩ := List.getElem?_eq_some_iff.mp hi
  obtain ⟨chosen, hchosen, hcolors⟩ := hget i (hlength ▸ hlt)
  obtain rfl : chosen = color := Option.some.inj (hcolors.symm.trans hi)
  have hpalette := mem_palette_of_select hselect
    (fun other hother => absurd (List.eq_of_mem_replicate hother) nofun)
    (mem_of_getD_eq_some hchosen)
  exact List.mem_range.mp hpalette

/-- A graph that is colored has a color for every vertex, and neighbors differ. -/
theorem color_spec (sound : graph.Sound) {bound : Nat} {colors : List Nat}
    (h : color graph bound = .ok colors) :
    colors.length = graph.size ∧
      ∀ i j, j ∈ graph.neighbors i → colors[i]? ≠ colors[j]? := by
  obtain ⟨order, result, _, _, hproper, hlength, hget⟩ := exists_select_of_color sound h
  refine ⟨hlength, fun i j hedge heq => ?_⟩
  obtain ⟨color, hi, hi'⟩ := hget i (sound.lt_of_mem_neighbors hedge)
  obtain ⟨color', hj, hj'⟩ := hget j (sound.neighbor_lt hedge)
  rw [hi', hj'] at heq
  cases heq
  exact hproper i j color hedge hi hj

theorem get?_foldl_insert_of_not_mem {entries : List (String × UInt16)} {map : RegisterMap}
    {name : String} (h : name ∉ entries.map (·.1)) :
    (entries.foldl (fun map entry => map.insert entry.1 entry.2) map).get? name =
      map.get? name := by
  induction entries generalizing map with
  | nil => rfl
  | cons first rest ih =>
    simp only [List.map_cons, List.mem_cons, not_or] at h
    rw [List.foldl_cons, ih h.2, NameMap.get?_insert_of_ne map h.1]

theorem get?_foldl_insert_of_mem {entries : List (String × UInt16)} {map : RegisterMap}
    {name : String} {register : UInt16} (distinct : (entries.map (·.1)).Nodup)
    (h : (name, register) ∈ entries) :
    (entries.foldl (fun map entry => map.insert entry.1 entry.2) map).get? name =
      some register := by
  induction entries generalizing map with
  | nil => cases h
  | cons first rest ih =>
    obtain ⟨hfirst, hrest⟩ := List.nodup_cons.mp distinct
    rw [List.foldl_cons]
    rcases List.mem_cons.mp h with rfl | h
    · rw [get?_foldl_insert_of_not_mem hfirst, NameMap.get?_insert_self]
    · exact ih hrest h

/-- The register of a variable is the color of its vertex. -/
theorem get?_colorMap (sound : graph.Sound) {colors : List Nat}
    (hlength : colors.length = graph.size) {name : String} {i : Nat}
    (h : graph.index? name = some i) :
    (colorMap graph colors).get? name = colors[i]?.map UInt16.ofNat := by
  have hlt : i < colors.length := hlength ▸ sound.index?_lt h
  rw [List.getElem?_eq_getElem hlt]
  refine get?_foldl_insert_of_mem ?_ ?_
  · rw [List.map_fst_zip]
    · exact sound.distinct
    · rw [List.length_map, hlength]
      exact Nat.le_refl _
  · refine List.mem_of_getElem? (i := i) ?_
    rw [List.getElem?_zip_eq_some, List.getElem?_map, List.getElem?_eq_getElem hlt]
    exact ⟨sound.numbers.mp h, rfl⟩

theorem ofNat_inj {left right : Nat} (hleft : left < UInt16.size) (hright : right < UInt16.size)
    (h : UInt16.ofNat left = UInt16.ofNat right) : left = right := by
  rw [← UInt16.toNat_ofNat_of_lt' hleft, h, UInt16.toNat_ofNat_of_lt' hright]

/-- What a register map has to give so that no value is lost: a register for each variable that an
instruction reads or writes, and different ones to variables that clash. -/
structure Separates (flow : Flow.Graph) (map : RegisterMap) : Prop where
  assigned : ∀ {name}, name ∈ Flow.Liveness.mentioned flow →
    ∃ register, map.get? name = some register
  differ : ∀ {index a b}, index < flow.size →
    InterferenceGraph.Clash flow flow.liveness index a b → map.get? a ≠ map.get? b

/-- Colored registers keep apart what is needed at the same time. Liveness, interference and
coloring meet here. -/
theorem coloredMap_spec {method : Code.Method} {bound : UInt16} {map : RegisterMap}
    (h : coloredMap method bound = .ok map) :
    ∃ flow, Flow.Graph.ofBody method.body = .ok flow ∧ Separates flow map := by
  rw [coloredMap] at h
  split at h
  · cases h
  · next flow hflow =>
    refine ⟨flow, hflow, ?_⟩
    have sound := InterferenceGraph.sound_ofMethod method flow flow.liveness
    simp only at h
    split at h
    · cases h
    · next colors hcolors =>
      cases h
      obtain ⟨hlength, hproper⟩ := color_spec sound hcolors
      constructor
      · intro name hname
        obtain ⟨i, hi⟩ := sound.exists_index?
          (InterferenceGraph.mem_names_ofMethod method flow flow.liveness
            (InterferenceGraph.mem_variableNames hname))
        have hlt : i < colors.length := hlength ▸ sound.index?_lt hi
        rw [get?_colorMap sound hlength hi, List.getElem?_eq_getElem hlt]
        exact ⟨_, rfl⟩
      · intro index a b hindex hclash
        obtain ⟨i, j, hi, hj, hedge⟩ := InterferenceGraph.interferes_iff.mp
          ((InterferenceGraph.interferes_ofMethod method flow flow.liveness).mpr
            ⟨index, hindex, hclash⟩)
        have hlt : i < colors.length := hlength ▸ sound.index?_lt hi
        have hlt' : j < colors.length := hlength ▸ sound.index?_lt hj
        rw [get?_colorMap sound hlength hi, get?_colorMap sound hlength hj,
          List.getElem?_eq_getElem hlt, List.getElem?_eq_getElem hlt']
        intro heq
        -- colors stay below the bound, so 16 bits tell them apart
        have hfits {color : Nat} (hcolor : color ∈ colors) : color < UInt16.size :=
          Nat.lt_trans (color_lt sound hcolors hcolor) bound.toNat_lt
        have hsame := ofNat_inj (hfits (List.getElem_mem hlt)) (hfits (List.getElem_mem hlt'))
          (Option.some.inj heq)
        refine hproper i j hedge ?_
        rw [List.getElem?_eq_getElem hlt, List.getElem?_eq_getElem hlt', hsame]

end ClassCompiler.Registers
