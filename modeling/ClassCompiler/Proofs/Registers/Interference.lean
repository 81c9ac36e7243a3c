import ClassCompiler.Proofs.Flow.Liveness
import ClassCompiler.Registers.Interference

/-!
# The edges of an interference graph

Each way of building a graph extends it: it keeps the graph sound and the variables in it, and it
adds certain edges and no others. What is said of adding one edge therefore gives the edges of the
interference graph of a method.
-/

namespace ClassCompiler.Registers.InterferenceGraph

theorem mem_placeNumber {number other : Nat} {numbers : List Nat} :
    other ∈ placeNumber number numbers ↔ other = number ∨ other ∈ numbers := by
  induction numbers with
  | nil => simp [placeNumber]
  | cons first rest ih =>
    rw [placeNumber]
    split
    · simp
    · split
      · next heq => subst heq; simp
      · rw [List.mem_cons, ih, List.mem_cons]
        exact or_left_comm

/-- The parts of a graph are in step: names and numbers tell each other, and each number has its
list of neighbors. -/
structure InStep (graph : InterferenceGraph) : Prop where
  numbers : ∀ {name i}, graph.index? name = some i ↔ graph.names[i]? = some name
  adjacency : graph.adjacency.length = graph.size

/-- Besides, interference is symmetric and irreflexive. -/
structure Sound (graph : InterferenceGraph) : Prop extends InStep graph where
  symm : ∀ {i j}, j ∈ graph.neighbors i → i ∈ graph.neighbors j
  irrefl : ∀ {i}, i ∉ graph.neighbors i

section

variable {graph : InterferenceGraph}

namespace InStep

variable (inStep : graph.InStep)

include inStep

theorem distinct : graph.names.Nodup := by
  refine List.pairwise_iff_getElem.mpr fun i j hi hj hlt hsame => ?_
  have hleft := inStep.numbers.mpr (List.getElem?_eq_getElem hi)
  have hright := inStep.numbers.mpr (List.getElem?_eq_getElem hj)
  rw [hsame, hright] at hleft
  exact Nat.ne_of_gt hlt (Option.some.inj hleft)

theorem index?_lt {name : String} {i : Nat} (h : graph.index? name = some i) : i < graph.size :=
  (List.getElem?_eq_some_iff.mp (inStep.numbers.mp h)).1

theorem index?_inj {left right : String} {i : Nat} (hleft : graph.index? left = some i)
    (hright : graph.index? right = some i) : left = right := by
  have h := (inStep.numbers.mp hleft).symm.trans (inStep.numbers.mp hright)
  exact Option.some.inj h

theorem exists_index? {name : String} (h : name ∈ graph.names) :
    ∃ i, graph.index? name = some i := by
  obtain ⟨i, hi⟩ := List.mem_iff_getElem?.mp h
  exact ⟨i, inStep.numbers.mpr hi⟩

theorem mem_names {name : String} {i : Nat} (h : graph.index? name = some i) :
    name ∈ graph.names :=
  List.mem_of_getElem? (inStep.numbers.mp h)

theorem index?_eq_none {name : String} : graph.index? name = none ↔ name ∉ graph.names := by
  constructor
  · intro hnone hmem
    obtain ⟨i, hi⟩ := inStep.exists_index? hmem
    rw [hnone] at hi
    cases hi
  · intro hfresh
    rw [Option.eq_none_iff_forall_ne_some]
    intro i hi
    exact hfresh (inStep.mem_names hi)

theorem lt_of_mem_neighbors {i j : Nat} (h : j ∈ graph.neighbors i) : i < graph.size := by
  rw [← inStep.adjacency]
  refine Nat.lt_of_not_le fun hout => ?_
  rw [neighbors, List.getD_eq_getElem?_getD, List.getElem?_eq_none hout] at h
  cases h

end InStep

theorem Sound.neighbor_lt (sound : graph.Sound) {i j : Nat} (h : j ∈ graph.neighbors i) :
    j < graph.size := sound.lt_of_mem_neighbors (sound.symm h)

/-- Interference by names is that of the numbers of the names. -/
theorem interferes_iff {left right : String} :
    graph.interferes left right = true ↔ ∃ i j, graph.index? left = some i ∧
      graph.index? right = some j ∧ j ∈ graph.neighbors i := by
  rw [interferes]
  constructor
  · intro h
    split at h
    · next i j hi hj => exact ⟨i, j, hi, hj, by simpa using h⟩
    · cases h
  · rintro ⟨i, j, hi, hj, hmem⟩
    rw [hi, hj]
    simpa using hmem

theorem names_addVertex (name : String) :
    (graph.addVertex name).1.names =
      if (graph.index? name).isSome then graph.names else graph.names ++ [name] := by
  rw [addVertex]
  cases hindex : graph.index? name <;> simp

theorem neighbors_addVertex (name : String) (i : Nat) :
    (graph.addVertex name).1.neighbors i = graph.neighbors i := by
  rw [addVertex]
  split
  · rfl
  · simp only [neighbors, List.getD_eq_getElem?_getD]
    by_cases hlt : i < graph.adjacency.length
    · rw [List.getElem?_append_left hlt]
    · have hle := Nat.not_lt.mp hlt
      rw [List.getElem?_append_right hle, List.getElem?_eq_none hle]
      cases hsub : i - graph.adjacency.length with
      | zero => rfl
      | succ past => rfl

/-- A new vertex gets the next number, and no other number changes. -/
theorem index?_addVertex (name other : String) :
    (graph.addVertex name).1.index? other =
      (graph.index? other).or (if other = name then some graph.size else none) := by
  rw [addVertex]
  split
  · next i hi =>
    by_cases heq : other = name
    · subst heq
      simp [hi]
    · simp [heq]
  · next hnone =>
    by_cases heq : other = name
    · subst heq
      rw [hnone, Option.none_or, if_pos rfl]
      exact NameMap.get?_insert_self ..
    · simp [index?, NameMap.get?_insert_of_ne _ heq, heq]

/-- The number that adding a variable gives is its number afterwards. -/
theorem index?_addVertex_self (name : String) :
    (graph.addVertex name).1.index? name = some (graph.addVertex name).2 := by
  rw [index?_addVertex, addVertex]
  cases hindex : graph.index? name <;> simp

/-- A new variable takes the next number in all three parts. -/
theorem inStep_addVertex (inStep : graph.InStep) (name : String) :
    (graph.addVertex name).1.InStep := by
  cases hindex : graph.index? name with
  | some i =>
    rw [addVertex, hindex]
    exact inStep
  | none =>
    constructor
    · intro other i
      rw [index?_addVertex, names_addVertex, hindex, Option.isSome_none, if_neg Bool.false_ne_true,
        List.getElem?_append, ← size]
      by_cases hlt : i < graph.size
      · -- numbers that were there before keep their names
        have hne : graph.size ≠ i := Nat.ne_of_gt hlt
        rw [if_pos hlt, ← inStep.numbers]
        cases hother : graph.index? other <;> simp [hne]
      · have hout : graph.index? other ≠ some i := fun h => hlt (inStep.index?_lt h)
        rw [if_neg hlt, List.getElem?_singleton]
        by_cases heq : other = name
        · subst heq
          rw [hindex]
          grind
        · cases hother : graph.index? other <;> grind
    · rw [addVertex, hindex]
      simp [size, inStep.adjacency]

theorem sound_addVertex (sound : graph.Sound) (name : String) : (graph.addVertex name).1.Sound := by
  refine ⟨inStep_addVertex sound.toInStep name, ?_, ?_⟩
  · intro i j h
    rw [neighbors_addVertex] at h ⊢
    exact sound.symm h
  · intro i h
    rw [neighbors_addVertex] at h
    exact sound.irrefl h

theorem interferes_addVertex (sound : graph.Sound) (name : String) {left right : String} :
    (graph.addVertex name).1.interferes left right = true ↔ graph.interferes left right = true := by
  simp only [interferes_iff, neighbors_addVertex, index?_addVertex]
  constructor
  · rintro ⟨i, j, hi, hj, hmem⟩
    have hlt := sound.lt_of_mem_neighbors hmem
    have hlt' := sound.neighbor_lt hmem
    refine ⟨i, j, ?_, ?_, hmem⟩
    · rcases Option.or_eq_some_iff.mp hi with h | ⟨_, h⟩
      · exact h
      · split at h <;> cases h
        exact absurd hlt (Nat.lt_irrefl _)
    · rcases Option.or_eq_some_iff.mp hj with h | ⟨_, h⟩
      · exact h
      · split at h <;> cases h
        exact absurd hlt' (Nat.lt_irrefl _)
  · rintro ⟨i, j, hi, hj, hmem⟩
    exact ⟨i, j, by simp [hi], by simp [hj], hmem⟩

theorem inStep_link (inStep : graph.InStep) (i j : Nat) : (graph.link i j).InStep :=
  ⟨inStep.numbers, (List.length_modify ..).trans inStep.adjacency⟩

theorem mem_neighbors_link (inStep : graph.InStep) {i : Nat} (hlt : i < graph.size) (j : Nat)
    {k m : Nat} :
    m ∈ (graph.link i j).neighbors k ↔ m ∈ graph.neighbors k ∨ k = i ∧ m = j := by
  simp only [neighbors, link, List.getD_eq_getElem?_getD, List.getElem?_modify]
  by_cases heq : i = k
  · subst heq
    rw [← inStep.adjacency] at hlt
    simp [List.getElem?_eq_getElem hlt, mem_placeNumber, or_comm]
  · have hne : k ≠ i := fun h => heq h.symm
    simp [heq, hne]

/-- The edges that adding one edge adds, in both directions. -/
def NewEdge (left right a b : String) : Prop :=
  left ≠ right ∧ (a = left ∧ b = right ∨ a = right ∧ b = left)

/-- Two numbers that are made neighbors of each other. -/
theorem mem_neighbors_link_link (inStep : graph.InStep) {i j : Nat} (hi : i < graph.size)
    (hj : j < graph.size) {k m : Nat} :
    m ∈ ((graph.link i j).link j i).neighbors k ↔
      m ∈ graph.neighbors k ∨ k = i ∧ m = j ∨ k = j ∧ m = i := by
  rw [mem_neighbors_link (inStep_link inStep i j) hj, mem_neighbors_link inStep hi, or_assoc]

/-- Linking both ways adds one edge, in both directions. -/
theorem interferes_link_link (inStep : graph.InStep) {left right : String} {i j : Nat}
    (hleft : graph.index? left = some i) (hright : graph.index? right = some j) {a b : String} :
    ((graph.link i j).link j i).interferes a b = true ↔ graph.interferes a b = true ∨
      (a = left ∧ b = right ∨ a = right ∧ b = left) := by
  have hi := inStep.index?_lt hleft
  have hj := inStep.index?_lt hright
  have hindex (name : String) : ((graph.link i j).link j i).index? name = graph.index? name := rfl
  simp only [interferes_iff, hindex, mem_neighbors_link_link inStep hi hj]
  constructor
  · rintro ⟨k, m, hk, hm, hmem | ⟨rfl, rfl⟩ | ⟨rfl, rfl⟩⟩
    · exact .inl ⟨k, m, hk, hm, hmem⟩
    · exact .inr (.inl ⟨inStep.index?_inj hk hleft, inStep.index?_inj hm hright⟩)
    · exact .inr (.inr ⟨inStep.index?_inj hk hright, inStep.index?_inj hm hleft⟩)
  · rintro (⟨k, m, hk, hm, hmem⟩ | ⟨rfl, rfl⟩ | ⟨rfl, rfl⟩)
    · exact ⟨k, m, hk, hm, .inl hmem⟩
    · exact ⟨i, j, hleft, hright, .inr (.inl ⟨rfl, rfl⟩)⟩
    · exact ⟨j, i, hright, hleft, .inr (.inr ⟨rfl, rfl⟩)⟩

/-- Linking both ways keeps interference symmetric. It stays irreflexive if the ends differ. -/
theorem sound_link_link (sound : graph.Sound) {i j : Nat} (hi : i < graph.size)
    (hj : j < graph.size) (hne : i ≠ j) : ((graph.link i j).link j i).Sound := by
  refine ⟨inStep_link (inStep_link sound.toInStep i j) j i, ?_, ?_⟩
  · intro k m h
    rw [mem_neighbors_link_link sound.toInStep hi hj] at h ⊢
    rcases h with h | ⟨rfl, rfl⟩ | ⟨rfl, rfl⟩
    · exact .inl (sound.symm h)
    · exact .inr (.inr ⟨rfl, rfl⟩)
    · exact .inr (.inl ⟨rfl, rfl⟩)
  · intro k h
    rw [mem_neighbors_link_link sound.toInStep hi hj] at h
    rcases h with h | ⟨rfl, rfl⟩ | ⟨rfl, rfl⟩
    · exact sound.irrefl h
    · exact hne rfl
    · exact hne rfl

end

/-- The second graph is the first one with certain new edges, and perhaps new variables. -/
structure Extends (graph graph' : InterferenceGraph) (new : String → String → Prop) : Prop where
  sound : graph.Sound → graph'.Sound
  interferes_iff : graph.Sound → ∀ {a b},
    graph'.interferes a b = true ↔ graph.interferes a b = true ∨ new a b
  names_subset : ∀ {name}, name ∈ graph.names → name ∈ graph'.names

namespace Extends

variable {graph graph' graph'' : InterferenceGraph} {new new' : String → String → Prop}

theorem refl (graph : InterferenceGraph) : Extends graph graph fun _ _ => False :=
  ⟨id, fun _ _ _ => (or_false _).symm ▸ Iff.rfl, id⟩

theorem trans (h : Extends graph graph' new) (h' : Extends graph' graph'' new') :
    Extends graph graph'' fun a b => new a b ∨ new' a b := by
  refine ⟨fun sound => h'.sound (h.sound sound), fun sound a b => ?_,
    fun hmem => h'.names_subset (h.names_subset hmem)⟩
  rw [h'.interferes_iff (h.sound sound), h.interferes_iff sound, or_assoc]

theorem congr (h : Extends graph graph' new) (hnew : ∀ a b, new a b ↔ new' a b) :
    Extends graph graph' new' :=
  ⟨h.sound, fun sound a b => by rw [h.interferes_iff sound, hnew], h.names_subset⟩

/-- Steps that extend a graph one after the other. -/
theorem foldl {α : Type} {step : InterferenceGraph → α → InterferenceGraph}
    {new : α → String → String → Prop}
    (h : ∀ graph item, Extends graph (step graph item) (new item))
    (items : List α) (graph : InterferenceGraph) :
    Extends graph (items.foldl step graph) fun a b => ∃ item ∈ items, new item a b := by
  induction items generalizing graph with
  | nil => exact (refl graph).congr fun a b => by simp
  | cons first rest ih => exact ((h graph first).trans (ih _)).congr fun a b => by simp

end Extends

section

variable (graph : InterferenceGraph)

theorem extends_addVertex (name : String) :
    Extends graph (graph.addVertex name).1 fun _ _ => False := by
  refine ⟨fun sound => sound_addVertex sound name,
    fun sound a b => by rw [interferes_addVertex sound, or_false], fun {other} hmem => ?_⟩
  rw [names_addVertex]
  split
  · exact hmem
  · exact List.mem_append_left _ hmem

theorem mem_names_addVertex {graph : InterferenceGraph} (inStep : graph.InStep) (name : String) :
    name ∈ (graph.addVertex name).1.names :=
  (inStep_addVertex inStep name).mem_names (graph.index?_addVertex_self name)

/-- An edge from a variable to itself adds the variable and no edge. -/
theorem extends_addEdge (left right : String) :
    Extends graph (graph.addEdge left right) (NewEdge left right) := by
  rw [addEdge]
  split
  · next heq => exact (Extends.refl graph).congr fun a b => by simp [NewEdge, heq]
  · next hne =>
    -- the graph once both variables are in it
    have both := (graph.extends_addVertex left).trans
      ((graph.addVertex left).1.extends_addVertex right)
    have hleft := graph.index?_addVertex_self left
    have hright := (graph.addVertex left).1.index?_addVertex_self right
    have hleft' : ((graph.addVertex left).1.addVertex right).1.index? left =
        some (graph.addVertex left).2 := by
      rw [index?_addVertex, hleft]
      rfl
    refine ⟨fun sound => ?_, fun sound a b => ?_, both.names_subset⟩
    · have sound' := both.sound sound
      refine sound_link_link sound' (sound'.index?_lt hleft') (sound'.index?_lt hright) ?_
      intro heq
      exact hne (sound'.index?_inj hleft' (heq ▸ hright))
    · rw [interferes_link_link (both.sound sound).toInStep hleft' hright, both.interferes_iff sound]
      simp [NewEdge, hne]

theorem extends_addVertices (names : List String) :
    Extends graph (graph.addVertices names) fun _ _ => False :=
  (Extends.foldl (fun graph name => graph.extends_addVertex name) names graph).congr
    fun a b => by simp

theorem mem_names_addVertices {graph : InterferenceGraph} (inStep : graph.InStep)
    {names : List String} {name : String} (h : name ∈ names) :
    name ∈ (graph.addVertices names).names := by
  induction names generalizing graph with
  | nil => cases h
  | cons first rest ih =>
    rcases List.mem_cons.mp h with rfl | h
    · exact ((graph.addVertex name).1.extends_addVertices rest).names_subset
        (mem_names_addVertex inStep name)
    · exact ih (inStep_addVertex inStep first) h

theorem extends_addStar (center : String) (names : List String) :
    Extends graph (graph.addStar center names) fun a b =>
      a ≠ b ∧ (a = center ∧ b ∈ names ∨ b = center ∧ a ∈ names) := by
  refine (Extends.foldl (fun graph name => graph.extends_addEdge center name) names graph).congr
    fun a b => ?_
  constructor
  · rintro ⟨name, hmem, hne, ⟨rfl, rfl⟩ | ⟨rfl, rfl⟩⟩
    · exact ⟨hne, .inl ⟨rfl, hmem⟩⟩
    · exact ⟨hne.symm, .inr ⟨rfl, hmem⟩⟩
  · rintro ⟨hne, ⟨rfl, hmem⟩ | ⟨rfl, hmem⟩⟩
    · exact ⟨b, hmem, hne, .inl ⟨rfl, rfl⟩⟩
    · exact ⟨a, hmem, hne.symm, .inr ⟨rfl, rfl⟩⟩

/-- A clique is a star around its first variable and a clique of the others. -/
theorem extends_addClique (names : List String) :
    Extends graph (graph.addClique names) fun a b => a ≠ b ∧ a ∈ names ∧ b ∈ names := by
  induction names generalizing graph with
  | nil => exact (Extends.refl graph).congr fun a b => by simp
  | cons first rest ih =>
    refine ((graph.extends_addStar first rest).trans (ih (graph.addStar first rest))).congr
      fun a b => ?_
    simp only [List.mem_cons]
    constructor
    · rintro (⟨hne, ⟨ha, hb⟩ | ⟨hb, ha⟩⟩ | ⟨hne, ha, hb⟩)
      · exact ⟨hne, .inl ha, .inr hb⟩
      · exact ⟨hne, .inr ha, .inl hb⟩
      · exact ⟨hne, .inr ha, .inr hb⟩
    · rintro ⟨hne, ha | ha, hb | hb⟩
      · exact absurd (ha.trans hb.symm) hne
      · exact .inl ⟨hne, .inl ⟨ha, hb⟩⟩
      · exact .inl ⟨hne, .inr ⟨hb, ha⟩⟩
      · exact .inr ⟨hne, ha, hb⟩

end

/-- Two variables clash at an instruction: both are live after it, or one of them is and the
instruction writes the other. -/
def Clash (flow : Flow.Graph) (live : Flow.Liveness) (index : Nat) (a b : String) : Prop :=
  a ≠ b ∧ (a ∈ live.liveAfter index ∧ b ∈ live.liveAfter index ∨
    a ∈ flow.defs index ∧ b ∈ live.liveAfter index ∨
    b ∈ flow.defs index ∧ a ∈ live.liveAfter index)

/-- An instruction adds exactly the edges between variables that clash at it. -/
theorem extends_addLiveAfter (flow : Flow.Graph) (live : Flow.Liveness) (graph : InterferenceGraph)
    (index : Nat) :
    Extends graph (addLiveAfter flow live graph index) (Clash flow live index) := by
  have stars := Extends.foldl
    (fun graph name => graph.extends_addStar name (live.liveAfter index).names)
    (flow.defs index).names (graph.addClique (live.liveAfter index).names)
  refine ((graph.extends_addClique _).trans stars).congr fun a b => ?_
  simp only [NameSet.mem_names, Clash]
  constructor
  · rintro (⟨hne, ha, hb⟩ | ⟨_, hdef, hne, ⟨rfl, hb⟩ | ⟨rfl, ha⟩⟩)
    · exact ⟨hne, .inl ⟨ha, hb⟩⟩
    · exact ⟨hne, .inr (.inl ⟨hdef, hb⟩)⟩
    · exact ⟨hne, .inr (.inr ⟨hdef, ha⟩)⟩
  · rintro ⟨hne, ⟨ha, hb⟩ | ⟨hdef, hb⟩ | ⟨hdef, ha⟩⟩
    · exact .inl ⟨hne, ha, hb⟩
    · exact .inr ⟨a, hdef, hne, .inl ⟨rfl, hb⟩⟩
    · exact .inr ⟨b, hdef, hne, .inr ⟨rfl, ha⟩⟩

theorem sound_empty : empty.Sound := by
  have inStep : empty.InStep := ⟨by simp [empty, index?], rfl⟩
  refine ⟨inStep, fun h => ?_, fun h => ?_⟩
  · exact absurd (inStep.lt_of_mem_neighbors h) (Nat.not_lt_zero _)
  · exact absurd (inStep.lt_of_mem_neighbors h) (Nat.not_lt_zero _)

section

variable (method : Code.Method) (flow : Flow.Graph) (live : Flow.Liveness)

theorem extends_ofMethod :
    Extends empty (ofMethod method flow live) fun a b =>
      ∃ index < flow.size, Clash flow live index a b := by
  refine ((empty.extends_addVertices (variableNames method flow)).trans
    (Extends.foldl (extends_addLiveAfter flow live) (List.range flow.size) _)).congr fun a b => ?_
  simp

theorem sound_ofMethod : (ofMethod method flow live).Sound :=
  (extends_ofMethod method flow live).sound sound_empty

/-- Variables interfere exactly if they clash at some instruction. -/
theorem interferes_ofMethod {a b : String} :
    (ofMethod method flow live).interferes a b = true ↔
      ∃ index < flow.size, Clash flow live index a b := by
  rw [(extends_ofMethod method flow live).interferes_iff sound_empty]
  refine or_iff_right fun h => ?_
  obtain ⟨i, _, hi, _⟩ := interferes_iff.mp h
  cases hi

theorem mem_names_ofMethod {name : String} (h : name ∈ variableNames method flow) :
    name ∈ (ofMethod method flow live).names :=
  (Extends.foldl (extends_addLiveAfter flow live) (List.range flow.size) _).names_subset
    (mem_names_addVertices sound_empty.toInStep h)

end

theorem mem_variableNames {method : Code.Method} {flow : Flow.Graph} {name : String}
    (h : name ∈ Flow.Liveness.mentioned flow) : name ∈ variableNames method flow := by
  obtain ⟨point, hpoint, hname⟩ := Flow.Liveness.mem_mentioned.mp h
  refine List.mem_append_right _ (List.mem_flatMap.mpr ⟨point, by simpa using hpoint, ?_⟩)
  rcases hname with huse | hdef
  · exact List.mem_append_left _ huse
  · exact List.mem_append_right _ hdef

end ClassCompiler.Registers.InterferenceGraph
