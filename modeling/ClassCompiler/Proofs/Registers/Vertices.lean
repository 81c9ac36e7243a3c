import ClassCompiler.Proofs.Registers.Allocation

/-!
# Interference as liveness prescribes it

The vertices of the graph come before its edges: the locals first, then what the instructions read
and write, each name where it first appears. Whatever is live is read by some instruction, so every
edge joins two vertices that are there already, and no edge adds one or moves one.
-/

namespace ClassCompiler.Registers

namespace InterferenceGraph

section

variable {graph : InterferenceGraph} {names : List String}

theorem InStep.names_addVertex (inStep : graph.InStep) (name : String) :
    (graph.addVertex name).1.names =
      if name ∈ graph.names then graph.names else graph.names ++ [name] := by
  rw [InterferenceGraph.names_addVertex]
  cases hindex : graph.index? name with
  | some i => simp [inStep.mem_names hindex]
  | none => simp [inStep.index?_eq_none.mp hindex]

/-- A variable that is added comes last, unless it is there. -/
theorem names_addVertex_of_eraseDups (inStep : graph.InStep) (h : graph.names = names.eraseDups)
    (name : String) : (graph.addVertex name).1.names = (names ++ [name]).eraseDups := by
  rw [inStep.names_addVertex, h, List.eraseDups_append]
  by_cases hmem : name ∈ names
  · simp [hmem, List.removeAll]
  · simp [hmem, List.removeAll, List.eraseDups_cons]

theorem sound_addVertices (names : List String) : (empty.addVertices names).Sound :=
  (empty.extends_addVertices names).sound sound_empty

theorem names_addVertices (names : List String) :
    (empty.addVertices names).names = names.eraseDups := by
  induction names using List.reverseRecOn with
  | nil => rfl
  | append_singleton names last ih =>
    have hstep : empty.addVertices (names ++ [last]) =
        ((empty.addVertices names).addVertex last).1 := by
      simp [addVertices]
    rw [hstep, names_addVertex_of_eraseDups (sound_addVertices names).toInStep ih]

theorem names_addEdge (inStep : graph.InStep) {left right : String} (hleft : left ∈ graph.names)
    (hright : right ∈ graph.names) : (graph.addEdge left right).names = graph.names := by
  rw [addEdge]
  split
  · rfl
  · have hfirst : (graph.addVertex left).1.names = graph.names := by
      rw [inStep.names_addVertex, if_pos hleft]
    have hsecond := (inStep_addVertex inStep left).names_addVertex right
    rw [hfirst, if_pos hright] at hsecond
    exact hsecond

theorem names_addStar {center : String} {others : List String} (sound : graph.Sound)
    (hgraph : graph.names = names) (hcenter : center ∈ names) (hothers : others ⊆ names) :
    (graph.addStar center others).names = names := by
  induction others generalizing graph with
  | nil => exact hgraph
  | cons first rest ih =>
    obtain ⟨hfirst, hrest⟩ := List.cons_subset.mp hothers
    refine ih ((graph.extends_addEdge center first).sound sound) ?_ hrest
    rw [names_addEdge sound.toInStep (hgraph ▸ hcenter) (hgraph ▸ hfirst), hgraph]

theorem names_addClique {clique : List String} (sound : graph.Sound) (hgraph : graph.names = names)
    (hclique : clique ⊆ names) : (graph.addClique clique).names = names := by
  induction clique generalizing graph with
  | nil => exact hgraph
  | cons first rest ih =>
    obtain ⟨hfirst, hrest⟩ := List.cons_subset.mp hclique
    exact ih ((graph.extends_addStar first rest).sound sound)
      (names_addStar sound hgraph hfirst hrest) hrest

/-- What is live after an instruction, and what the instruction writes, are vertices already. -/
theorem names_addLiveAfter {flow : Flow.Graph} {live : Flow.Liveness} {index : Nat}
    (sound : graph.Sound) (hgraph : graph.names = names)
    (hlive : (live.liveAfter index).names ⊆ names) (hdefs : (flow.defs index).names ⊆ names) :
    (addLiveAfter flow live graph index).names = names := by
  refine (List.foldlRecOn (flow.defs index).names _
    (motive := fun graph : InterferenceGraph => graph.Sound ∧ graph.names = names)
    ⟨(graph.extends_addClique _).sound sound, names_addClique sound hgraph hlive⟩ ?_).2
  rintro graph ⟨sound, hnames⟩ center hcenter
  exact ⟨(graph.extends_addStar center _).sound sound,
    names_addStar sound hnames (hdefs hcenter) hlive⟩

end

/-- Vertices come in the order in which their names first appear. -/
theorem names_ofMethod (method : Code.Method) (flow : Flow.Graph) :
    (ofMethod method flow flow.liveness).names = (variableNames method flow).eraseDups := by
  have hvertex {name : String} (h : name ∈ Flow.Liveness.mentioned flow) :
      name ∈ (variableNames method flow).eraseDups :=
    List.mem_eraseDups.mpr (mem_variableNames h)
  refine (List.foldlRecOn (List.range flow.size) _
    (motive := fun graph : InterferenceGraph =>
      graph.Sound ∧ graph.names = (variableNames method flow).eraseDups)
    ⟨sound_addVertices _, names_addVertices _⟩ ?_).2
  rintro graph ⟨sound, hnames⟩ index _
  refine ⟨(extends_addLiveAfter flow _ graph index).sound sound,
    names_addLiveAfter sound hnames (fun name hname => hvertex ?_) fun name hname => hvertex ?_⟩
  · exact mentioned_of_live hname
  · exact Flow.Liveness.defs_mentioned hname

/-- The names of a method are its locals, then what its instructions read and write. -/
theorem variableNames_eq {method : Code.Method} {flow : Flow.Graph}
    (h : Flow.Graph.ofBody method.body = .ok flow) :
    variableNames method flow = localNames method ++ method.body.flatMap fun line =>
      (Flow.usesOf line.instr).names ++ (Flow.defsOf line.instr).names := by
  have hsets := Flow.pointsFrom_sets (Flow.ofBody_eq h).2
  have hlisted := congrArg (List.flatMap fun sets => sets.1.names ++ sets.2.names) hsets
  rw [List.flatMap_map, List.flatMap_map] at hlisted
  rw [variableNames, hlisted, localNames]

end InterferenceGraph

open InterferenceGraph in
/-- The interference graph of a method that has a flow graph. Its vertices are the locals that take
registers and then the other names that instructions read and write, each once and where it first
appears. Whatever is live after an instruction is a vertex. Two variables interfere exactly if they
differ and, after some instruction, both are live, or one is live and the instruction writes the
other. -/
theorem interference_exact (method : Code.Method) (flow : Flow.Graph)
    (h : Flow.Graph.ofBody method.body = .ok flow) :
    (ofMethod method flow flow.liveness).names.Nodup ∧
    (ofMethod method flow flow.liveness).names =
      (localNames method ++ method.body.flatMap fun line =>
        (Flow.usesOf line.instr).names ++ (Flow.defsOf line.instr).names).eraseDups ∧
    (∀ index name, name ∈ flow.liveness.liveAfter index →
      name ∈ (ofMethod method flow flow.liveness).names) ∧
    ∀ a b, (ofMethod method flow flow.liveness).interferes a b = true ↔
      a ≠ b ∧ ∃ index < method.body.length,
        a ∈ flow.liveness.liveAfter index ∧ b ∈ flow.liveness.liveAfter index ∨
        a ∈ flow.defs index ∧ b ∈ flow.liveness.liveAfter index ∨
        b ∈ flow.defs index ∧ a ∈ flow.liveness.liveAfter index := by
  refine ⟨(sound_ofMethod method flow flow.liveness).distinct, ?_, ?_, ?_⟩
  · rw [names_ofMethod, variableNames_eq h]
  · intro index name hlive
    rw [names_ofMethod]
    exact List.mem_eraseDups.mpr (mem_variableNames (mentioned_of_live hlive))
  · intro a b
    rw [interferes_ofMethod, Flow.size_eq h]
    constructor
    · rintro ⟨index, hlt, hne, hclash⟩
      exact ⟨hne, index, hlt, hclash⟩
    · rintro ⟨hne, index, hlt, hclash⟩
      exact ⟨index, hlt, hne, hclash⟩

/-- Code with a value that nothing reads. Its locals are not in the order of their names, and two of
its variables are not among them. -/
def dropping : Code.Method where
  name := "dropping"
  isStatic := true
  isConstructor := false
  parameters := [.parameter "n" .int 1]
  returnTy := .int
  locals := [.declared "z" .int, .declared "a" .int]
  body :=
    let z : Code.Operand := .var (.declared "z" .int)
    let a : Code.Operand := .var (.declared "a" .int)
    let sum : Code.Operand := .var (.temporary "t2" .int)
    [⟨[], .assign z .int (.load (.var (.parameter "n" .int 1)))⟩,
      ⟨[], .assign a .int (.load (.int 2))⟩,
      ⟨[], .assign sum .int (.binary .add z a)⟩,
      ⟨[], .assign (.var (.temporary "t1" .int)) .int (.binary .mul sum sum)⟩,
      ⟨[], .ret .int (some sum)⟩]

open InterferenceGraph in
/-- The value that nothing reads interferes with the one that is still needed when it is written,
and the sum takes the place of what it is made of. -/
theorem interference_dropping :
    ∃ flow, Flow.Graph.ofBody dropping.body = .ok flow ∧
      (ofMethod dropping flow flow.liveness).names = ["z", "a", "t2", "t1"] ∧
      (ofMethod dropping flow flow.liveness).interferes "a" "z" = true ∧
      (ofMethod dropping flow flow.liveness).interferes "t1" "t2" = true ∧
      (ofMethod dropping flow flow.liveness).interferes "z" "t2" = false ∧
      "t2" ∈ flow.liveness.liveAfter 3 ∧ "t2" ∈ (ofMethod dropping flow flow.liveness).names := by
  refine ⟨_, rfl, ?_⟩
  obtain ⟨_, hnames, hlive, hedges⟩ := interference_exact dropping _ rfl
  refine ⟨hnames.trans (by decide +kernel), (hedges _ _).mpr ?_, (hedges _ _).mpr ?_,
    by decide +kernel, by decide +kernel, hlive 3 "t2" (by decide +kernel)⟩
  · exact ⟨by decide, 1, by decide, .inl ⟨by decide +kernel, by decide +kernel⟩⟩
  · exact ⟨by decide, 3, by decide, .inr (.inl ⟨by decide +kernel, by decide +kernel⟩)⟩

end ClassCompiler.Registers
