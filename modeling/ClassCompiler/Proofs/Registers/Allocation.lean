import ClassCompiler.Proofs.Flow.Graph
import ClassCompiler.Proofs.Lowering.Methods
import ClassCompiler.Proofs.Registers.Core
import ClassCompiler.Proofs.Stack.Lowered

/-!
# Registers of lowered code

Lowered code has a flow graph, as its labels are in order, and every local and temporary in it is
declared, so a register map has it. Registers can therefore always be assigned if there is no bound
on them. Under a bound they can, unless the interference graph of a method resists coloring.
-/

namespace ClassCompiler.Registers

open Code (Labeled Method Variable)

namespace InterferenceGraph

/-- Graphs that are built from some variables. -/
inductive Built (names : List String) : InterferenceGraph → Prop where
  | empty : Built names empty
  | vertex {graph : InterferenceGraph} {name : String} (h : Built names graph)
      (hname : name ∈ names) : Built names (graph.addVertex name).1
  | edge {graph : InterferenceGraph} {left right : String} (h : Built names graph)
      (hleft : left ∈ names) (hright : right ∈ names) : Built names (graph.addEdge left right)

variable {names : List String} {graph : InterferenceGraph}

theorem Built.simple (h : Built names graph) : graph.Simple := by
  induction h with
  | empty => exact simple_ofAdditions []
  | vertex _ _ ih => exact simple_add ih (.vertex _)
  | edge _ _ _ ih => exact simple_add ih (.edge _ _)

theorem names_addVertex_subset {name : String} (hgraph : graph.names ⊆ names)
    (hname : name ∈ names) : (graph.addVertex name).1.names ⊆ names := by
  rw [addVertex]
  split
  · exact hgraph
  · simpa [InterferenceGraph.names] using ⟨hgraph, hname⟩

theorem Built.names_subset (h : Built names graph) : graph.names ⊆ names := by
  induction h with
  | empty => exact List.nil_subset names
  | vertex _ hname ih => exact names_addVertex_subset ih hname
  | edge _ hleft hright ih =>
    rw [addEdge]
    split
    · exact ih
    · exact names_addVertex_subset (names_addVertex_subset ih hleft) hright

theorem Built.foldl {α : Type} {step : InterferenceGraph → α → InterferenceGraph} {items : List α}
    (hstep : ∀ item ∈ items, ∀ graph, Built names graph → Built names (step graph item))
    (h : Built names graph) : Built names (items.foldl step graph) := by
  induction items generalizing graph with
  | nil => exact h
  | cons first rest ih =>
    exact ih (fun item hitem => hstep item (List.mem_cons_of_mem first hitem))
      (hstep first List.mem_cons_self graph h)

theorem Built.addStar {center : String} {others : List String} (h : Built names graph)
    (hcenter : center ∈ names) (hothers : others ⊆ names) :
    Built names (graph.addStar center others) :=
  h.foldl fun _ hname _ hgraph => hgraph.edge hcenter (hothers hname)

theorem Built.addClique {clique : List String} (h : Built names graph) (hclique : clique ⊆ names) :
    Built names (graph.addClique clique) := by
  induction clique generalizing graph with
  | nil => exact h
  | cons first rest ih =>
    obtain ⟨hfirst, hrest⟩ := List.cons_subset.mp hclique
    exact ih (h.addStar hfirst hrest) hrest

theorem mentioned_of_live {flow : Flow.Graph} {index : Nat} {name : String}
    (h : name ∈ flow.liveness.liveAfter index) : name ∈ Flow.Liveness.mentioned flow := by
  obtain ⟨next, _, hlive⟩ := Flow.Liveness.mem_liveAfter.mp h
  exact (Flow.Liveness.solve_spec flow).1.before_mentioned hlive

/-- The interference graph of a method is built from the variables of the method. -/
theorem built_ofMethod (method : Method) (flow : Flow.Graph) :
    Built (variableNames method flow) (ofMethod method flow flow.liveness) := by
  have hlive (index : Nat) :
      (flow.liveness.liveAfter index).names ⊆ variableNames method flow :=
    fun name hname => mem_variableNames (mentioned_of_live (NameSet.mem_names.mp hname))
  refine Built.foldl (fun index _ graph h => ?_)
    (Built.foldl (fun _ hname _ h => h.vertex hname) .empty)
  refine Built.foldl (fun name hname _ h => h.addStar ?_ (hlive index)) (h.addClique (hlive index))
  exact mem_variableNames (Flow.Liveness.defs_mentioned (NameSet.mem_names.mp hname))

end InterferenceGraph

section

variable {entries : List (String × UInt16)} {map : RegisterMap} {name : String} {register : UInt16}

theorem mem_of_get?_ofList (h : (NameMap.ofList entries).get? name = some register) :
    (name, register) ∈ entries := by
  have fold : ∀ map : RegisterMap,
      (entries.foldl (fun map entry => map.insert entry.1 entry.2) map).get? name = some register →
      map.get? name = some register ∨ (name, register) ∈ entries := by
    clear h
    induction entries with
    | nil => exact fun map h => .inl h
    | cons first rest ih =>
      intro map h
      rcases ih _ h with h | h
      · by_cases heq : name = first.1
        · rw [heq, NameMap.get?_insert_self] at h
          cases h
          exact .inr (heq ▸ List.mem_cons_self)
        · rw [NameMap.get?_insert_of_ne map heq] at h
          exact .inl h
      · exact .inr (List.mem_cons_of_mem first h)
  exact (fold ∅ h).resolve_left nofun

theorem exists_get?_ofList (h : name ∈ entries.map (·.1)) :
    ∃ register, (NameMap.ofList entries).get? name = some register := by
  have fold : ∀ map : RegisterMap, (map.get? name).isSome ∨ name ∈ entries.map (·.1) →
      ((entries.foldl (fun map entry => map.insert entry.1 entry.2) map).get? name).isSome := by
    clear h
    induction entries with
    | nil => exact fun map h => h.resolve_right List.not_mem_nil
    | cons first rest ih =>
      intro map h
      refine ih _ ?_
      by_cases heq : name = first.1
      · exact .inl (by rw [heq, NameMap.get?_insert_self]; rfl)
      · rw [NameMap.get?_insert_of_ne map heq]
        exact h.imp_right fun hmem => List.mem_of_ne_of_mem heq hmem
  exact Option.isSome_iff_exists.mp (fold ∅ (.inr h))

end

variable {method : Method} {map : RegisterMap} {name : String} {register bound : UInt16}
  {bound? : Option UInt16}

def localNames (method : Method) : List String :=
  (method.locals.filter (·.isAllocatable)).map (·.name)

/-- Without a bound, a register is a place of its variable among the locals, as far as 16 bits can
count it. -/
theorem getElem?_of_naturalMap (h : (naturalMap method).get? name = some register) :
    ∃ index, (localNames method)[index]? = some name ∧ register = .ofNat index := by
  obtain ⟨⟨name', index⟩, hentry, heq⟩ := List.mem_map.mp (mem_of_get?_ofList h)
  cases heq
  exact ⟨index, List.mem_zipIdx_iff_getElem?.mp hentry, rfl⟩

theorem exists_get?_naturalMap (h : name ∈ localNames method) :
    ∃ register, (naturalMap method).get? name = some register := by
  refine exists_get?_ofList ?_
  have hnames : (fun entry : String × UInt16 => entry.1) ∘
      (fun entry : String × Nat => (entry.1, UInt16.ofNat entry.2)) = Prod.fst := rfl
  rw [List.map_map, hnames, List.zipIdx_map_fst]
  exact h

theorem coloredMap_eq_ok (h : coloredMap method bound = .ok map) :
    ∃ flow colors, Flow.Graph.ofBody method.body = .ok flow ∧
      color (.ofMethod method flow flow.liveness) bound.toNat = .ok colors ∧
      map = colorMap (.ofMethod method flow flow.liveness) colors := by
  unfold coloredMap at h
  split at h
  · cases h
  · next flow hflow =>
    simp only at h
    split at h
    · cases h
    · next colors hcolors =>
      cases h
      exact ⟨flow, colors, hflow, hcolors, rfl⟩

/-- A register map has every local and temporary of a method. -/
def Covers (map : RegisterMap) (method : Method) : Prop :=
  ∀ var ∈ method.vars, var.isAllocatable → ∃ register, map.get? var.name = some register

theorem unassigned?_eq_none : unassigned? map method = none ↔ Covers map method := by
  simp only [unassigned?, Option.map_eq_none_iff, List.find?_eq_none, Covers, Bool.and_eq_true,
    Option.isNone_iff_eq_none, not_and, Option.ne_none_iff_exists']

/-- With or without a bound, the map has every local and temporary. -/
theorem exists_get?_of_registerMap (h : registerMap method bound? = .ok map)
    (hname : name ∈ localNames method) : ∃ register, map.get? name = some register := by
  cases bound? with
  | none =>
    cases h
    exact exists_get?_naturalMap hname
  | some bound =>
    obtain ⟨flow, colors, _, hcolors, rfl⟩ := coloredMap_eq_ok h
    have sound := InterferenceGraph.sound_ofMethod method flow flow.liveness
    have hlength := (color_spec sound hcolors).1
    refine exists_get?_ofList ?_
    rw [List.map_fst_zip (by simp [hlength, InterferenceGraph.size])]
    exact InterferenceGraph.mem_names_ofMethod method flow flow.liveness
      (List.mem_append_left _ hname)

/-- Whichever way registers are chosen for a lowered method, none of its variables is left out. -/
theorem covers_of_registerMap (formed : method.Formed) (h : registerMap method bound? = .ok map) :
    Covers map method := by
  have hlocal {decl : Variable} (hdecl : decl ∈ method.locals) :
      ∃ register, map.get? decl.name = some register :=
    exists_get?_of_registerMap h
      (List.mem_map_of_mem (List.mem_filter.mpr ⟨hdecl, formed.locals decl hdecl⟩))
  intro var hvar hallocatable
  rcases List.mem_append.mp hvar with hvar | hoccurs
  · rcases List.mem_append.mp hvar with hparam | hdecl
    · obtain ⟨index, hindex⟩ := List.mem_iff_getElem?.mp hparam
      simp [Variable.isAllocatable, formed.parameters index var hindex] at hallocatable
    · exact hlocal hdecl
  · obtain ⟨decl, hdecl, hname⟩ := formed.declared var hoccurs hallocatable
    rw [← hname]
    exact hlocal hdecl

theorem exists_flow (complete : Stack.Complete method.body) :
    ∃ flow, Flow.Graph.ofBody method.body = .ok flow := by
  refine Flow.exists_ofBody complete.labeled.distinct fun line hline target htarget => ?_
  exact Stack.place?_of_mem_labelsOf (complete.labeled.defined line hline target htarget)

/-- Complete code has a flow graph, so only the coloring can fail, and only for want of colors. -/
theorem registerMap_ends (complete : Stack.Complete method.body) (bound? : Option UInt16) :
    (∃ map, registerMap method bound? = .ok map) ∨ ∃ bound remaining, bound? = some bound ∧
      registerMap method bound? =
        .error (.coloring method.name (.noLowDegree remaining bound.toNat)) := by
  cases bound? with
  | none => exact .inl ⟨_, rfl⟩
  | some bound =>
    obtain ⟨flow, hflow⟩ := exists_flow complete
    obtain ⟨core, _, ⟨_, colors, hok⟩ | ⟨_, herror⟩⟩ :=
      exists_core (InterferenceGraph.built_ofMethod method flow).simple bound.toNat
    · refine .inl ⟨colorMap (.ofMethod method flow flow.liveness) colors, ?_⟩
      simp only [registerMap, coloredMap, hflow, hok]
    · exact .inr ⟨bound, core.card, rfl, by simp only [registerMap, coloredMap, hflow, herror]⟩

/-- A method with the registers of a map that has all its variables. -/
def Allocated (bound? : Option UInt16) (method assigned : Method) : Prop :=
  ∃ map, registerMap method bound? = .ok map ∧ Covers map method ∧ assigned = assign map method

/-- Methods that all have got registers. -/
theorem allocated_of_allocateAll {methods assigned : List Method}
    (h : allocateAll bound? methods = (assigned, none)) :
    List.Forall₂ (Allocated bound?) methods assigned := by
  induction methods generalizing assigned with
  | nil =>
    cases h
    exact .nil
  | cons first rest ih =>
    unfold allocateAll at h
    split at h
    · cases h
    · next map hmap =>
      split at h
      · cases h
      · next next hchecked =>
        simp only [Prod.mk.injEq] at h
        obtain ⟨rfl, hfault⟩ := h
        obtain ⟨rfl, hunassigned⟩ := Prod.mk.inj hchecked
        have covers := unassigned?_eq_none.mp (Option.map_eq_none_iff.mp hunassigned)
        exact .cons ⟨map, hmap, covers, rfl⟩ (ih (Prod.ext rfl hfault))

/-- Registers are assigned to all methods, or there is a bound and one of them resists coloring. -/
theorem allocateAll_ends {methods : List Method}
    (hmethods : ∀ method ∈ methods, method.Formed ∧ Stack.Complete method.body) :
    (allocateAll bound? methods).2 = none ∨
      ∃ method ∈ methods, ∃ bound remaining, bound? = some bound ∧
        (allocateAll bound? methods).2 =
          some (.coloring method.name (.noLowDegree remaining bound.toNat)) := by
  induction methods with
  | nil => exact .inl rfl
  | cons first rest ih =>
    obtain ⟨formed, complete⟩ := hmethods first List.mem_cons_self
    unfold allocateAll
    rcases registerMap_ends complete bound? with ⟨map, hmap⟩ | ⟨bound, remaining, hbound, herror⟩
    · have hchecked : assignChecked map first = (assign map first, none) := by
        rw [assignChecked, unassigned?_eq_none.mpr (covers_of_registerMap formed hmap)]
        rfl
      simp only [hmap, hchecked]
      have hrest := ih fun method hmethod => hmethods method (List.mem_cons_of_mem _ hmethod)
      refine hrest.imp_right ?_
      rintro ⟨method, hmethod, hrest⟩
      exact ⟨method, List.mem_cons_of_mem _ hmethod, hrest⟩
    · simp only [herror]
      exact .inr ⟨first, List.mem_cons_self, bound, remaining, hbound, rfl⟩

theorem allocate_eq_ok {settings : Settings} {cls allocated : Code.Class}
    (h : ClassCompiler.allocate settings cls = .ok allocated) :
    allocateAll settings.maxRegisters cls.methods = (allocated.methods, none) ∧
      allocated = { cls with methods := allocated.methods } := by
  unfold ClassCompiler.allocate at h
  split at h
  · cases h
  · next result hresult =>
    cases h
    obtain ⟨rfl, hfault⟩ := Prod.mk.inj hresult
    exact ⟨Prod.ext rfl hfault, rfl⟩

/-- Allocation of complete code fails only at a method whose graph needs more colors. -/
theorem allocate_ends {cls : Code.Class} (settings : Settings)
    (hmethods : ∀ method ∈ cls.methods, method.Formed ∧ Stack.Complete method.body) :
    (∃ allocated, ClassCompiler.allocate settings cls = .ok allocated) ∨
      ∃ method ∈ cls.methods, ∃ bound remaining, settings.maxRegisters = some bound ∧
        ClassCompiler.allocate settings cls =
          .error (.registers (.coloring method.name (.noLowDegree remaining bound.toNat))) := by
  have hresult : Registers.allocate settings.maxRegisters cls =
      ({ cls with methods := (allocateAll settings.maxRegisters cls.methods).1 },
        (allocateAll settings.maxRegisters cls.methods).2) := rfl
  rcases allocateAll_ends hmethods with hok | ⟨method, hmethod, bound, remaining, hbound, herror⟩
  · rw [hok] at hresult
    exact .inl ⟨_, by rw [ClassCompiler.allocate, hresult]⟩
  · rw [herror] at hresult
    exact .inr ⟨method, hmethod, bound, remaining, hbound, by rw [ClassCompiler.allocate, hresult]⟩

theorem finish_lowerBody {context : Lowering.Context} {method : Source.Method}
    {draft draft' : Lowering.Draft} (h : Lowering.lowerBody method context draft = .ok () draft')
    (name : String) :
    draft'.finish name = .ok (draft'.code.toList, draft'.temporaries.toList) := by
  obtain ⟨middle, ty, value, _, rfl⟩ := Lowering.writes_lowerBody h
  rfl

/-- Every method of a lowered program has a flow graph. Registers can be assigned if there is no
bound on them, and under a bound they can unless a method resists coloring. Code whose lowering has
come to its end can be finished: each of its labels names an instruction. -/
theorem allocate_lowered :
    (∀ table program cls, Lowering.lowerProgram table program = .ok cls →
      (∀ method ∈ cls.methods, ∃ flow, Flow.Graph.ofBody method.body = .ok flow) ∧
      ∀ settings : Settings,
        (settings.maxRegisters = none →
          ∃ allocated, ClassCompiler.allocate settings cls = .ok allocated) ∧
        ((∃ allocated, ClassCompiler.allocate settings cls = .ok allocated) ∨
          ∃ method ∈ cls.methods, ∃ bound remaining, settings.maxRegisters = some bound ∧
            ClassCompiler.allocate settings cls =
              .error (.registers (.coloring method.name (.noLowDegree remaining bound.toNat))))) ∧
    ∀ context method draft,
      Lowering.lowerBody method context Lowering.Draft.initial = .ok () draft →
      draft.finish context.scope.name = .ok (draft.code.toList, draft.temporaries.toList) := by
  refine ⟨fun table program cls h => ⟨?_, fun settings => ?_⟩, ?_⟩
  · exact fun method hmethod => exists_flow (Stack.complete_lowerProgram h hmethod)
  · have hends := allocate_ends settings fun method hmethod =>
      ⟨Lowering.formed_lowerProgram h hmethod, Stack.complete_lowerProgram h hmethod⟩
    refine ⟨fun hnone => hends.resolve_right ?_, hends⟩
    rintro ⟨method, _, bound, remaining, hbound, _⟩
    simp [hnone] at hbound
  · exact fun context method draft h => finish_lowerBody h context.scope.name

/-- A method whose loop needs two variables throughout. -/
def pacing : Source.Method :=
  ⟨"pace", false, [⟨"n", .int⟩], .int,
    [.assign "step" (.int 2),
      .assign "i" (.int 0),
      .while (.binary .lt (.name "i") (.name "n"))
        (.assign "i" (.binary .add (.name "i") (.name "step")))],
    some (.name "i")⟩

def pacingScope : Source.Scope := ⟨"pace", .int, [⟨"n", .int⟩], [⟨"i", .int⟩, ⟨"step", .int⟩]⟩

def pacingTable : Source.SymbolTable :=
  Source.SymbolTable.addMethod ⟨"Pacer", none, [], [], ∅⟩ pacingScope

def pacingProgram : Source.Program := ⟨[], "Pacer", none, [], [pacing]⟩

/-- Two registers are enough for the loop and one is not. -/
theorem allocate_pacing :
    ∃ cls, Lowering.lowerProgram pacingTable pacingProgram = .ok cls ∧
      (∀ method ∈ cls.methods, ∃ flow, Flow.Graph.ofBody method.body = .ok flow) ∧
      (∃ allocated, ClassCompiler.allocate ⟨false, none⟩ cls = .ok allocated) ∧
      (∃ allocated, ClassCompiler.allocate ⟨false, some 2⟩ cls = .ok allocated) ∧
      (∃ method ∈ cls.methods, ∃ remaining, ClassCompiler.allocate ⟨false, some 1⟩ cls =
        .error (.registers (.coloring method.name (.noLowDegree remaining 1)))) ∧
      ∃ draft, Lowering.lowerBody pacing (.ofScope pacingTable pacingScope) Lowering.Draft.initial =
          .ok () draft ∧
        draft.finish "pace" = .ok (draft.code.toList, draft.temporaries.toList) := by
  obtain ⟨hprograms, hbodies⟩ := allocate_lowered
  have haccepted : (Lowering.lowerProgram pacingTable pacingProgram).isOk := by decide +kernel
  have hbounds : (Lowering.lowerProgram pacingTable pacingProgram).toOption.map (fun cls =>
      ((ClassCompiler.allocate ⟨false, some 2⟩ cls).isOk,
        (ClassCompiler.allocate ⟨false, some 1⟩ cls).isOk)) = some (true, false) := by
    decide +kernel
  obtain ⟨cls, hcls⟩ := Outcome.exists_of_isOk haccepted
  rw [hcls] at hbounds
  obtain ⟨htwo, hone⟩ := Prod.mk.inj (Option.some.inj hbounds)
  obtain ⟨hflow, hallocate⟩ := hprograms _ _ cls hcls
  refine ⟨cls, hcls, hflow, (hallocate ⟨false, none⟩).1 rfl, Outcome.exists_of_isOk htwo, ?_, ?_⟩
  · rcases (hallocate ⟨false, some 1⟩).2 with ⟨allocated, hok⟩ | ⟨method, hmethod, bound, remaining,
      hbound, herror⟩
    · rw [hok] at hone
      cases hone
    · cases hbound
      exact ⟨method, hmethod, remaining, herror⟩
  · have hlowered : (Lowering.lowerMethod pacingTable pacing).isOk := by decide +kernel
    have hfound : pacingTable.method? pacing.signature = some pacingScope := by decide +kernel
    obtain ⟨code, hcode⟩ := Outcome.exists_of_isOk hlowered
    obtain ⟨scope, draft, hscope, hbody, _⟩ := Lowering.lowerMethod_eq_ok hcode
    obtain rfl := Option.some.inj (hfound.symm.trans hscope)
    exact ⟨draft, hbody, hbodies _ _ draft hbody⟩

end ClassCompiler.Registers
