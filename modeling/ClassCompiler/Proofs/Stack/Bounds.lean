import ClassCompiler.Proofs.Code.Erased
import ClassCompiler.Proofs.Stack.Frame

/-!
# Larger bounds on registers

Vertices that resist a larger bound also resist a smaller one. A graph that is colored under a bound
is therefore colored under every larger one, although its vertices may be taken in another order
and get other colors. The rest of a compilation does not look at the registers: with more of them a
program is still compiled, and to the same code but for the registers.
-/

namespace ClassCompiler.Registers

open Code (Method)

variable {graph : InterferenceGraph} {bound bound' : Nat} {bound? bound'? : Option UInt16}
  {method : Method}

theorem InterferenceGraph.Dense.mono {set : Finset Nat} (dense : graph.Dense bound' set)
    (hle : bound ≤ bound') : graph.Dense bound set := by
  intro index hindex
  obtain ⟨hlt, hdegree⟩ := dense index hindex
  exact ⟨hlt, by omega⟩

theorem exists_color_of_le (simple : graph.Simple) (hle : bound ≤ bound') {colors : List Nat}
    (h : color graph bound = .ok colors) : ∃ colors', color graph bound' = .ok colors' := by
  obtain ⟨core, ⟨_, hgreatest⟩, hends⟩ := exists_core simple bound
  obtain ⟨core', ⟨dense, _⟩, hends'⟩ := exists_core simple bound'
  rcases hends with ⟨rfl, _⟩ | ⟨_, herror⟩
  · -- nothing resists the smaller bound, so nothing resists the larger one
    rcases hends' with ⟨_, hok⟩ | ⟨⟨index, hindex⟩, _⟩
    · exact hok
    · exact absurd (hgreatest (dense.mono hle) hindex) (Finset.notMem_empty index)
  · rw [h] at herror
    cases herror

/-- A second bound that asks no more than the first: it is at least as large, or there is none. -/
def Looser (bound? bound'? : Option UInt16) : Prop :=
  ∀ bound' ∈ bound'?, ∃ bound ∈ bound?, bound ≤ bound'

/-- A graph that can be simplified with few colors can be with more. -/
theorem exists_registerMap_of_looser (looser : Looser bound? bound'?) {map : RegisterMap}
    (h : registerMap method bound? = .ok map) : ∃ map', registerMap method bound'? = .ok map' := by
  cases bound'? with
  | none => exact ⟨naturalMap method, rfl⟩
  | some bound' =>
    obtain ⟨bound, hbound, hle⟩ := looser bound' rfl
    cases hbound
    obtain ⟨flow, colors, hflow, hcolors, _⟩ := coloredMap_eq_ok h
    have simple := (InterferenceGraph.built_ofMethod method flow).simple
    obtain ⟨colors', hcolors'⟩ :=
      exists_color_of_le simple (UInt16.le_iff_toNat_le.mp hle) hcolors
    exact ⟨colorMap (.ofMethod method flow flow.liveness) colors',
      by simp only [registerMap, coloredMap, hflow, hcolors']⟩

/-- Methods are allocated one by one, so all succeed if each does. -/
theorem exists_allocateAll {methods : List Method} (formed : ∀ method ∈ methods, method.Formed)
    (h : ∀ method ∈ methods, ∃ map, registerMap method bound? = .ok map) :
    ∃ assigned, allocateAll bound? methods = (assigned, none) := by
  induction methods with
  | nil => exact ⟨[], rfl⟩
  | cons first rest ih =>
    obtain ⟨map, hmap⟩ := h first List.mem_cons_self
    have covers := covers_of_registerMap (formed first List.mem_cons_self) hmap
    have hchecked : assignChecked map first = (assign map first, none) := by
      rw [assignChecked, unassigned?_eq_none.mpr covers]
      rfl
    obtain ⟨others, hothers⟩ := ih
      (fun method hmethod => formed method (List.mem_cons_of_mem first hmethod))
      (fun method hmethod => h method (List.mem_cons_of_mem first hmethod))
    exact ⟨assign map first :: others, by simp only [allocateAll, hmap, hchecked, hothers]⟩

/-- A class whose methods have registers under a bound has them under a looser one. -/
theorem exists_allocate_of_looser {settings settings' : Settings} {cls allocated : Code.Class}
    (formed : ∀ method ∈ cls.methods, method.Formed)
    (looser : Looser settings.maxRegisters settings'.maxRegisters)
    (h : ClassCompiler.allocate settings cls = .ok allocated) :
    ∃ allocated', ClassCompiler.allocate settings' cls = .ok allocated' := by
  have hall := allocated_of_allocateAll (allocate_eq_ok h).1
  have hmaps : ∀ method ∈ cls.methods,
      ∃ map, registerMap method settings'.maxRegisters = .ok map := by
    intro method hmethod
    obtain ⟨_, _, map, hmap, _, _⟩ := exists_of_forall₂ hall.flip hmethod
    exact exists_registerMap_of_looser looser hmap
  obtain ⟨assigned, hassigned⟩ := exists_allocateAll formed hmaps
  refine ⟨{ cls with methods := assigned }, ?_⟩
  simp only [ClassCompiler.allocate, allocate, hassigned]

theorem Allocated.erased_eq {assigned : Method} (h : Allocated bound? method assigned) :
    assigned.erased = method.erased := by
  obtain ⟨map, _, _, rfl⟩ := h
  exact (keeps_withSlot method map).erased_mapVars method

end ClassCompiler.Registers

namespace ClassCompiler.Stack

open Registers (Looser)

variable {analysis : Source.Analysis} {settings settings' : Settings} {compiled : Compiled}

theorem isValid_of_compile (h : compile analysis settings = .ok compiled) : settings.isValid := by
  obtain ⟨lowered, _, hlower, _⟩ := compile_eq_ok h
  by_contra hinvalid
  rw [lower] at hlower
  split at hlower
  · cases hlower
  · rw [if_pos (by simpa using hinvalid)] at hlower
    cases hlower

/-- A program that is compiled under a bound is compiled under a looser one, to the same code but
for the registers. -/
theorem exists_compile_of_looser (h : compile analysis settings = .ok compiled)
    (hvalid : settings'.isValid) (looser : Looser settings.maxRegisters settings'.maxRegisters) :
    ∃ other, compile analysis settings' = .ok other ∧
      other.code.erased = compiled.code.erased := by
  obtain ⟨lowered, bodies, hlower, hallocate, hbodies, _⟩ := compile_eq_ok h
  have hlowered := (lower_eq_ok hlower).1
  obtain ⟨code', hallocate'⟩ := Registers.exists_allocate_of_looser
    (fun method hmethod => Lowering.formed_lowerProgram hlowered hmethod) looser hallocate
  obtain ⟨other, hother, rfl, hboth⟩ := exists_reassigned hlower (lower_of_isValid hlower hvalid)
    hallocate hallocate' fun method hmethod => Outcome.exists_of_mapM hbodies hmethod
  refine ⟨other, hother, ?_⟩
  have hmethods : other.code.methods.map Code.Method.erased =
      compiled.code.methods.map Code.Method.erased := by
    rw [← List.forall₂_eq_eq_eq, List.forall₂_map_left_iff, List.forall₂_map_right_iff]
    refine hboth.flip.imp ?_
    rintro method' method ⟨source, _, hassigned, hassigned'⟩
    rw [hassigned'.erased_eq, hassigned.erased_eq]
  rw [(Registers.allocate_eq_ok hallocate').2, (Registers.allocate_eq_ok hallocate).2]
  simp only [Code.Class.erased, hmethods]

/-- More registers never break a compilation. A program that is compiled under a bound is compiled
under every larger bound and without one, and all three results are one class once their registers
are erased, so they have one text. -/
theorem compile_of_larger_bound {optimize : Bool} {bound bound' : UInt16} (hle : bound ≤ bound')
    (h : compile analysis ⟨optimize, some bound⟩ = .ok compiled) :
    ∃ wider unbounded, compile analysis ⟨optimize, some bound'⟩ = .ok wider ∧
      compile analysis ⟨optimize, none⟩ = .ok unbounded ∧
      wider.code.erased = compiled.code.erased ∧ unbounded.code.erased = compiled.code.erased ∧
      wider.code.text = compiled.code.text ∧ unbounded.code.text = compiled.code.text := by
  have hvalid : Settings.isValid ⟨optimize, some bound'⟩ := by
    -- a bound of no registers at all would not have been accepted
    have hpositive := isValid_of_compile h
    simp only [Settings.isValid, ne_eq, Option.some.injEq, decide_not, Bool.not_eq_true',
      decide_eq_false_iff_not] at hpositive ⊢
    rintro rfl
    exact hpositive (UInt16.le_antisymm hle (UInt16.zero_le))
  obtain ⟨wider, hwider, herased⟩ := exists_compile_of_looser h hvalid fun _ hbound' => by
    cases hbound'
    exact ⟨bound, rfl, hle⟩
  have hfree : Settings.isValid ⟨optimize, none⟩ := rfl
  obtain ⟨unbounded, hunbounded, herased'⟩ := exists_compile_of_looser h hfree nofun
  refine ⟨wider, unbounded, hwider, hunbounded, herased, herased', ?_, ?_⟩
  · rw [← Code.Class.text_erased, herased, Code.Class.text_erased]
  · rw [← Code.Class.text_erased, herased', Code.Class.text_erased]

/-- A class with a method of whose locals each is needed together with the next one only. -/
def relay : Source.Program :=
  ⟨[], "Relay", none, [], [
    ⟨"pass", false, [⟨"n", .int⟩], .int,
      [.assign "a" (.binary .add (.name "n") (.int 1)),
        .assign "b" (.binary .add (.name "n") (.int 2)),
        .assign "c" (.binary .mul (.name "a") (.name "n")),
        .assign "d" (.binary .mul (.name "b") (.name "n"))],
      some (.binary .add (.name "c") (.name "d"))⟩]⟩

def relayAnalysis : Source.Analysis where
  program := relay
  table := Source.SymbolTable.addMethod ⟨"Relay", none, [], [], ∅⟩
    ⟨"pass", .int, [⟨"n", .int⟩], [⟨"b", .int⟩, ⟨"a", .int⟩, ⟨"c", .int⟩, ⟨"d", .int⟩]⟩
  diagnostics := []

/-- With two registers, with three and with any number the locals get different registers, in code
that is otherwise the same. -/
theorem compile_relay :
    ∃ compiled wider unbounded, compile relayAnalysis ⟨true, some 2⟩ = .ok compiled ∧
      compile relayAnalysis ⟨true, some 3⟩ = .ok wider ∧
      compile relayAnalysis ⟨true, none⟩ = .ok unbounded ∧
      [compiled, wider, unbounded].map (·.code.methods.map (·.frameSize)) =
        [[1, 4], [1, 5], [1, 7]] ∧
      wider.code.erased = compiled.code.erased ∧ unbounded.code.erased = compiled.code.erased ∧
      wider.code.text = compiled.code.text ∧ unbounded.code.text = compiled.code.text := by
  have htwo : (compile relayAnalysis ⟨true, some 2⟩).toOption.map
      (fun compiled => compiled.code.methods.map (·.frameSize)) = some [1, 4] := by decide +kernel
  have hthree : (compile relayAnalysis ⟨true, some 3⟩).toOption.map
      (fun compiled => compiled.code.methods.map (·.frameSize)) = some [1, 5] := by decide +kernel
  have hany : (compile relayAnalysis ⟨true, none⟩).toOption.map
      (fun compiled => compiled.code.methods.map (·.frameSize)) = some [1, 7] := by decide +kernel
  obtain ⟨compiled, hcompiled, hframes⟩ := Outcome.exists_of_toOption htwo
  obtain ⟨wider, unbounded, hwider, hunbounded, hsame⟩ :=
    compile_of_larger_bound (show (2 : UInt16) ≤ 3 by decide) hcompiled
  rw [hwider] at hthree
  rw [hunbounded] at hany
  refine ⟨compiled, wider, unbounded, hcompiled, hwider, hunbounded, ?_, hsame⟩
  simp only [List.map_cons, List.map_nil, hframes, Option.some.inj hthree, Option.some.inj hany]

end ClassCompiler.Stack
