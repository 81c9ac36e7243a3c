import ClassCompiler.Proofs.Registers.Assigned

/-!
# Compiled programs

A program is compiled if it is lowered, gets registers and has assembly. Its methods are those of
lowering with registers written in, so they keep the form and the labels that lowering gave them.
-/

namespace ClassCompiler.Stack

open Code (Method)
open Registers (Allocated assign naturalMap)

variable {analysis : Source.Analysis} {settings : Settings} {lowered : Code.Class}

/-- Lowering looks at the settings only to see whether they can be met. -/
theorem lower_of_isValid (h : lower analysis settings = .ok lowered) {settings' : Settings}
    (hvalid : settings'.isValid) : lower analysis settings' = .ok lowered := by
  unfold lower at h
  split at h
  · cases h
  · next hclean =>
    split at h
    · cases h
    · rw [lower, if_neg hclean, if_neg (by simp [hvalid])]
      exact h

theorem lower_eq_ok (h : lower analysis settings = .ok lowered) :
    Lowering.lowerProgram analysis.table analysis.program = .ok lowered ∧
      lower analysis { settings with maxRegisters := none } = .ok lowered := by
  refine ⟨?_, lower_of_isValid h rfl⟩
  unfold lower at h
  split at h
  · cases h
  · split at h
    · cases h
    · exact Outcome.eq_ok_of_mapError h

/-- The stages of a compilation that succeeds. -/
theorem compile_eq_ok {compiled : Compiled} (h : compile analysis settings = .ok compiled) :
    ∃ lowered bodies, lower analysis settings = .ok lowered ∧
      ClassCompiler.allocate settings lowered = .ok compiled.code ∧
      compiled.code.methods.mapM (bodyOf compiled.code · settings.optimize) = .ok bodies ∧
      compiled.assembly = "\n".intercalate (classHeader compiled.code ++
        (List.zipWith (methodLines compiled.code) compiled.code.methods bodies).flatten) := by
  obtain ⟨code, hcode, h⟩ := Outcome.bind_eq_ok.mp h
  obtain ⟨text, htext, h⟩ := Outcome.bind_eq_ok.mp h
  obtain rfl := Outcome.pure_eq_ok.mp h
  obtain ⟨lowered, hlower, hallocate⟩ := Outcome.bind_eq_ok.mp hcode
  obtain ⟨methods, hmethods, htext⟩ := Outcome.bind_eq_ok.mp (Outcome.eq_ok_of_mapError htext)
  obtain rfl := Outcome.pure_eq_ok.mp htext
  obtain ⟨bodies, hbodies, rfl⟩ := Outcome.exists_mapM_of_mapM_bind hmethods
  exact ⟨lowered, bodies, hlower, hallocate, hbodies, rfl⟩

/-- A program is compiled if it is lowered, has registers and each method has a body. -/
theorem exists_compile {code : Code.Class} (hlower : lower analysis settings = .ok lowered)
    (hallocate : ClassCompiler.allocate settings lowered = .ok code)
    (hbodies : ∀ method ∈ code.methods, ∃ body, bodyOf code method settings.optimize = .ok body) :
    ∃ compiled, compile analysis settings = .ok compiled ∧ compiled.code = code := by
  obtain ⟨methods, hmethods⟩ : ∃ methods, code.methods.mapM (fun method => do
      return methodLines code method (← bodyOf code method settings.optimize)) = .ok methods := by
    refine Outcome.exists_mapM fun method hmethod => ?_
    obtain ⟨body, hbody⟩ := hbodies method hmethod
    exact ⟨methodLines code method body, by rw [hbody]; rfl⟩
  have htext : assembly code settings.optimize =
      .ok ("\n".intercalate (classHeader code ++ methods.flatten)) := by
    rw [assembly, hmethods]
    rfl
  refine ⟨⟨code, "\n".intercalate (classHeader code ++ methods.flatten), analysis.diagnostics⟩, ?_,
    rfl⟩
  rw [compile, compileToCode, hlower, Outcome.ok_bind, hallocate, Outcome.ok_bind, assemble, htext]
  rfl

/-- A method with registers comes from one of lowering. -/
theorem exists_source {table : Source.SymbolTable} {program : Source.Program}
    (hlower : Lowering.lowerProgram table program = .ok lowered) {code : Code.Class}
    (hallocate : ClassCompiler.allocate settings lowered = .ok code) {method : Method}
    (hmethod : method ∈ code.methods) :
    ∃ source ∈ lowered.methods, Allocated settings.maxRegisters source method ∧ method.Formed ∧
      Complete method.body := by
  obtain ⟨hall, _⟩ := Registers.allocate_eq_ok hallocate
  obtain ⟨source, hsource, hallocated⟩ :=
    Registers.exists_of_forall₂ (Registers.allocated_of_allocateAll hall) hmethod
  exact ⟨source, hsource, hallocated,
    hallocated.formed (Lowering.formed_lowerProgram hlower hsource),
    hallocated.complete (complete_lowerProgram hlower hsource)⟩

/-- Without a bound, registers go by the order of declaration in every method. -/
theorem allocate_natural {table : Source.SymbolTable} {program : Source.Program}
    (hlower : Lowering.lowerProgram table program = .ok lowered)
    (hnone : settings.maxRegisters = none) :
    ClassCompiler.allocate settings lowered = .ok { lowered with
      methods := lowered.methods.map fun source => assign (naturalMap source) source } := by
  obtain ⟨code, hallocate⟩ : ∃ code, ClassCompiler.allocate settings lowered = .ok code := by
    refine (Registers.allocate_ends _ fun source hsource =>
      ⟨Lowering.formed_lowerProgram hlower hsource,
        complete_lowerProgram hlower hsource⟩).resolve_right ?_
    rintro ⟨_, _, bound, _, hbound, _⟩
    cases hnone.symm.trans hbound
  obtain ⟨hall, hcode⟩ := Registers.allocate_eq_ok hallocate
  have hmethods : lowered.methods.map (fun source => assign (naturalMap source) source) =
      code.methods := by
    rw [← List.forall₂_eq_eq_eq, List.forall₂_map_left_iff]
    refine (Registers.allocated_of_allocateAll hall).imp ?_
    rintro source method ⟨map, hmap, _, rfl⟩
    rw [hnone] at hmap
    cases hmap
    rfl
  rw [hallocate, hmethods, ← hcode]

end ClassCompiler.Stack
