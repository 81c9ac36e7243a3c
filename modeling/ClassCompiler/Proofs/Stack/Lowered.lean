import ClassCompiler.Compilation
import ClassCompiler.Proofs.Lowering.Labels
import ClassCompiler.Proofs.Stack.Layout

/-!
# Labels of lowered code

The labels of lowered code are numbered by kind, and differ from the labels of comparisons. The code
ends in a return. Neither depends on variables.
-/

namespace ClassCompiler.Stack

open Code (Labeled Method Variable)
open Lowering (LabelKind)

theorem label_not_mem_labelsOfComparison (kind : LabelKind) (m n : Nat) :
    kind.label m ∉ labelsOfComparison n := by
  intro hmem
  have stem : Text.IsStem "cmp_true_" ∧ Text.IsStem "cmp_end_" := by decide
  have hne : kind.stem ≠ "cmp_true_" ∧ kind.stem ≠ "cmp_end_" := by
    cases kind <;> decide
  simp only [labelsOfComparison, comparisonLabels, List.mem_cons, List.not_mem_nil,
    or_false] at hmem
  rcases hmem with heq | heq
  · exact hne.1 (Text.numbered_inj (Lowering.isStem_stem kind) stem.1 heq).1
  · exact hne.2 (Text.numbered_inj (Lowering.isStem_stem kind) stem.2 heq).1

/-- Code whose labels are in order and which ends in a return. -/
structure Complete (lines : List Labeled) : Prop where
  labeled : WellLabeled lines
  returns : ∃ labels ty value, lines.getLast? = some ⟨labels, .ret ty value⟩

/-- Labels of lowered code are distinct and defined, and its last instruction returns. -/
theorem complete_lowerMethod {table : Source.SymbolTable} {source : Source.Method}
    {method : Method} (h : Lowering.lowerMethod table source = .ok method) :
    Complete method.body := by
  obtain ⟨hdistinct, hkinds, htargets⟩ := Lowering.labels_lowerMethod h
  rw [Code.labels_listing] at hdistinct hkinds htargets
  rw [Code.instrs_listing] at htargets
  refine ⟨⟨hdistinct, ?_, ?_⟩, Lowering.getLast?_lowerMethod h⟩
  · intro line hline target htarget
    exact htargets line.instr (List.mem_map_of_mem hline) target htarget
  · intro label hlabel number
    obtain ⟨kind, taken, rfl⟩ := hkinds label hlabel
    exact label_not_mem_labelsOfComparison kind taken number

theorem complete_constructor (cls : String) : Complete (Lowering.constructor cls).body := by
  refine ⟨⟨List.nodup_nil, ?_, nofun⟩, [], .void, none, rfl⟩
  intro line hline target htarget
  simp only [Lowering.constructor, List.mem_cons, List.not_mem_nil, or_false] at hline
  rcases hline with rfl | rfl <;> cases htarget

theorem complete_lowerProgram {table : Source.SymbolTable} {program : Source.Program}
    {cls : Code.Class} (h : Lowering.lowerProgram table program = .ok cls) {method : Method}
    (hmethod : method ∈ cls.methods) : Complete method.body := by
  obtain ⟨methods, hmethods, h⟩ := Outcome.bind_eq_ok.mp h
  obtain rfl := Outcome.pure_eq_ok.mp h
  rcases List.mem_cons.mp hmethod with rfl | hmem
  · exact complete_constructor program.decl.name
  · obtain ⟨source, _, hsource⟩ := Outcome.exists_of_mem_mapM hmethods hmem
    exact complete_lowerMethod hsource

theorem target?_mapVars (f : Variable → Variable) (instr : Code.Instr) :
    (instr.mapVars f).target? = instr.target? := by
  cases instr <;> rfl

theorem Complete.mapVars {method : Method} (h : Complete method.body) (f : Variable → Variable) :
    Complete (method.mapVars f).body := by
  have hlabels : labelsOf (method.mapVars f).body = labelsOf method.body := by
    simp [labelsOf, Method.mapVars, List.flatMap_map]
  refine ⟨⟨?_, ?_, ?_⟩, ?_⟩
  · rw [hlabels]
    exact h.labeled.distinct
  · intro line hline target htarget
    obtain ⟨line', hline', rfl⟩ := List.mem_map.mp hline
    rw [hlabels]
    rw [target?_mapVars] at htarget
    exact h.labeled.defined line' hline' target htarget
  · rw [hlabels]
    exact h.labeled.plain
  · obtain ⟨labels, ty, value, hlast⟩ := h.returns
    refine ⟨labels, ty, value.map (·.mapVars f), ?_⟩
    simp [Method.mapVars, hlast, Code.Instr.mapVars]

end ClassCompiler.Stack
