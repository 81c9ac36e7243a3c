import ClassCompiler.Code.Printer
import ClassCompiler.Proofs.Code.Form

/-!
# Code without its registers

Erasing the registers of a class leaves what lowering has decided. The text of code shows no
registers, so it can be read off the erased class. Two functions on variables that are applied to
code one after the other are applied as one.
-/

namespace ClassCompiler.Code

def Variable.erased (var : Variable) : Variable := { var with register := none }

def Method.erased (method : Method) : Method := method.mapVars Variable.erased

def Class.erased (cls : Class) : Class := { cls with methods := cls.methods.map Method.erased }

section

variable (f g : Variable → Variable)

@[simp] theorem Operand.mapVars_mapVars (operand : Operand) :
    (operand.mapVars f).mapVars g = operand.mapVars (g ∘ f) := by
  induction operand with
  | literal | var => rfl
  | element array index ty ih => simp [mapVars, ih]

@[simp] theorem Condition.mapVars_mapVars (cond : Condition) :
    (cond.mapVars f).mapVars g = cond.mapVars (g ∘ f) := by
  cases cond <;> simp [mapVars]

@[simp] theorem Instr.mapVars_mapVars (instr : Instr) :
    (instr.mapVars f).mapVars g = instr.mapVars (g ∘ f) := by
  induction instr with
  | assign dest ty value ih => simp [mapVars, ih]
  | ret ty value => cases value <;> simp [mapVars]
  | binary | not | call | getField | putField | branch | goto | load => simp [mapVars]

theorem Method.mapVars_mapVars (method : Method) :
    (method.mapVars f).mapVars g = method.mapVars (g ∘ f) := by
  simp [mapVars]

end

namespace Keeps

variable {f : Variable → Variable} (keeps : Keeps f)

include keeps

theorem erased_comp : Variable.erased ∘ f = Variable.erased := by
  funext var
  simp [Variable.erased, keeps.name, keeps.ty, keeps.role]

/-- Whatever changes only registers is forgotten with them. -/
theorem erased_mapVars (method : Method) : (method.mapVars f).erased = method.erased := by
  rw [Method.erased, Method.mapVars_mapVars, keeps.erased_comp, Method.erased]

theorem text_var (var : Variable) : (f var).text = var.text := by
  simp only [Variable.text, keeps.name, keeps.ty, keeps.role]

theorem text_operand (operand : Operand) : (operand.mapVars f).text = operand.text := by
  induction operand with
  | literal => rfl
  | var var => exact keeps.text_var var
  | element array index ty ih =>
    simp only [Operand.mapVars, Operand.text, keeps.name, keeps.role, ih]

theorem text_condition (cond : Condition) : (cond.mapVars f).text = cond.text := by
  cases cond <;> simp only [Condition.mapVars, Condition.text, binaryText, keeps.text_operand]

theorem targetText (kind : CallKind) (target : Operand) :
    kind.targetText (target.mapVars f) = kind.targetText target := by
  cases kind with
  | newObject =>
    cases target with
    | var var => exact keeps.name var
    | literal | element => exact keeps.text_operand _
  | newArray => exact congrArg ("array, " ++ ·) (keeps.text_operand target)
  | virtual | static | special | arrayLength => exact keeps.text_operand target

/-- The text of an instruction does not show registers. -/
theorem text_instr (instr : Instr) : (instr.mapVars f).text = instr.text := by
  induction instr with
  | assign dest ty value ih => simp only [Instr.mapVars, Instr.text, keeps.text_operand, ih]
  | call kind target method args returnTy =>
    simp only [Instr.mapVars, Instr.text, keeps.targetText, List.map_map, Function.comp_def,
      keeps.text_operand]
  | ret ty value => cases value <;> simp only [Instr.mapVars, Option.map, Instr.text,
      keeps.text_operand]
  | branch cond target => simp only [Instr.mapVars, Instr.text, keeps.text_condition]
  | goto target => rfl
  | binary | not | getField | putField | load =>
    simp only [Instr.mapVars, Instr.text, binaryText, keeps.text_operand]

theorem header_method (method : Method) (cls : String) :
    (method.mapVars f).header cls = method.header cls := by
  have hparameters : (method.mapVars f).parameters.map
      (fun parameter => s!"{parameter.name}.{parameter.ty.text}") =
        method.parameters.map fun parameter => s!"{parameter.name}.{parameter.ty.text}" := by
    simp only [Method.mapVars, List.map_map, Function.comp_def, keeps.name, keeps.ty]
  rw [Method.header, hparameters]
  rfl

theorem lines_method (method : Method) (cls : String) :
    (method.mapVars f).lines cls = method.lines cls := by
  have hlines (line : Labeled) :
      Labeled.lines { line with instr := line.instr.mapVars f } = line.lines := by
    rw [Labeled.lines, keeps.text_instr, Labeled.lines]
  rw [Method.lines, keeps.header_method, Method.mapVars, List.flatMap_map]
  simp only [hlines, Method.lines]

end Keeps

theorem keeps_erased : Keeps Variable.erased := ⟨fun _ => rfl, fun _ => rfl, fun _ => rfl⟩

/-- The text of a class does not show its registers. -/
theorem Class.text_erased (cls : Class) : cls.erased.text = cls.text := by
  have hmethods : cls.erased.methods.flatMap (fun method => "" :: method.lines cls.erased.name) =
      cls.methods.flatMap fun method => "" :: method.lines cls.name := by
    rw [Class.erased, List.flatMap_map]
    simp only [Method.erased, keeps_erased.lines_method]
  rw [Class.text, Class.lines, hmethods]
  rfl

end ClassCompiler.Code
