import ClassCompiler.Lowering.Expr

/-!
# Lowering of statements

Statements become instructions in the order of the program, with labels and jumps for conditionals
and loops.
-/

namespace ClassCompiler.Lowering

open Code (Instr Variable)
open Source (Expr Stmt)

/-- Stores the value of an expression in a variable. An object is allocated into the variable itself
and then constructed there. -/
def lowerStore (target : Variable) (ty : Source.Ty) : Expr → Lower Unit
  | .newObject name => do
    emit (.assign (.var target) target.ty (.newObject name))
    emitConstruct (.var target)
  | value => do
    let instr ← lowerExpr value (some ty)
    emit (.assign (.var target) target.ty instr)

/-- An assignment to a variable, or to a field of the receiver. -/
def lowerAssign (target : String) (value : Expr) : Lower Unit := do
  match ← place target with
  | (ty, .slot var) => lowerStore var ty value
  | (ty, .field field) =>
    let operand ← lowerValue value (some ty)
    emit (.putField (.var (← receiver)) field operand)

/-- An assignment to an element of an array. An array that is a field is copied to a temporary
first. -/
def lowerAssignElement (target : String) (position value : Expr) : Lower Unit := do
  let (ty, found) ← place target
  match ty.element? with
  | none => throw (.indexedTarget target)
  | some elementTy =>
    let array ← match found with
      | .slot var => pure var
      | .field field => loadField field
    let operand ← lowerValue position (some .int)
    let instr ← lowerExpr value (some elementTy)
    let codeTy := Code.Ty.ofSource elementTy
    emit (.assign (.element array operand codeTy) codeTy instr)

mutual

/-- Writes the code of a statement. A conditional tests its condition, falls through to its second
branch and jumps to its first; a loop tests its condition before each round. -/
def lowerStmt : Stmt → Lower Unit
  | .block body => lowerStmts body
  | .ifElse cond onTrue onFalse => do
    let (thenLabel, endLabel) ← newConditional
    emit (.branch (← lowerCondition cond) thenLabel)
    lowerStmt onFalse
    emit (.goto endLabel)
    placeLabel thenLabel
    lowerStmt onTrue
    placeLabel endLabel
  | .while cond body => do
    let (testLabel, bodyLabel, endLabel) ← newLoop
    placeLabel testLabel
    emit (.branch (← lowerCondition cond) bodyLabel)
    emit (.goto endLabel)
    placeLabel bodyLabel
    lowerStmt body
    emit (.goto testLabel)
    placeLabel endLabel
  | .assign target value => lowerAssign target value
  | .assignElement target position value => lowerAssignElement target position value
  | .expr value => do emit (← lowerExpr value none)

def lowerStmts : List Stmt → Lower Unit
  | [] => return ()
  | first :: rest => do
    lowerStmt first
    lowerStmts rest

end

end ClassCompiler.Lowering
