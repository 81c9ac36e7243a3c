import ClassCompiler.Lowering.Draft

/-!
# Lowering of expressions

The parts of an expression are flattened into temporaries, from left to right. What is left of the
expression is one instruction that yields its value.
-/

namespace ClassCompiler.Lowering

open Code (CallKind Condition Instr Operand Variable)
open Source (Expr)

/-- A call that yields a value of the given type where nothing said what type it has. -/
def returning (ty : Code.Ty) : Instr → Instr
  | .call kind target method args .void => .call kind target method args ty
  | instr => instr

/-- Keeps the value of an instruction in a new temporary. A value is never void: where nothing said
what it is, it is taken for an integer. -/
def materialize (instr : Instr) : Lower Variable := do
  let ty := match instr.ty with
    | .void => .int
    | ty => ty
  let temporary ← newTemporary ty
  emit (.assign (.var temporary) ty (returning ty instr))
  return temporary

/-- A simple operand with the value of an instruction; anything but a literal or a variable goes
through a temporary. -/
def simple (instr : Instr) : Lower Operand := do
  match instr with
  | .load operand =>
    if operand.isSimple then return operand else return .var (← materialize instr)
  | _ => return .var (← materialize instr)

/-- The class that an expression names, if it is the name of a class and of nothing else. -/
def namedClass? (context : Context) : Expr → Option Variable
  | .name name =>
    match context.binding? name with
    | some (.className cls) => some cls
    | _ => none
  | _ => none

/-- The variable that an operand is, where an array is expected. -/
def arrayVariable : Operand → Lower Variable
  | .var var => return var
  | operand => throw (.indexedOperand operand)

def elementTy (array : Variable) : Lower Code.Ty := do
  match array.ty.element? with
  | some ty => return ty
  | none => throw (.indexedVariable array.name)

mutual

/-- The instruction that yields the value of an expression, where the context may want a certain
type. -/
def lowerExpr : Expr → Option Source.Ty → Lower Instr
  | .int value, _ => return .load (.int value)
  | .bool value, _ => return .load (.bool value)
  | .this, _ => return .load (.var (← receiver))
  | .name name, _ => do
    match ← binding name with
    | .place (.slot var) => return .load (.var var)
    | .place (.field field) => return .getField (.var (← receiver)) field
    | .className cls => return .load (.var cls)
  | .binary op left right, _ => do
    let ty := some (Source.operandTy op)
    let left ← simple (← lowerExpr left ty)
    let right ← simple (← lowerExpr right ty)
    return .binary op left right
  | .not operand, _ => return .not (← simple (← lowerExpr operand (some .boolean)))
  | .call receiver method args ty, expected => do
    let returnTy ← typeOf (.call receiver method args ty) expected
    match namedClass? (← read) receiver with
    | some cls =>
      let args ← lowerArgs args
      return .call .static (.var cls) (some method) args (.ofSource returnTy)
    | none =>
      let target ← simple (← lowerExpr receiver none)
      let args ← lowerArgs args
      return .call .virtual target (some method) args (.ofSource returnTy)
  | .length array, _ => do
    let array ← simple (← lowerExpr array none)
    return .call .arrayLength array none [] .int
  | .newObject name, _ => do
    let temporary ← newTemporary (.object name)
    emit (.assign (.var temporary) temporary.ty (.newObject name))
    emitConstruct (.var temporary)
    return .load (.var temporary)
  | .newIntArray size, _ => do
    let size ← simple (← lowerExpr size (some .int))
    return .call .newArray size none [] (.array .int)
  | .index array position, _ => do
    let array ← arrayVariable (← simple (← lowerExpr array none))
    let ty ← elementTy array
    let position ← simple (← lowerExpr position (some .int))
    return .load (.element array position ty)

/-- Simple operands with the values of the arguments of a call, from left to right. -/
def lowerArgs : List Expr → Lower (List Operand)
  | [] => return []
  | first :: rest => do
    let operand ← simple (← lowerExpr first none)
    return operand :: (← lowerArgs rest)

end

def lowerValue (expr : Expr) (expected : Option Source.Ty) : Lower Operand := do
  simple (← lowerExpr expr expected)

/-- The condition of a branch. Comparison, conjunction and negation are tested by the branch itself,
any other expression for its truth. -/
def lowerCondition : Expr → Lower Condition
  | .binary .lt left right => do
    let left ← lowerValue left (some .int)
    return .binary .lt left (← lowerValue right (some .int))
  | .binary .and left right => do
    let left ← lowerValue left (some .boolean)
    return .binary .and left (← lowerValue right (some .boolean))
  | .not operand => return .not (← lowerValue operand (some .boolean))
  | expr => return .holds (← lowerValue expr (some .boolean))

end ClassCompiler.Lowering
