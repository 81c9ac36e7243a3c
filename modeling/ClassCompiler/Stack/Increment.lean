import ClassCompiler.Code.Instr

/-!
# Increments

An assignment that only adds a small constant to the variable it assigns can be done by one
instruction.
-/

namespace ClassCompiler.Stack

open Code (Instr Operand Variable)

/-- Whether two occurrences are of one variable in one slot. -/
def sameSlot (left right : Variable) : Bool :=
  left.name = right.name && left.role = right.role && left.register = right.register

/-- Whether a variable is an integer that is kept in a slot of its own. -/
def isCounter (var : Variable) : Bool :=
  var.ty = .int && var.role ≠ .field && var.role ≠ .receiver && var.role ≠ .className

/-- The constant that an instruction adds to a variable: `v + c`, `c + v` or `v - c`. -/
def addedConstant? (var : Variable) : Instr → Option Int
  | .binary .add (.var other) (.literal value _) =>
    if sameSlot other var then some value.toInt else none
  | .binary .add (.literal value _) (.var other) =>
    if sameSlot other var then some value.toInt else none
  | .binary .sub (.var other) (.literal value _) =>
    if sameSlot other var then some (-value.toInt) else none
  | _ => none

/-- The slot and the amount of an assignment that an increment instruction can do; the amount must
fit into a signed byte. -/
def increment? (dest : Operand) (value : Instr) : Option (UInt16 × Int32) :=
  match dest with
  | .var var =>
    if isCounter var then do
      let slot ← var.register
      let delta ← addedConstant? var value
      if -128 ≤ delta && delta ≤ 127 then some (slot, Int32.ofInt delta) else none
    else none
  | _ => none

end ClassCompiler.Stack
