import ClassCompiler.Code.Printer
import ClassCompiler.Stack.Instr

/-!
# Faults of generation

Code that has no assembly says why.
-/

namespace ClassCompiler.Stack

inductive Fault where
  | underflow (instr : Instr)
  | leftOver (depth : UInt16) (instr : Code.Instr) (method : String)
  | literalAssigned (dest : Code.Operand) (method : String)
  | receiverAssigned
  | noSlot (name method : String)
  | noRegister (name method : String)
  | voidValue (instr : Code.Instr)
  | noValue (instr : Code.Instr)
  | unnamedMethod (instr : Code.Instr)
  | notInvocable (target : Code.Operand)
  | notInstantiable (target : Code.Operand)
  | notArray (ty : Code.Ty)
deriving DecidableEq

namespace Fault

def message : Fault → String
  | .underflow instr => s!"operand stack underflow at '{instr.text}'"
  | .leftOver depth instr method =>
    s!"{depth} values left on the stack after '{instr.text}' in method '{method}'"
  | .literalAssigned dest method => s!"assignment to literal {dest.text} in method '{method}'"
  | .receiverAssigned => "cannot assign to 'this'"
  | .noSlot name method => s!"'{name}' has no local slot in method '{method}'"
  | .noRegister name method => s!"no register assigned to '{name}' in method '{method}'"
  | .voidValue instr => s!"void call used as a value: {instr.text}"
  | .noValue instr => s!"'{instr.text}' does not produce a value"
  | .unnamedMethod instr => s!"call without a method name: {instr.text}"
  | .notInvocable target =>
    s!"cannot invoke a method on {target.text} of type {target.ty.text}"
  | .notInstantiable target => s!"cannot instantiate {target.text}"
  | .notArray ty => s!"array allocation of non-array type {ty.text}"

end Fault

end ClassCompiler.Stack
