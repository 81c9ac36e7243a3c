import ClassCompiler.BinOp
import ClassCompiler.Code.Operand

/-!
# Instructions of code

An instruction has three addresses at most, with types on everything that is computed.
-/

namespace ClassCompiler.Code

inductive CallKind where
  | virtual
  | static
  | special
  | newObject
  | newArray
  | arrayLength
deriving DecidableEq

inductive Condition where
  | binary (op : BinOp) (left right : Operand)
  | not (operand : Operand)
  | holds (operand : Operand)
deriving DecidableEq

/-- An instruction. The target of a call is the receiver, the class, the size of an array or the
array, as its kind says. A load only yields the value of its operand. -/
inductive Instr where
  | assign (dest : Operand) (ty : Ty) (value : Instr)
  | binary (op : BinOp) (left right : Operand)
  | not (operand : Operand)
  | call (kind : CallKind) (target : Operand) (method : Option String) (args : List Operand)
      (returnTy : Ty)
  | getField (object : Operand) (field : Variable)
  | putField (object : Operand) (field : Variable) (value : Operand)
  | branch (cond : Condition) (target : String)
  | goto (target : String)
  | ret (ty : Ty) (value : Option Operand)
  | load (operand : Operand)
deriving DecidableEq

def resultTy : BinOp → Ty
  | .lt | .and => .bool
  | _ => .int

def operandTy : BinOp → Ty
  | .and => .bool
  | _ => .int

namespace Condition

def operands : Condition → List Operand
  | .binary _ left right => [left, right]
  | .not operand | .holds operand => [operand]

def mapVars (f : Variable → Variable) : Condition → Condition
  | .binary op left right => .binary op (left.mapVars f) (right.mapVars f)
  | .not operand => .not (operand.mapVars f)
  | .holds operand => .holds (operand.mapVars f)

end Condition

namespace Instr

def ty : Instr → Ty
  | .assign _ ty _ => ty
  | .binary op _ _ => resultTy op
  | .not _ => .bool
  | .call _ _ _ _ returnTy => returnTy
  | .getField _ field => field.ty
  | .load operand => operand.ty
  | .putField .. | .branch .. | .goto _ | .ret .. => .void

/-- The operands of the instruction in reading order, destinations included. The field of a field
access is not an operand. -/
def operands : Instr → List Operand
  | .assign dest _ value => dest :: value.operands
  | .binary _ left right => [left, right]
  | .not operand | .load operand => [operand]
  | .call _ target _ args _ => target :: args
  | .getField object _ => [object]
  | .putField object _ value => [object, value]
  | .branch cond _ => cond.operands
  | .goto _ => []
  | .ret _ value => value.toList

def vars (instr : Instr) : List Variable := instr.operands.flatMap Operand.vars

def mapVars (f : Variable → Variable) : Instr → Instr
  | .assign dest ty value => .assign (dest.mapVars f) ty (value.mapVars f)
  | .binary op left right => .binary op (left.mapVars f) (right.mapVars f)
  | .not operand => .not (operand.mapVars f)
  | .call kind target method args returnTy =>
    .call kind (target.mapVars f) method (args.map (·.mapVars f)) returnTy
  | .getField object field => .getField (object.mapVars f) field
  | .putField object field value =>
    .putField (object.mapVars f) field (value.mapVars f)
  | .branch cond target => .branch (cond.mapVars f) target
  | .goto target => .goto target
  | .ret ty value => .ret ty (value.map (·.mapVars f))
  | .load operand => .load (operand.mapVars f)

/-- The operands that the instruction reads. Storing into an element reads the array and the index;
storing into a variable reads nothing. -/
def readOperands : Instr → List Operand
  | .assign (.element array index ty) _ value => .element array index ty :: value.readOperands
  | .assign _ _ value => value.readOperands
  | instr => instr.operands

/-- The variable that the instruction stores into; an element store counts as one into its array. -/
def written? : Instr → Option Variable
  | .assign (.var target) _ _ => some target
  | .assign (.element array _ _) _ _ => some array
  | _ => none

def newObject (cls : String) : Instr :=
  .call .newObject (.var (.className cls)) none [] (.object cls)

/-- The call of the constructor of an object that has just been allocated. -/
def construct (object : Operand) : Instr :=
  .call .special object (some "<init>") [] .void

end Instr

/-- An instruction with the labels that name its place. -/
structure Labeled where
  labels : List String
  instr : Instr
deriving DecidableEq

end ClassCompiler.Code
