import ClassCompiler.Stack.Body
import ClassCompiler.Stack.ClassNames
import ClassCompiler.Stack.Fault
import ClassCompiler.Stack.Increment

/-!
# Assembly of methods

The items of an instruction follow from the instruction alone. Putting them behind one another
follows the depth of the operand stack, which is empty between instructions.
-/

namespace ClassCompiler.Stack

open Code (CallKind Condition Labeled Operand Variable)

def instrs (list : List Instr) : List Item := list.map .instr

/-- The slot of a variable that is loaded or stored in a method. -/
def slotOf (method : String) (var : Variable) : Except Fault UInt16 :=
  match var.role, var.register with
  | .field, _ | .className, _ => .error (.noSlot var.name method)
  | _, some slot => .ok slot
  | _, none => .error (.noRegister var.name method)

def loadVariable (method : String) (var : Variable) : Except Fault (List Item) := do
  let slot ← slotOf method var
  return instrs [if var.ty.isInteger then .iload slot else .aload slot]

def loadOperand (method : String) : Operand → Except Fault (List Item)
  | .literal value _ => .ok (instrs [.iconst value])
  | .var var => loadVariable method var
  | .element array index ty => do
    let array ← loadVariable method array
    let index ← loadOperand method index
    return array ++ index ++ instrs [if ty.isInteger then .iaload else .aaload]

/-- Puts the values of operands on the stack, the first lowest. -/
def loadOperands (method : String) : List Operand → Except Fault (List Item)
  | [] => .ok []
  | first :: rest => do
    let first ← loadOperand method first
    let rest ← loadOperands method rest
    return first ++ rest

/-- Takes the value on the stack into a variable. -/
def storeVariable (method : String) (var : Variable) : Except Fault (List Item) :=
  if var.role = .receiver then .error .receiverAssigned
  else do
    let slot ← slotOf method var
    return instrs [if var.ty.isInteger then .istore slot else .astore slot]

def comparisonLabels (number : Nat) : String × String :=
  (s!"cmp_true_{number}", s!"cmp_end_{number}")

/-- Replaces two operands on the stack by the result of an operator. A comparison jumps over one of
two constants, with labels of the given number. -/
def operatorItems (number : Nat) : BinOp → List Item
  | .add => instrs [.iadd]
  | .sub => instrs [.isub]
  | .mul => instrs [.imul]
  | .div => instrs [.idiv]
  | .and => instrs [.iand]
  | .lt =>
    let (onTrue, done) := comparisonLabels number
    instrs [.ifIcmplt onTrue, .iconst 0, .goto done] ++
      [.label onTrue, .instr (.iconst 1), .label done]

/-- Jumps if an operator makes two operands on the stack true. -/
def branchItems (target : String) : BinOp → List Item
  | .add => instrs [.iadd, .ifne target]
  | .sub => instrs [.isub, .ifne target]
  | .mul => instrs [.imul, .ifne target]
  | .div => instrs [.idiv, .ifne target]
  | .and => instrs [.iand, .ifne target]
  | .lt => instrs [.ifIcmplt target]

def fieldRef (cls : Code.Class) (field : Variable) : FieldRef :=
  ⟨cls.name, field.name, cls.descriptor field.ty⟩

def classOf (cls : Code.Class) (target : Operand) : Except Fault String :=
  match cls.ownerOf? target.ty with
  | some owner => .ok owner
  | none => .error (.notInvocable target)

/-- The class whose method a call invokes. A static call names it, and the constructor that a
receiver runs on itself is the one of its superclass. -/
def ownerOf (cls : Code.Class) (kind : CallKind) (target : Operand) : Except Fault String :=
  match kind, target with
  | .static, .var var => .ok (cls.qualify var.name)
  | .special, .var var =>
    if var.role = .receiver then .ok cls.superclassName else classOf cls target
  | _, _ => classOf cls target

/-- Invokes a method with its receiver, if it has one, and its arguments. -/
def invocationItems (cls : Code.Class) (method : String) (kind : InvokeKind) (owner name : String)
    (operands args : List Operand) (returnTy : Code.Ty) : Except Fault (List Item) := do
  let loads ← loadOperands method operands
  let ref : MethodRef :=
    { cls := owner
      name
      descriptor := cls.methodDescriptor (args.map (·.ty)) returnTy
      args := args.length
      returnsValue := returnTy ≠ .void }
  return loads ++ instrs [.invoke kind ref]

/-- The items of a call; they leave its value on the stack, unless it is void. -/
def callItems (cls : Code.Class) (method : String) (kind : CallKind) (target : Operand)
    (name? : Option String) (args : List Operand) (returnTy : Code.Ty) :
    Except Fault (List Item) :=
  match kind, name? with
  | .special, _ => do
    let owner ← ownerOf cls .special target
    invocationItems cls method .special owner "<init>" (target :: args) args returnTy
  | .virtual, some name => do
    let owner ← ownerOf cls .virtual target
    invocationItems cls method .virtual owner name (target :: args) args returnTy
  | .static, some name => do
    let owner ← ownerOf cls .static target
    invocationItems cls method .static owner name args args returnTy
  | .virtual, none | .static, none =>
    .error (.unnamedMethod (.call kind target name? args returnTy))
  | .newObject, _ =>
    match target with
    | .var var => .ok (instrs [.new (cls.qualify var.name)])
    | _ => .error (.notInstantiable target)
  | .newArray, _ => do
    let size ← loadOperand method target
    match returnTy.element? with
    | some element =>
      return size ++ instrs [
        if element.isInteger then .newIntArray else .anewarray (cls.referenceName element)]
    | none => .error (.notArray returnTy)
  | .arrayLength, _ => do
    let array ← loadOperand method target
    return array ++ instrs [.arraylength]

/-- The items that leave the value of an instruction on the stack. -/
def valueItems (cls : Code.Class) (method : String) (number : Nat) :
    Code.Instr → Except Fault (List Item)
  | .load operand => loadOperand method operand
  | .binary op left right => do
    let loads ← loadOperands method [left, right]
    return loads ++ operatorItems number op
  | .not operand => do
    let load ← loadOperand method operand
    return load ++ instrs [.iconst 1, .ixor]
  | .call kind target name? args returnTy =>
    if returnTy = .void then .error (.voidValue (.call kind target name? args returnTy))
    else callItems cls method kind target name? args returnTy
  | .getField object field => do
    let load ← loadOperand method object
    return load ++ instrs [.getfield (fieldRef cls field)]
  | instr => .error (.noValue instr)

def assignItems (cls : Code.Class) (method : String) (optimize : Bool) (number : Nat)
    (dest : Operand) (value : Code.Instr) : Except Fault (List Item) :=
  match if optimize then increment? dest value else none with
  | some (slot, delta) => .ok (instrs [.iinc slot delta])
  | none =>
    match dest with
    | .var var => do
      let value ← valueItems cls method number value
      let store ← storeVariable method var
      return value ++ store
    | .element array index ty => do
      let array ← loadVariable method array
      let index ← loadOperand method index
      let value ← valueItems cls method number value
      return array ++ index ++ value ++ instrs [if ty.isInteger then .iastore else .aastore]
    | .literal .. => .error (.literalAssigned dest method)

def conditionItems (method : String) (target : String) : Condition → Except Fault (List Item)
  | .binary op left right => do
    let loads ← loadOperands method [left, right]
    return loads ++ branchItems target op
  | .not operand => do
    let load ← loadOperand method operand
    return load ++ instrs [.ifeq target]
  | .holds operand => do
    let load ← loadOperand method operand
    return load ++ instrs [.ifne target]

/-- The items of an instruction that stands for itself; a value that it yields is dropped. The
number is the one for the labels of a comparison. -/
def statementItems (cls : Code.Class) (method : String) (optimize : Bool) (number : Nat) :
    Code.Instr → Except Fault (List Item)
  | .assign dest _ value => assignItems cls method optimize number dest value
  | .call kind target name? args returnTy => do
    let call ← callItems cls method kind target name? args returnTy
    return if returnTy = .void then call else call ++ instrs [.pop]
  | .putField object field value => do
    let loads ← loadOperands method [object, value]
    return loads ++ instrs [.putfield (fieldRef cls field)]
  | .branch cond target => conditionItems method target cond
  | .goto target => .ok (instrs [.goto target])
  | .ret ty (some value) => do
    let load ← loadOperand method value
    return load ++ instrs [if ty.isInteger then .ireturn else .areturn]
  | .ret _ none => .ok (instrs [.return])
  | instr => do
    let value ← valueItems cls method number instr
    return value ++ instrs [.pop]

def isComparison : Code.Instr → Bool
  | .binary .lt _ _ => true
  | .assign _ _ value => isComparison value
  | _ => false

namespace Draft

/-- Writes an item: the draft afterwards, and what is wrong with the item. An instruction that takes
more than the stack holds is refused, and then nothing is written. -/
def attempt (draft : Draft) : Item → Draft × Option Fault
  | .label label => (draft.mark label, none)
  | .instr instr =>
    if draft.depth < instr.taken then (draft, some (.underflow instr))
    else (draft.push instr, none)

def add (draft : Draft) (item : Item) : Except Fault Draft :=
  match draft.attempt item with
  | (next, none) => .ok next
  | (_, some fault) => .error fault

/-- Writes a line of code: its labels and the items of its instruction, which leave nothing on the
stack. -/
def addLine (draft : Draft) (cls : Code.Class) (method : String) (optimize : Bool) (number : Nat)
    (line : Labeled) : Except Fault Draft := do
  let items ← statementItems cls method optimize number line.instr
  let next ← items.foldlM add (line.labels.foldl mark draft)
  if next.depth = 0 then return next
  else .error (.leftOver next.depth line.instr method)

/-- Writes lines of code; comparisons are numbered from the given number. -/
def addLines (cls : Code.Class) (method : String) (optimize : Bool) (number : Nat)
    (draft : Draft) : List Labeled → Except Fault Draft
  | [] => .ok draft
  | line :: rest => do
    let next ← draft.addLine cls method optimize number line
    addLines cls method optimize (if isComparison line.instr then number + 1 else number) next rest

end Draft

def bodyOf (cls : Code.Class) (method : Code.Method) (optimize : Bool) : Except Fault Body := do
  let draft ← Draft.addLines cls method.name optimize 1 Draft.initial method.body
  return draft.finish

end ClassCompiler.Stack
