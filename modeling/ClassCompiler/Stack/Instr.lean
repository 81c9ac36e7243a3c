/-!
# Instructions of the stack machine

Code is compiled to instructions of a stack machine. An instruction has its text in assembly and
its effect on the depth of the operand stack.
-/

namespace ClassCompiler.Stack

inductive InvokeKind where
  | virtual
  | static
  | special
deriving DecidableEq

structure FieldRef where
  cls : String
  name : String
  descriptor : String
deriving DecidableEq

/-- A method with its class, the descriptor of its types, how many arguments it takes besides the
receiver, and whether it returns a value. -/
structure MethodRef where
  cls : String
  name : String
  descriptor : String
  args : Nat
  returnsValue : Bool
deriving DecidableEq

/-- The arguments of a method, counted in 16 bits. -/
def MethodRef.argCount (method : MethodRef) : UInt16 := UInt16.ofNat method.args

inductive Instr where
  | iconst (value : Int32)
  | iload (slot : UInt16)
  | istore (slot : UInt16)
  | aload (slot : UInt16)
  | astore (slot : UInt16)
  | iinc (slot : UInt16) (delta : Int32)
  | iadd
  | isub
  | imul
  | idiv
  | iand
  | ixor
  | ifIcmplt (target : String)
  | ifne (target : String)
  | ifeq (target : String)
  | goto (target : String)
  | new (cls : String)
  | newIntArray
  | anewarray (cls : String)
  | arraylength
  | iaload
  | iastore
  | aaload
  | aastore
  | getfield (field : FieldRef)
  | putfield (field : FieldRef)
  | pop
  | invoke (kind : InvokeKind) (method : MethodRef)
  | ireturn
  | areturn
  | return
deriving DecidableEq

namespace Instr

def pops : Instr → Nat
  | .iconst _ | .iload _ | .aload _ | .iinc .. | .goto _ | .new _ | .return => 0
  | .istore _ | .astore _ | .ifne _ | .ifeq _ | .newIntArray | .anewarray _ | .arraylength
  | .getfield _ | .pop | .ireturn | .areturn => 1
  | .iadd | .isub | .imul | .idiv | .iand | .ixor | .ifIcmplt _ | .iaload | .aaload
  | .putfield _ => 2
  | .iastore | .aastore => 3
  | .invoke .static method => method.args
  | .invoke _ method => method.args + 1

def pushes : Instr → Nat
  | .iconst _ | .iload _ | .aload _ | .iadd | .isub | .imul | .idiv | .iand | .ixor | .new _
  | .newIntArray | .anewarray _ | .arraylength | .iaload | .aaload | .getfield _ => 1
  | .invoke _ method => if method.returnsValue then 1 else 0
  | _ => 0

/-- What the instruction takes off the operand stack, counted in 16 bits. -/
def taken : Instr → UInt16
  | .invoke .static method => method.argCount
  | .invoke _ method => method.argCount + 1
  | instr => UInt16.ofNat instr.pops

def given (instr : Instr) : UInt16 := UInt16.ofNat instr.pushes

def target? : Instr → Option String
  | .ifIcmplt target | .ifne target | .ifeq target | .goto target => some target
  | _ => none

def endsBlock : Instr → Bool
  | .goto _ | .ireturn | .areturn | .return => true
  | _ => false

end Instr

def InvokeKind.mnemonic : InvokeKind → String
  | .virtual => "invokevirtual"
  | .static => "invokestatic"
  | .special => "invokespecial"

/-- A constant is written in its shortest form. -/
def constText (value : Int) : String :=
  if value = -1 then "iconst_m1"
  else if 0 ≤ value && value ≤ 5 then s!"iconst_{value}"
  else if -128 ≤ value && value ≤ 127 then s!"bipush {value}"
  else if -32768 ≤ value && value ≤ 32767 then s!"sipush {value}"
  else s!"ldc {value}"

/-- The first four slots have a short form. -/
def slotText (mnemonic : String) (slot : UInt16) : String :=
  if slot ≤ 3 then s!"{mnemonic}_{slot}" else s!"{mnemonic} {slot}"

def FieldRef.text (field : FieldRef) : String := s!"{field.cls}/{field.name} {field.descriptor}"

namespace Instr

def text : Instr → String
  | .iconst value => constText value.toInt
  | .iload slot => slotText "iload" slot
  | .istore slot => slotText "istore" slot
  | .aload slot => slotText "aload" slot
  | .astore slot => slotText "astore" slot
  | .iinc slot delta => s!"iinc {slot} {delta.toInt}"
  | .iadd => "iadd"
  | .isub => "isub"
  | .imul => "imul"
  | .idiv => "idiv"
  | .iand => "iand"
  | .ixor => "ixor"
  | .ifIcmplt target => "if_icmplt " ++ target
  | .ifne target => "ifne " ++ target
  | .ifeq target => "ifeq " ++ target
  | .goto target => "goto " ++ target
  | .new cls => "new " ++ cls
  | .newIntArray => "newarray int"
  | .anewarray cls => "anewarray " ++ cls
  | .arraylength => "arraylength"
  | .iaload => "iaload"
  | .iastore => "iastore"
  | .aaload => "aaload"
  | .aastore => "aastore"
  | .getfield field => "getfield " ++ field.text
  | .putfield field => "putfield " ++ field.text
  | .pop => "pop"
  | .invoke kind method =>
    s!"{kind.mnemonic} {method.cls}/{method.name}{method.descriptor}"
  | .ireturn => "ireturn"
  | .areturn => "areturn"
  | .return => "return"

end Instr

end ClassCompiler.Stack
