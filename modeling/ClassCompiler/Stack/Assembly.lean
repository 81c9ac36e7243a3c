import ClassCompiler.Stack.Generation

/-!
# Assembly of classes

The assembly of a class has its header, its fields, and its methods with the size of their frames.
-/

namespace ClassCompiler.Stack

def methodHeader (cls : Code.Class) (method : Code.Method) : String :=
  if method.isConstructor then ".method public <init>()V"
  else
    let modifier := if method.isStatic then "static " else ""
    let descriptor := cls.methodDescriptor (method.parameters.map (·.ty)) method.returnTy
    s!".method public {modifier}{method.name}{descriptor}"

/-- The lines of a method, with the room that its frame needs. -/
def methodLines (cls : Code.Class) (method : Code.Method) (body : Body) : List String :=
  [methodHeader cls method,
    s!"  .limit stack {body.maxStack}",
    s!"  .limit locals {method.frameSize}"] ++
    body.items.map Item.text ++ [".end method", ""]

def fieldLine (cls : Code.Class) (field : Code.Variable) : String :=
  s!".field private {field.name} {cls.descriptor field.ty}"

def classHeader (cls : Code.Class) : List String :=
  [".class public " ++ cls.name, ".super " ++ cls.superclassName, ""] ++
    if cls.fields.isEmpty then [] else cls.fields.map (fieldLine cls) ++ [""]

def assembly (cls : Code.Class) (optimize : Bool) : Except Fault String := do
  let methods ← cls.methods.mapM fun method => do
    return methodLines cls method (← bodyOf cls method optimize)
  return "\n".intercalate (classHeader cls ++ methods.flatten)

end ClassCompiler.Stack
