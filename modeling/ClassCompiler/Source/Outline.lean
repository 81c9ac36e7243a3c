import ClassCompiler.Source.Tree
import ClassCompiler.Text.Quoted

/-!
# Outlines of expressions

Messages show an expression in full, as the name of each node with its parts.
-/

namespace ClassCompiler.Source

open Text (quoted)

def outlineRecord (node : String) (parts : List (String × String)) : String :=
  node ++ " \x7b " ++ ", ".intercalate (parts.map fun part => part.1 ++ ": " ++ part.2) ++ " \x7d"

def outlineOp : BinOp → String
  | .add => "Add"
  | .sub => "Sub"
  | .mul => "Mul"
  | .div => "Div"
  | .lt => "Lt"
  | .and => "And"

def Ty.outline : Ty → String
  | .int => "Int"
  | .boolean => "Boolean"
  | .string => "String"
  | .void => "Void"
  | .named name => s!"Class({quoted name})"
  | .array element => s!"Array({element.outline})"

def outlineTy? : Option Ty → String
  | none => "None"
  | some ty => s!"Some({ty.outline})"

mutual

def Expr.outline : Expr → String
  | .int value => s!"Int({value.toInt})"
  | .bool value => s!"Bool({value})"
  | .name id => s!"Ident({quoted id})"
  | .this => "This"
  | .binary op left right =>
    outlineRecord "Binary" [("op", outlineOp op), ("left", left.outline), ("right", right.outline)]
  | .not operand => s!"Not({operand.outline})"
  | .call receiver method args ty =>
    outlineRecord "Call" [("receiver", receiver.outline), ("method", quoted method),
      ("args", "[" ++ ", ".intercalate (outlines args) ++ "]"), ("ty", outlineTy? ty)]
  | .length array => s!"Length({array.outline})"
  | .newObject id => s!"NewObject({quoted id})"
  | .newIntArray size => s!"NewIntArray({size.outline})"
  | .index array index =>
    outlineRecord "Index" [("array", array.outline), ("index", index.outline)]

def outlines : List Expr → List String
  | [] => []
  | first :: rest => first.outline :: outlines rest

end

end ClassCompiler.Source
