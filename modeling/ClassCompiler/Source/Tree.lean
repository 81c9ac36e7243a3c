import ClassCompiler.BinOp
import ClassCompiler.Source.Ty

/-!
# Syntax trees

A program is one class with its imports. The trees have been analyzed, so nothing in them has to be
parsed or declared.
-/

namespace ClassCompiler.Source

/-- An expression. The type on a call is the one that analysis found for a method of an imported
class, if it found one. -/
inductive Expr where
  | int (value : Int32)
  | bool (value : Bool)
  | name (id : String)
  | this
  | binary (op : BinOp) (left right : Expr)
  | not (operand : Expr)
  | call (receiver : Expr) (method : String) (args : List Expr) (ty : Option Ty)
  | length (array : Expr)
  | newObject (name : String)
  | newIntArray (size : Expr)
  | index (array index : Expr)

inductive Stmt where
  | block (body : List Stmt)
  | ifElse (cond : Expr) (onTrue onFalse : Stmt)
  | while (cond : Expr) (body : Stmt)
  | assign (target : String) (value : Expr)
  | assignElement (target : String) (index value : Expr)
  | expr (value : Expr)

/-- A method. A method that is not void ends by returning the value of `result`. -/
structure Method where
  name : String
  isStatic : Bool
  parameters : List Symbol
  returnTy : Ty
  body : List Stmt
  result : Option Expr

def Method.signature (method : Method) : String :=
  Source.signature method.name (method.parameters.map (·.ty))

structure Class where
  name : String
  superclass : Option String
  fields : List Symbol
  methods : List Method

structure Program where
  imports : List String
  decl : Class

end ClassCompiler.Source
