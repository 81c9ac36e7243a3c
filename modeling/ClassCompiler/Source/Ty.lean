/-!
# Source types

Types as programs write them, names with their declared types, and the keys of methods.
-/

namespace ClassCompiler.Source

/-- A source type. A class, own or imported, is known by its simple name. -/
inductive Ty where
  | int
  | boolean
  | string
  | void
  | named (name : String)
  | array (element : Ty)
deriving DecidableEq

namespace Ty

def text : Ty → String
  | .int => "int"
  | .boolean => "boolean"
  | .string => "String"
  | .void => "void"
  | .named name => name
  | .array element => element.text ++ "[]"

def element? : Ty → Option Ty
  | .array element => some element
  | _ => none

end Ty

structure Symbol where
  name : String
  ty : Ty
deriving DecidableEq

/-- The key of a method: its name with the types of its parameters. Methods that share a name have
different keys. -/
def signature (name : String) (parameters : List Ty) : String :=
  name ++ "(" ++ ", ".intercalate (parameters.map Ty.text) ++ ")"

end ClassCompiler.Source
