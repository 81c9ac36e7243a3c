import ClassCompiler.Source.Ty

/-!
# Types in code

Code tells integers from references. Every source type has a type in code, and different source
types have different ones.
-/

namespace ClassCompiler.Code

inductive Ty where
  | int
  | bool
  | array (element : Ty)
  | object (name : String)
  | string
  | void
deriving DecidableEq

namespace Ty

def ofSource : Source.Ty → Ty
  | .int => .int
  | .boolean => .bool
  | .string => .string
  | .void => .void
  | .named name => .object name
  | .array element => .array (ofSource element)

/-- Whether values of the type are held as integers; all others are references. -/
def isInteger : Ty → Bool
  | .int | .bool => true
  | _ => false

def element? : Ty → Option Ty
  | .array element => some element
  | _ => none

def text : Ty → String
  | .int => "i32"
  | .bool => "bool"
  | .array element => "array." ++ element.text
  | .object name => name
  | .string => "String"
  | .void => "V"

end Ty

end ClassCompiler.Code
