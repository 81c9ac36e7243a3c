import ClassCompiler.Code.Class
import ClassCompiler.Text.Qualified

/-!
# Names in assembly

Assembly names classes in full and writes types as descriptors. Imported classes go by the path of
their import.
-/

namespace ClassCompiler.Code.Class

/-- The full name of a class: an imported class goes by its import, with slashes between the
segments; any other name is kept. -/
def qualify (cls : Class) (name : String) : String :=
  if name = cls.name then name
  else
    match cls.imports.find? (Text.simpleName · = name) with
    | some path => Text.slashed path
    | none => name

def superclassName (cls : Class) : String :=
  match cls.superclass with
  | some superclass => cls.qualify superclass
  | none => "java/lang/Object"

def descriptor (cls : Class) : Ty → String
  | .int => "I"
  | .bool => "Z"
  | .void => "V"
  | .string => "Ljava/lang/String;"
  | .array element => "[" ++ cls.descriptor element
  | .object name => "L" ++ cls.qualify name ++ ";"

def methodDescriptor (cls : Class) (args : List Ty) (returnTy : Ty) : String :=
  "(" ++ String.join (args.map cls.descriptor) ++ ")" ++ cls.descriptor returnTy

/-- The name of the elements of an array of references: a class by its full name, and an array by
its descriptor. -/
def referenceName (cls : Class) : Ty → String
  | .object name => cls.qualify name
  | .string => "java/lang/String"
  | ty => cls.descriptor ty

/-- The class whose methods can be invoked on values of a type. -/
def ownerOf? (cls : Class) : Ty → Option String
  | .object name => some (cls.qualify name)
  | .string => some "java/lang/String"
  | _ => none

end ClassCompiler.Code.Class
