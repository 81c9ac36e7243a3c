import ClassCompiler.Json.Tagged
import ClassCompiler.Source.SymbolTable

/-!
# Symbol tables in documents

The encoders write every part, also those that the decoders would fill in.
-/

namespace ClassCompiler.Source

open Json (Decoder)

def decodeText : Decoder String := fun _ json => json.text?

namespace Ty

def ofTag? (tag : String) : Option Ty :=
  match tag with
  | "int" => some .int
  | "boolean" => some .boolean
  | "string" => some .string
  | "void" => some .void
  | _ => none

def decode : Nat → Json → Option Ty
  | depth + 1, .object [(some "class", content)] => decodeText depth content |>.map .named
  | depth + 1, .object [(some "array", content)] => (decode depth content).map .array
  | depth, json => (Json.tag? depth json).bind ofTag?

def encode : Ty → Json
  | .int => .string "int"
  | .boolean => .string "boolean"
  | .string => .string "string"
  | .void => .string "void"
  | .named name => .tagged "class" (.string name)
  | .array element => .tagged "array" element.encode

end Ty

namespace Symbol

def decode : Decoder Symbol
  | depth + 1, json =>
    match json.parts ["name", "type"] with
    | some [some name, some ty] => do
      return { name := ← name.text?, ty := ← Ty.decode depth ty }
    | _ => none
  | 0, _ => none

def encode (symbol : Symbol) : Json :=
  .ofMembers [("name", .string symbol.name), ("type", symbol.ty.encode)]

def encodeList (symbols : List Symbol) : Json := .array (symbols.map encode)

end Symbol

namespace Scope

def decode : Decoder Scope
  | depth + 1, json =>
    match json.parts ["name", "return_type", "parameters", "locals"] with
    | some [some name, some returnTy, parameters, locals] => do
      return {
        name := ← name.text?
        returnTy := ← Ty.decode depth returnTy
        parameters := ← Json.orElse [] (Json.list Symbol.decode depth) parameters
        locals := ← Json.orElse [] (Json.list Symbol.decode depth) locals }
    | _ => none
  | 0, _ => none

def encode (scope : Scope) : Json :=
  .ofMembers [
    ("name", .string scope.name),
    ("return_type", scope.returnTy.encode),
    ("parameters", Symbol.encodeList scope.parameters),
    ("locals", Symbol.encodeList scope.locals)]

end Scope

namespace SymbolTable

/-- A method that is given twice under one key counts as given last. -/
def decode : Decoder SymbolTable
  | depth + 1, json =>
    match json.parts ["class_name", "superclass", "imports", "fields", "methods"] with
    | some [some className, superclass, imports, fields, methods] => do
      return {
        className := ← className.text?
        superclass := ← Json.orElse none (Json.nullable decodeText depth) superclass
        imports := ← Json.orElse [] (Json.list decodeText depth) imports
        fields := ← Json.orElse [] (Json.list Symbol.decode depth) fields
        methods := NameMap.ofList (← Json.orElse [] (Json.members Scope.decode depth) methods) }
    | _ => none
  | 0, _ => none

def encode (table : SymbolTable) : Json :=
  .ofMembers [
    ("class_name", .string table.className),
    ("superclass", .ofOption .string table.superclass),
    ("imports", .strings table.imports),
    ("fields", Symbol.encodeList table.fields),
    ("methods", .ofMembers (table.methods.entries.map fun entry => (entry.1, entry.2.encode)))]

def read (json : Json) : Option SymbolTable := decode Json.maxNesting json

end SymbolTable

end ClassCompiler.Source
