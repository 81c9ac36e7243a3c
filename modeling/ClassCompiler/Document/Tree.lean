import ClassCompiler.Document.Symbols
import ClassCompiler.Source.Tree

/-!
# Syntax trees in documents

The decoders of expressions and statements go one level further into the document with each call,
so the depth that is left is what they recurse on.
-/

namespace ClassCompiler.Source

open Json (Decoder)

def opOfTag? (tag : String) : Option BinOp :=
  match tag with
  | "add" => some .add
  | "sub" => some .sub
  | "mul" => some .mul
  | "div" => some .div
  | "lt" => some .lt
  | "and" => some .and
  | _ => none

def opTag : BinOp → String
  | .add => "add"
  | .sub => "sub"
  | .mul => "mul"
  | .div => "div"
  | .lt => "lt"
  | .and => "and"

mutual

def Expr.decode : Nat → Json → Option Expr
  | depth + 1, .object [(some tag, content)] =>
    match tag with
    | "int" => content.int32?.map .int
    | "bool" => content.bool?.map .bool
    | "ident" => content.text?.map .name
    | "this" => match content with
      | .null => some .this
      | _ => none
    | "not" => (Expr.decode depth content).map .not
    | "length" => (Expr.decode depth content).map .length
    | "new_object" => content.text?.map .newObject
    | "new_int_array" => (Expr.decode depth content).map .newIntArray
    | _ => Expr.decodeRecord depth tag content
  | _, .text (some "this") => some .this
  | _, _ => none

def Expr.decodeRecord : Nat → String → Json → Option Expr
  | depth + 1, "binary", content =>
    match content.parts ["op", "left", "right"] with
    | some [some op, some left, some right] => do
      return .binary (← (Json.tag? depth op).bind opOfTag?)
        (← Expr.decode depth left) (← Expr.decode depth right)
    | _ => none
  | depth + 1, "call", content =>
    match content.parts ["receiver", "method", "args", "ty"] with
    | some [some receiver, some method, args, ty] => do
      return .call (← Expr.decode depth receiver) (← method.text?)
        (← Json.orElse [] (Expr.decodeList depth) args)
        (← Json.orElse none (Json.nullable Ty.decode depth) ty)
    | _ => none
  | depth + 1, "index", content =>
    match content.parts ["array", "index"] with
    | some [some array, some position] => do
      return .index (← Expr.decode depth array) (← Expr.decode depth position)
    | _ => none
  | _, _, _ => none

def Expr.decodeList : Nat → Json → Option (List Expr)
  | depth + 1, .array items => items.mapM (Expr.decode depth)
  | _, _ => none

end

mutual

def Expr.encode : Expr → Json
  | .int value => .tagged "int" (.int value.toInt)
  | .bool value => .tagged "bool" (.bool value)
  | .name id => .tagged "ident" (.string id)
  | .this => .string "this"
  | .binary op left right =>
    .tagged "binary" (.ofMembers [
      ("op", .string (opTag op)), ("left", left.encode), ("right", right.encode)])
  | .not operand => .tagged "not" operand.encode
  | .call receiver method args ty =>
    .tagged "call" (.ofMembers [
      ("receiver", receiver.encode), ("method", .string method),
      ("args", .array (Expr.encodeList args)), ("ty", .ofOption Ty.encode ty)])
  | .length array => .tagged "length" array.encode
  | .newObject id => .tagged "new_object" (.string id)
  | .newIntArray size => .tagged "new_int_array" size.encode
  | .index array position =>
    .tagged "index" (.ofMembers [("array", array.encode), ("index", position.encode)])

def Expr.encodeList : List Expr → List Json
  | [] => []
  | first :: rest => first.encode :: Expr.encodeList rest

end

mutual

def Stmt.decode : Nat → Json → Option Stmt
  | depth + 1, .object [(some tag, content)] =>
    match tag with
    | "block" => (Stmt.decodeList depth content).map .block
    | "expr" => (Expr.decode depth content).map .expr
    | _ => Stmt.decodeRecord depth tag content
  | _, _ => none

def Stmt.decodeRecord : Nat → String → Json → Option Stmt
  | depth + 1, "if", content =>
    match content.parts ["cond", "then_branch", "else_branch"] with
    | some [some cond, some onTrue, some onFalse] => do
      return .ifElse (← Expr.decode depth cond)
        (← Stmt.decode depth onTrue) (← Stmt.decode depth onFalse)
    | _ => none
  | depth + 1, "while", content =>
    match content.parts ["cond", "body"] with
    | some [some cond, some body] => do
      return .while (← Expr.decode depth cond) (← Stmt.decode depth body)
    | _ => none
  | depth + 1, "assign", content =>
    match content.parts ["target", "value"] with
    | some [some target, some value] => do
      return .assign (← target.text?) (← Expr.decode depth value)
    | _ => none
  | depth + 1, "array_assign", content =>
    match content.parts ["target", "index", "value"] with
    | some [some target, some position, some value] => do
      return .assignElement (← target.text?)
        (← Expr.decode depth position) (← Expr.decode depth value)
    | _ => none
  | _, _, _ => none

def Stmt.decodeList : Nat → Json → Option (List Stmt)
  | depth + 1, .array items => items.mapM (Stmt.decode depth)
  | _, _ => none

end

mutual

def Stmt.encode : Stmt → Json
  | .block body => .tagged "block" (.array (Stmt.encodeList body))
  | .ifElse cond onTrue onFalse =>
    .tagged "if" (.ofMembers [
      ("cond", cond.encode), ("then_branch", onTrue.encode), ("else_branch", onFalse.encode)])
  | .while cond body =>
    .tagged "while" (.ofMembers [("cond", cond.encode), ("body", body.encode)])
  | .assign target value =>
    .tagged "assign" (.ofMembers [("target", .string target), ("value", value.encode)])
  | .assignElement target position value =>
    .tagged "array_assign" (.ofMembers [
      ("target", .string target), ("index", position.encode), ("value", value.encode)])
  | .expr value => .tagged "expr" value.encode

def Stmt.encodeList : List Stmt → List Json
  | [] => []
  | first :: rest => first.encode :: Stmt.encodeList rest

end

namespace Method

def decode : Decoder Method
  | depth + 1, json =>
    match json.parts ["name", "is_static", "params", "return_type", "body", "ret"] with
    | some [some name, isStatic, parameters, some returnTy, body, result] => do
      return {
        name := ← name.text?
        isStatic := ← Json.orElse false Json.bool? isStatic
        parameters := ← Json.orElse [] (Json.list Symbol.decode depth) parameters
        returnTy := ← Ty.decode depth returnTy
        body := ← Json.orElse [] (Stmt.decodeList depth) body
        result := ← Json.orElse none (Json.nullable Expr.decode depth) result }
    | _ => none
  | 0, _ => none

def encode (method : Method) : Json :=
  .ofMembers [
    ("name", .string method.name),
    ("is_static", .bool method.isStatic),
    ("params", Symbol.encodeList method.parameters),
    ("return_type", method.returnTy.encode),
    ("body", .array (Stmt.encodeList method.body)),
    ("ret", .ofOption Expr.encode method.result)]

end Method

namespace Class

def decode : Decoder Class
  | depth + 1, json =>
    match json.parts ["name", "extends", "fields", "methods"] with
    | some [some name, superclass, fields, methods] => do
      return {
        name := ← name.text?
        superclass := ← Json.orElse none (Json.nullable decodeText depth) superclass
        fields := ← Json.orElse [] (Json.list Symbol.decode depth) fields
        methods := ← Json.orElse [] (Json.list Method.decode depth) methods }
    | _ => none
  | 0, _ => none

def encode (decl : Class) : Json :=
  .ofMembers [
    ("name", .string decl.name),
    ("extends", .ofOption .string decl.superclass),
    ("fields", Symbol.encodeList decl.fields),
    ("methods", .array (decl.methods.map Method.encode))]

end Class

namespace Program

def decode : Decoder Program
  | depth + 1, json =>
    match json.parts ["imports", "class"] with
    | some [imports, some decl] => do
      return {
        imports := ← Json.orElse [] (Json.list decodeText depth) imports
        decl := ← Class.decode depth decl }
    | _ => none
  | 0, _ => none

def encode (program : Program) : Json :=
  .ofMembers [("imports", .strings program.imports), ("class", program.decl.encode)]

end Program

end ClassCompiler.Source
