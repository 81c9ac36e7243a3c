import ClassCompiler.Code.Class

/-!
# The text of code

Code has a text of its own, with a line for each instruction and each label. Registers are not
shown in it.
-/

namespace ClassCompiler.Code

def opSymbol : BinOp → String
  | .add => "+"
  | .sub => "-"
  | .mul => "*"
  | .div => "/"
  | .lt => "<"
  | .and => "&&"

/-- An operator between its operands. It is tagged with the type of the operands. -/
def binaryText (op : BinOp) (left right : Operand) : String :=
  s!"{left.text} {opSymbol op}.{(operandTy op).text} {right.text}"

namespace Condition

def text : Condition → String
  | .binary op left right => binaryText op left right
  | .not operand => "!.bool " ++ operand.text
  | .holds operand => operand.text

end Condition

namespace CallKind

def keyword : CallKind → String
  | .virtual => "invokevirtual"
  | .static => "invokestatic"
  | .special => "invokespecial"
  | .newObject | .newArray => "new"
  | .arrayLength => "arraylength"

/-- The first argument of a call, which shows its target. -/
def targetText (kind : CallKind) (target : Operand) : String :=
  match kind, target with
  | .newObject, .var var => var.name
  | .newArray, _ => "array, " ++ target.text
  | _, _ => target.text

end CallKind

namespace Instr

def text : Instr → String
  | .assign dest ty value => s!"{dest.text} :=.{ty.text} {value.text}"
  | .binary op left right => binaryText op left right
  | .not operand => "!.bool " ++ operand.text
  | .call kind target method args returnTy =>
    let name := match method with
      | some method => s!", \"{method}\""
      | none => ""
    let rest := String.join (args.map fun arg => ", " ++ arg.text)
    s!"{kind.keyword}({kind.targetText target}{name}{rest}).{returnTy.text}"
  | .getField object field => s!"getfield({object.text}, {field.text}).{field.ty.text}"
  | .putField object field value =>
    s!"putfield({object.text}, {field.text}, {value.text}).V"
  | .branch cond target => s!"if ({cond.text}) goto {target}"
  | .goto target => "goto " ++ target
  | .ret ty (some value) => s!"ret.{ty.text} {value.text}"
  | .ret ty none => "ret." ++ ty.text
  | .load operand => operand.text

end Instr

namespace Labeled

def lines (line : Labeled) : List String :=
  line.labels.map (fun label => s!"    {label}:") ++ [s!"        {line.instr.text};"]

end Labeled

namespace Method

def header (method : Method) (cls : String) : String :=
  if method.isConstructor then s!"    .construct {cls}().V \x7b"
  else
    let modifier := if method.isStatic then "static " else ""
    let parameters := ", ".intercalate
      (method.parameters.map fun parameter => s!"{parameter.name}.{parameter.ty.text}")
    s!"    .method public {modifier}{method.name}({parameters}).{method.returnTy.text} \x7b"

def lines (method : Method) (cls : String) : List String :=
  method.header cls :: method.body.flatMap Labeled.lines ++ ["    \x7d"]

end Method

namespace Class

def importLines (cls : Class) : List String :=
  if cls.imports.isEmpty then []
  else cls.imports.map (fun path => s!"import {path};") ++ [""]

def headerLine (cls : Class) : String :=
  match cls.superclass with
  | some superclass => s!"{cls.name} extends {superclass} \x7b"
  | none => s!"{cls.name} \x7b"

def fieldLine (field : Variable) : String := s!"    .field private {field.name}.{field.ty.text};"

def lines (cls : Class) : List String :=
  cls.importLines ++ cls.headerLine :: cls.fields.map fieldLine ++
    cls.methods.flatMap (fun method => "" :: method.lines cls.name) ++ ["\x7d"]

/-- The text of a class; every line ends in a newline. -/
def text (cls : Class) : String := String.join (cls.lines.map (· ++ "\n"))

end Class

end ClassCompiler.Code
