import ClassCompiler.Code.Operand
import ClassCompiler.Source.Outline

/-!
# Faults of lowering

A program that analysis has accepted can still be without code, because the tree and the symbol
table do not agree or an expression has no type.
-/

namespace ClassCompiler.Lowering

inductive Fault where
  | missingMethod (signature : String)
  | missingResult (signature : String)
  | unknownName (name method : String)
  | undeclared (name : String)
  | indexedTarget (name : String)
  | indexedOperand (operand : Code.Operand)
  | indexedVariable (name : String)
  | untyped (expr : Source.Expr)
  | danglingLabels (labels : List String) (method : String)

namespace Fault

def message : Fault → String
  | .missingMethod signature => s!"method '{signature}' is missing from the symbol table"
  | .missingResult signature => s!"non-void method '{signature}' has no return expression"
  | .unknownName name method =>
    s!"'{name}' is not a local, parameter, field or class in method '{method}'"
  | .undeclared name => s!"no declaration for '{name}'"
  | .indexedTarget name => s!"'{name}' is indexed but is not an array"
  | .indexedOperand operand => s!"indexing a non-variable operand {operand.text}"
  | .indexedVariable name => s!"indexing non-array '{name}'"
  | .untyped expr => s!"cannot resolve the type of {expr.outline}"
  | .danglingLabels labels method =>
    s!"labels {Text.quotedList labels} in method '{method}' do not precede any instruction"

end Fault

end ClassCompiler.Lowering
