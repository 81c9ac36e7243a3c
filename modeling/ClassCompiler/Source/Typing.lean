import ClassCompiler.Source.SymbolTable
import ClassCompiler.Source.Tree

/-!
# Types of expressions

The type of an expression depends on the method it stands in and, for a call to a method that the
class does not declare, on the type that its context wants.
-/

namespace ClassCompiler.Source

def resultTy : BinOp → Ty
  | .lt | .and => .boolean
  | _ => .int

def operandTy : BinOp → Ty
  | .and => .boolean
  | _ => .int

namespace SymbolTable

/-- The type a name has inside a method: that of its declaration, or the class it stands for. -/
def nameTy? (table : SymbolTable) (scope : Scope) (name : String) : Option Ty :=
  match table.lookup? scope name with
  | some symbol => some symbol.ty
  | none => if table.isClass name then some (.named name) else none

/-- The method of the class itself that a call means: the one with exactly the types of the
arguments, else the first one of that name. -/
def ownMethod? (table : SymbolTable) (method : String) (args : Option (List Ty)) : Option Scope :=
  (args.bind fun tys => table.method? (signature method tys)) <|> table.methodNamed? method

mutual

/-- The type of an expression in a method, where the context may want a certain type. A call to a
method that the class does not declare has the type that analysis found, else the type the context
wants, else void. -/
def typeOf? (table : SymbolTable) (scope : Scope) : Expr → Option Ty → Option Ty
  | .int _, _ => some .int
  | .bool _, _ => some .boolean
  | .name name, _ => table.nameTy? scope name
  | .this, _ => some (.named table.className)
  | .binary op _ _, _ => some (resultTy op)
  | .not _, _ => some .boolean
  | .call _ _ _ (some ty), _ => some ty
  | .call receiver method args none, expected =>
    let declared :=
      if typeOf? table scope receiver none = some (.named table.className) then
        table.ownMethod? method (typesOf? table scope args)
      else none
    match declared with
    | some declaration => some declaration.returnTy
    | none => some (expected.getD .void)
  | .length _, _ => some .int
  | .newObject name, _ => some (.named name)
  | .newIntArray _, _ => some (.array .int)
  | .index array _, _ => (typeOf? table scope array none).bind Ty.element?

def typesOf? (table : SymbolTable) (scope : Scope) : List Expr → Option (List Ty)
  | [] => some []
  | first :: rest => do
    let ty ← typeOf? table scope first none
    let tys ← typesOf? table scope rest
    return ty :: tys

end

end SymbolTable

end ClassCompiler.Source
