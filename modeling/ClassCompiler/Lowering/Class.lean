import ClassCompiler.Lowering.Stmt

/-!
# Lowering of methods and classes

A method is lowered against its scope in the symbol table, and a class is its constructor followed
by its methods.
-/

namespace ClassCompiler.Lowering

open Code (Variable)
open Source (SymbolTable)

/-- The code of the body of a method, which ends in its only return. -/
def lowerBody (method : Source.Method) : Lower Unit := do
  lowerStmts method.body
  match method.returnTy, method.result with
  | .void, _ => emit (.ret .void none)
  | ty, some result =>
    let value ← lowerValue result (some ty)
    emit (.ret (.ofSource ty) (some value))
  | _, none => throw (.missingResult method.signature)

def runBody (context : Context) (method : Source.Method) :
    Except Fault (List Code.Labeled × List Variable) :=
  match (lowerBody method).run context Draft.initial with
  | .ok _ draft => draft.finish context.scope.name
  | .error fault _ => .error fault

/-- The parameters of a method, the first at position 1. -/
def parameters (method : Source.Method) : List Variable :=
  method.parameters.mapIdx fun index symbol =>
    .parameter symbol.name (.ofSource symbol.ty) (UInt16.ofNat index + 1)

def declaredLocals (scope : Source.Scope) : List Variable :=
  scope.locals.map fun symbol => .declared symbol.name (.ofSource symbol.ty)

/-- A method in code. The symbol table must have it under its signature. -/
def lowerMethod (table : SymbolTable) (method : Source.Method) : Except Fault Code.Method :=
  match table.method? method.signature with
  | none => .error (.missingMethod method.signature)
  | some scope => do
    let (body, temporaries) ← runBody (.ofScope table scope) method
    return {
      name := method.name
      isStatic := method.isStatic
      isConstructor := false
      parameters := parameters method
      returnTy := .ofSource method.returnTy
      locals := declaredLocals scope ++ temporaries
      body }

/-- The constructor of a class, which only runs the one of its superclass. -/
def constructor (cls : String) : Code.Method :=
  { name := cls
    isStatic := false
    isConstructor := true
    parameters := []
    returnTy := .void
    locals := []
    body := [⟨[], .construct (.var (.receiver cls))⟩, ⟨[], .ret .void none⟩] }

/-- A class in code: its constructor, then its methods in the order of the program. -/
def lowerProgram (table : SymbolTable) (program : Source.Program) : Except Fault Code.Class := do
  let decl := program.decl
  let methods ← decl.methods.mapM (lowerMethod table)
  return {
    name := decl.name
    superclass := decl.superclass
    imports := program.imports
    fields := decl.fields.map fun symbol => .field symbol.name (.ofSource symbol.ty)
    methods := constructor decl.name :: methods }

end ClassCompiler.Lowering
