import ClassCompiler.NameMap
import ClassCompiler.Source.Ty
import ClassCompiler.Text.Qualified

/-!
# Symbol tables

The table of a class has its imports, fields and methods. It says what a name means inside a
method: a local hides a parameter, and a parameter hides a field.
-/

namespace ClassCompiler.Source

/-- What a method declares: parameters in order, locals, and the type it returns. -/
structure Scope where
  name : String
  returnTy : Ty
  parameters : List Symbol
  locals : List Symbol
deriving DecidableEq

namespace Scope

def local? (scope : Scope) (name : String) : Option Symbol :=
  scope.locals.find? (·.name = name)

/-- A parameter and its position; the first parameter has position 1. Positions have 16 bits. -/
def parameter? (scope : Scope) (name : String) : Option (UInt16 × Symbol) := do
  let index ← scope.parameters.findIdx? (·.name = name)
  return (UInt16.ofNat index + 1, ← scope.parameters[index]?)

def signature (scope : Scope) : String :=
  Source.signature scope.name (scope.parameters.map (·.ty))

end Scope

/-- The declarations of a class. Imports are fully qualified, methods are keyed by signature. -/
structure SymbolTable where
  className : String
  superclass : Option String
  imports : List String
  fields : List Symbol
  methods : NameMap Scope
deriving DecidableEq

namespace SymbolTable

/-- Declares a method under its signature, in place of an earlier one with that signature. -/
def addMethod (table : SymbolTable) (scope : Scope) : SymbolTable :=
  { table with methods := table.methods.insert scope.signature scope }

def method? (table : SymbolTable) (signature : String) : Option Scope :=
  table.methods.get? signature

/-- The first method of that name in the order of signatures. -/
def methodNamed? (table : SymbolTable) (name : String) : Option Scope :=
  table.methods.values.find? (·.name = name)

def field? (table : SymbolTable) (name : String) : Option Symbol :=
  table.fields.find? (·.name = name)

/-- The first import whose last segment is the given simple name. -/
def import? (table : SymbolTable) (name : String) : Option String :=
  table.imports.find? (Text.simpleName · = name)

def isImported (table : SymbolTable) (name : String) : Bool := (table.import? name).isSome

/-- The declaration that a name has inside a method: a local, else a parameter, else a field. -/
def lookup? (table : SymbolTable) (scope : Scope) (name : String) : Option Symbol :=
  scope.local? name <|> (scope.parameter? name).map (·.2) <|> table.field? name

/-- Whether a name that is not declared inside a method stands for a class. -/
def isClass (table : SymbolTable) (name : String) : Bool :=
  table.isImported name || name = table.className

end SymbolTable

end ClassCompiler.Source
