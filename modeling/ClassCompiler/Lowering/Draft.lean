import ClassCompiler.Code.Class
import ClassCompiler.Lowering.Fault
import ClassCompiler.Source.Typing

/-!
# Code that is being written

The code of a method is written step by step. A draft holds what has been written and the counters
that new names are taken from; the steps extend it and never take anything back.
-/

namespace ClassCompiler.Lowering

open Code (Instr Labeled Operand Variable)
open Source (Expr Scope SymbolTable)

/-- What the code of a method is written against: the symbol table, the scope of the method, and the
type of an expression where the context wants a certain type. -/
structure Context where
  table : SymbolTable
  scope : Scope
  typeOf? : Expr → Option Source.Ty → Option Source.Ty

def Context.ofScope (table : SymbolTable) (scope : Scope) : Context :=
  ⟨table, scope, table.typeOf? scope⟩

/-- The code written so far. Pending labels name the place of the next instruction; the counters
give the numbers of the last temporary, conditional and loop. -/
structure Draft where
  code : Array Labeled
  temporaries : Array Variable
  pending : List String
  lastTemporary : Nat
  lastConditional : Nat
  lastLoop : Nat

namespace Draft

def initial : Draft := ⟨#[], #[], [], 0, 0, 0⟩

/-- The finished code and its temporaries. Every label must have found its instruction. -/
def finish (draft : Draft) (method : String) : Except Fault (List Labeled × List Variable) :=
  if draft.pending.isEmpty then .ok (draft.code.toList, draft.temporaries.toList)
  else .error (.danglingLabels draft.pending method)

end Draft

/-- A step of lowering. A step that fails leaves the draft as far as it got. -/
abbrev Lower := ReaderT Context (EStateM Fault Draft)

inductive Place where
  | slot (var : Variable)
  | field (field : Variable)

inductive Binding where
  | place (place : Place)
  | className (var : Variable)

namespace Context

/-- The declared type of a name and the place of its value: a local, else a parameter, else a
field. -/
def place? (context : Context) (name : String) : Option (Source.Ty × Place) :=
  match context.scope.local? name with
  | some symbol => some (symbol.ty, .slot (.declared name (.ofSource symbol.ty)))
  | none =>
    match context.scope.parameter? name with
    | some (position, symbol) =>
      some (symbol.ty, .slot (.parameter name (.ofSource symbol.ty) position))
    | none =>
      (context.table.field? name).map fun symbol =>
        (symbol.ty, .field (.field name (.ofSource symbol.ty)))

/-- What a name stands for: its declaration, else the class of that name. -/
def binding? (context : Context) (name : String) : Option Binding :=
  match context.place? name with
  | some (_, place) => some (.place place)
  | none => if context.table.isClass name then some (.className (.className name)) else none

def isDeclared (context : Context) (name : String) : Bool :=
  (context.table.lookup? context.scope name).isSome

def declaredCount (context : Context) : Nat :=
  context.scope.locals.length + context.scope.parameters.length + context.table.fields.length

def receiver (context : Context) : Variable := .receiver context.table.className

end Context

def temporaryName (number : Nat) : String := s!"t{number}"

/-- The number of the next temporary: the least one above the last whose name is not declared. As
each declaration takes at most one name, it is among the next numbers that the range has. -/
def nextTemporary (context : Context) (last : Nat) : Nat :=
  let candidates := List.range' (last + 1) (context.declaredCount + 1)
  (candidates.find? fun number => !context.isDeclared (temporaryName number)).getD
    (last + context.declaredCount + 1)

def newTemporary (ty : Code.Ty) : Lower Variable := do
  let context ← read
  let draft ← get
  let number := nextTemporary context draft.lastTemporary
  let temporary := Variable.temporary (temporaryName number) ty
  set { draft with
    temporaries := draft.temporaries.push temporary
    lastTemporary := number }
  return temporary

/-- The labels of a new conditional: its first branch and its end. -/
def newConditional : Lower (String × String) := do
  let draft ← get
  let number := draft.lastConditional + 1
  set { draft with lastConditional := number }
  return (s!"then{number}", s!"endif{number}")

/-- The labels of a new loop: its test, its body and its end. -/
def newLoop : Lower (String × String × String) := do
  let draft ← get
  let number := draft.lastLoop + 1
  set { draft with lastLoop := number }
  return (s!"loop{number}", s!"body{number}", s!"endloop{number}")

/-- Names the place of the next instruction. -/
def placeLabel (label : String) : Lower Unit :=
  modify fun draft => { draft with pending := draft.pending ++ [label] }

/-- Writes an instruction, with the labels that wait for one. -/
def emit (instr : Instr) : Lower Unit :=
  modify fun draft => { draft with
    code := draft.code.push ⟨draft.pending, instr⟩
    pending := [] }

def emitConstruct (object : Operand) : Lower Unit := emit (.construct object)

def receiver : Lower Variable := return (← read).receiver

/-- What a name stands for; it must stand for something. -/
def binding (name : String) : Lower Binding := do
  let context ← read
  match context.binding? name with
  | some binding => return binding
  | none => throw (.unknownName name context.scope.name)

/-- The declared type and the place of a name; it must be declared. -/
def place (name : String) : Lower (Source.Ty × Place) := do
  match (← read).place? name with
  | some found => return found
  | none => throw (.undeclared name)

def typeOf (expr : Expr) (expected : Option Source.Ty) : Lower Source.Ty := do
  match (← read).typeOf? expr expected with
  | some ty => return ty
  | none => throw (.untyped expr)

/-- Copies a field of the receiver into a new temporary. -/
def loadField (field : Variable) : Lower Variable := do
  let temporary ← newTemporary field.ty
  emit (.assign (.var temporary) field.ty (.getField (.var (← receiver)) field))
  return temporary

end ClassCompiler.Lowering
