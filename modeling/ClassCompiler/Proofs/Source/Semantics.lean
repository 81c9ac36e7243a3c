import ClassCompiler.Proofs.Machine.Code
import ClassCompiler.Source.Typing

/-!
# The meaning of programs

An expression is evaluated from left to right: operands, receiver, arguments, array and index in the
order in which they are written, and both operands of `&&`. It does not change variables. Calls,
objects, arrays and fields are asked of the world. A loop is given a number of rounds; a method
terminates if its loops end within some number of them.
-/

namespace ClassCompiler.Source

open Code (Key NamedStore put)
open Machine (Effect Stop Value)

/-- Which method a call invokes. A constructor runs on an object that has just been made, and it is
that of a class; the constructor of a superclass is run by a constructor only. -/
inductive Callee where
  | virtual (method : String)
  | static (cls method : String)
  | constructor (object : Code.Ty)
  | superconstructor
deriving DecidableEq

/-- What a program asks of the world. The operands of an invocation are the receiver, if there is
one, and the arguments. -/
inductive Request where
  | invoke (callee : Callee) (operands : List Value)
  | newObject (cls : String)
  | newArray (size : Value)
  | length (array : Value)
  | getElement (array index : Value)
  | putElement (array index value : Value)
  | getField (field : String) (object : Value)
  | putField (field : String) (object value : Value)
deriving DecidableEq

inductive Meaning where
  | slot (key : Key)
  | field (name : String)
  | className (name : String)
deriving DecidableEq

/-- A name stands for a local, else for a parameter by its position, however many there are, else
for a field, else for a class. -/
def meaning? (table : SymbolTable) (scope : Scope) (name : String) : Option Meaning :=
  if (scope.local? name).isSome then some (.slot (.local name))
  else
    match scope.parameters.findIdx? (·.name = name) with
    | some index => some (.slot (.parameter (index + 1)))
    | none =>
      if (table.field? name).isSome then some (.field name)
      else if table.isClass name then some (.className name)
      else none

def className? (table : SymbolTable) (scope : Scope) : Expr → Option String
  | .name name =>
    match meaning? table scope name with
    | some (.className cls) => some cls
    | _ => none
  | _ => none

section

variable {S : Type} (perform : Request → Effect S Value) (table : SymbolTable) (scope : Scope)

section

variable (store : NamedStore)

/-- The value of a name; the name of a class has none. -/
def evalName (name : String) : Effect S Value :=
  match meaning? table scope name with
  | some (.slot key) => return store key
  | some (.field field) => perform (.getField field (store .receiver))
  | _ => throw .trap

mutual

def eval : Expr → Effect S Value
  | .int value => return .int value
  | .bool value => return .ofBool value
  | .this => return store .receiver
  | .name name => evalName perform table scope store name
  | .binary op left right => do
    let left ← eval left
    let right ← eval right
    Effect.lift (Value.binary op left right)
  | .not operand => do
    let value ← eval operand
    Effect.lift value.not
  | .call receiver method args _ =>
    match className? table scope receiver with
    | some cls => do
      let args ← evalAll args
      perform (.invoke (.static cls method) args)
    | none => do
      let receiver ← eval receiver
      let args ← evalAll args
      perform (.invoke (.virtual method) (receiver :: args))
  | .length array => do
    let array ← eval array
    perform (.length array)
  | .newObject cls => do
    let object ← perform (.newObject cls)
    let _ ← perform (.invoke (.constructor (.object cls)) [object])
    return object
  | .newIntArray size => do
    let size ← eval size
    perform (.newArray size)
  | .index array position => do
    let array ← eval array
    let position ← eval position
    perform (.getElement array position)

def evalAll : List Expr → Effect S (List Value)
  | [] => return []
  | first :: rest => do
    let value ← eval first
    let values ← evalAll rest
    return value :: values

end

def test (cond : Expr) : Effect S Bool := do
  let value ← eval perform table scope store cond
  Effect.require value.truth?

end

/-- Runs a body as long as a condition holds, for less than a number of rounds. -/
def loop (holds : NamedStore → Effect S Bool) (body : NamedStore → Effect S NamedStore) :
    Nat → NamedStore → Effect S NamedStore
  | 0, _ => throw .exhausted
  | rounds + 1, store => do
    if ← holds store then
      let store ← body store
      loop holds body rounds store
    else return store

def assign (store : NamedStore) (target : String) (value : Value) : Effect S NamedStore :=
  match meaning? table scope target with
  | some (.slot key) => return put store key value
  | some (.field field) => do
    let _ ← perform (.putField field (store .receiver) value)
    return store
  | _ => throw .trap

mutual

/-- The variables after a statement, in which each loop takes less than a number of rounds. -/
def exec (rounds : Nat) : Stmt → NamedStore → Effect S NamedStore
  | .block body, store => execAll rounds body store
  | .ifElse cond onTrue onFalse, store => do
    if ← test perform table scope store cond then exec rounds onTrue store
    else exec rounds onFalse store
  | .while cond body, store =>
    loop (test perform table scope · cond) (exec rounds body) rounds store
  | .assign target value, store => do
    let value ← eval perform table scope store value
    assign perform table scope store target value
  | .assignElement target position value, store => do
    let array ← evalName perform table scope store target
    let position ← eval perform table scope store position
    let value ← eval perform table scope store value
    let _ ← perform (.putElement array position value)
    return store
  | .expr value, store => do
    let _ ← eval perform table scope store value
    return store

def execAll (rounds : Nat) : List Stmt → NamedStore → Effect S NamedStore
  | [], store => return store
  | first :: rest, store => do
    let store ← exec rounds first store
    execAll rounds rest store

end

/-- The value that a method returns, unless it is void, and its variables in the end. -/
def runMethod (rounds : Nat) (method : Method) (store : NamedStore) :
    Effect S (Option Value × NamedStore) := do
  let store ← execAll perform table scope rounds method.body store
  match method.returnTy, method.result with
  | .void, _ => return (none, store)
  | _, some result =>
    let value ← eval perform table scope store result
    return (some value, store)
  | _, none => throw .trap

end

/-- What a request of code asks, less the types of operands and results, which only code has. -/
def Request.ofCode : Code.Request → Request
  | .invoke callee _ _ operands =>
    let callee := match callee with
      | .virtual _ method => .virtual method
      | .static cls method => .static cls method
      | .staticOf target method => .static target.text method
      | .constructor object => .constructor object
      | .superconstructor => .superconstructor
    .invoke callee operands
  | .newObject cls => .newObject cls
  | .newArray _ size => .newArray size
  | .length array => .length array
  | .getElement _ array index => .getElement array index
  | .putElement _ array index value => .putElement array index value
  | .getField field _ object => .getField field object
  | .putField field _ object value => .putField field object value

end ClassCompiler.Source
