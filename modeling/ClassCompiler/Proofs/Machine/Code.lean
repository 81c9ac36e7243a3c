import ClassCompiler.Code.Class
import ClassCompiler.Proofs.Machine.Effect
import ClassCompiler.Proofs.Machine.Listing
import ClassCompiler.Proofs.Machine.Run

/-!
# Machines for code

A machine executes the instructions of a method one at a time. It has a store for the variables of
the method and hands calls, objects, arrays and fields over as requests. Two stores are used: one
keyed by what a variable is, and one keyed by the register that an occurrence carries.
-/

namespace ClassCompiler.Code

open Machine

/-- Which method a call invokes. The target of a static call is a class by its name, or else the
class of its type; a receiver that constructs itself runs the constructor of its superclass. -/
inductive Callee where
  | virtual (receiver : Ty) (method : String)
  | static (cls method : String)
  | staticOf (target : Ty) (method : String)
  | constructor (object : Ty)
  | superconstructor
deriving DecidableEq

/-- What code asks of the world. The operands of an invocation are the receiver, if there is one,
and the arguments. -/
inductive Request where
  | invoke (callee : Callee) (argTys : List Ty) (returnTy : Ty) (operands : List Value)
  | newObject (cls : String)
  | newArray (ty : Ty) (size : Value)
  | length (array : Value)
  | getElement (ty : Ty) (array index : Value)
  | putElement (ty : Ty) (array index value : Value)
  | getField (field : String) (ty : Ty) (object : Value)
  | putField (field : String) (ty : Ty) (object value : Value)
deriving DecidableEq

/-- How code is executed: which values a variable of a type may hold, how variables are kept in a
store, and how requests are answered. -/
structure Executor (F S : Type) where
  fits : Ty → Value → Bool
  get : F → Variable → Option Value
  set : F → Variable → Value → Option F
  perform : Request → Effect S Value

inductive Control (F : Type) where
  | next (store : F)
  | jump (label : String)
  | leave (value : Option Value)

def staticCallee (target : Operand) (method : String) : Callee :=
  match target with
  | .var var => .static var.name method
  | _ => .staticOf target.ty method

def constructorCallee (target : Operand) : Callee :=
  match target with
  | .var var => if var.role = .receiver then .superconstructor else .constructor var.ty
  | _ => .constructor target.ty

namespace Executor

variable {F S : Type} (executor : Executor F S) (store : F)

def fetch (var : Variable) : Effect S Value := do
  let value ← Effect.require (executor.get store var)
  if executor.fits var.ty value then return value else throw .trap

theorem fetch_apply (var : Variable) (state : S) :
    executor.fetch store var state = match executor.get store var with
      | some value =>
        if executor.fits var.ty value then .ok value state else .error .trap state
      | none => .error .trap state := by
  unfold fetch
  cases executor.get store var with
  | none => rfl
  | some value =>
    rw [Effect.require, pure_bind]
    simp only
    split <;> rfl

def operand : Operand → Effect S Value
  | .literal value _ => return .int value
  | .var var => executor.fetch store var
  | .element array index ty => do
    let array ← executor.fetch store array
    let index ← operand index
    executor.perform (.getElement ty array index)

def operands : List Operand → Effect S (List Value)
  | [] => return []
  | first :: rest => do
    let value ← executor.operand store first
    let values ← operands rest
    return value :: values

theorem length_of_operands {list : List Operand} {state state' : S} {values : List Value}
    (h : executor.operands store list state = .ok values state') : values.length = list.length := by
  induction list generalizing state values with
  | nil => cases h; rfl
  | cons first rest ih =>
    obtain ⟨value, _, _, h⟩ := Effect.bind_eq_ok.mp h
    obtain ⟨others, _, hothers, h⟩ := Effect.bind_eq_ok.mp h
    cases h
    rw [List.length_cons, List.length_cons, ih hothers]

/-- A call. Every call is answered by a value, which a void call does not use. -/
def call (kind : CallKind) (target : Operand) (method : Option String) (args : List Operand)
    (returnTy : Ty) : Effect S Value :=
  match kind, method with
  | .virtual, some name => do
    let values ← executor.operands store (target :: args)
    executor.perform (.invoke (.virtual target.ty name) (args.map (·.ty)) returnTy values)
  | .static, some name => do
    let values ← executor.operands store args
    executor.perform (.invoke (staticCallee target name) (args.map (·.ty)) returnTy values)
  | .special, _ => do
    let values ← executor.operands store (target :: args)
    executor.perform (.invoke (constructorCallee target) (args.map (·.ty)) returnTy values)
  | .virtual, none | .static, none => throw .trap
  | .newObject, _ =>
    match target with
    | .var var => executor.perform (.newObject var.name)
    | _ => throw .trap
  | .newArray, _ => do
    let size ← executor.operand store target
    executor.perform (.newArray returnTy size)
  | .arrayLength, _ => do
    let array ← executor.operand store target
    executor.perform (.length array)

def value : Instr → Effect S Value
  | .load operand => executor.operand store operand
  | .binary op left right => do
    let left ← executor.operand store left
    let right ← executor.operand store right
    Effect.lift (Value.binary op left right)
  | .not operand => do
    let value ← executor.operand store operand
    Effect.lift value.not
  | .call kind target method args returnTy => executor.call store kind target method args returnTy
  | .getField object field => do
    let object ← executor.operand store object
    executor.perform (.getField field.name field.ty object)
  | _ => throw .trap

def condition : Condition → Effect S Bool
  | .binary op left right => do
    let left ← executor.operand store left
    let right ← executor.operand store right
    let value ← Effect.lift (Value.binary op left right)
    Effect.require value.truth?
  | .not operand => do
    let value ← executor.operand store operand
    let value ← Effect.lift value.not
    Effect.require value.truth?
  | .holds operand => do
    let value ← executor.operand store operand
    Effect.require value.truth?

/-- Stores a value in a variable that may hold it. -/
def update (var : Variable) (value : Value) : Effect S F :=
  if executor.fits var.ty value then Effect.require (executor.set store var value)
  else throw .trap

/-- An assignment. The array and the index of an element come before the value. -/
def assign (dest : Operand) (value : Instr) : Effect S F :=
  match dest with
  | .var var => do
    let value ← executor.value store value
    executor.update store var value
  | .element array index ty => do
    let array ← executor.fetch store array
    let index ← executor.operand store index
    let value ← executor.value store value
    let _ ← executor.perform (.putElement ty array index value)
    return store
  | .literal .. => throw .trap

def exec : Instr → Effect S (Control F)
  | .assign dest _ value => do
    let store ← executor.assign store dest value
    return .next store
  | .putField object field value => do
    let object ← executor.operand store object
    let value ← executor.operand store value
    let _ ← executor.perform (.putField field.name field.ty object value)
    return .next store
  | .branch cond target => do
    let truth ← executor.condition store cond
    return if truth then .jump target else .next store
  | .goto target => return .jump target
  | .ret _ none => return .leave none
  | .ret ty (some value) => do
    let value ← executor.operand store value
    if executor.fits ty value then return .leave (some value) else throw .trap
  | instr => do
    let _ ← executor.value store instr
    return .next store

end Executor

def Instr.target? : Instr → Option String
  | .branch _ target | .goto target => some target
  | _ => none

def Instr.fallsThrough : Instr → Bool
  | .goto _ | .ret .. => false
  | _ => true

/-- How an instruction can be followed. -/
def Control.Follows {F : Type} (instr : Instr) : Control F → Prop
  | .next _ => instr.fallsThrough
  | .jump label => instr.target? = some label
  | .leave _ => True

/-- How control goes on depends on the kind of the instruction only. -/
theorem Executor.follows_of_exec {F S : Type} {executor : Executor F S} {store : F} {instr : Instr}
    {state state' : S} {control : Control F}
    (h : executor.exec store instr state = .ok control state') : control.Follows instr := by
  cases instr with
  | assign dest ty value =>
    obtain ⟨store', _, _, h⟩ := Effect.bind_eq_ok.mp h
    cases h
    rfl
  | putField object field value =>
    obtain ⟨_, _, _, h⟩ := Effect.bind_eq_ok.mp h
    obtain ⟨_, _, _, h⟩ := Effect.bind_eq_ok.mp h
    obtain ⟨_, _, _, h⟩ := Effect.bind_eq_ok.mp h
    cases h
    rfl
  | branch cond target =>
    obtain ⟨truth, _, _, h⟩ := Effect.bind_eq_ok.mp h
    cases truth <;> cases h <;> rfl
  | goto target => cases h; rfl
  | ret ty value =>
    cases value with
    | none => cases h; trivial
    | some value =>
      obtain ⟨_, _, _, h⟩ := Effect.bind_eq_ok.mp h
      split at h <;> cases h
      trivial
  | binary | not | call | getField | load =>
    obtain ⟨_, _, _, h⟩ := Effect.bind_eq_ok.mp h
    cases h
    rfl

inductive Config (F S : Type) where
  | running (index : Nat) (store : F) (state : S)
  | returned (value : Option Value) (store : F) (state : S)
  | stopped (state : S)

def place? (body : List Labeled) (label : String) : Option Nat :=
  body.findIdx? fun line => label ∈ line.labels

def listing (body : List Labeled) : Listing Instr :=
  body.flatMap fun line => line.labels.map .inl ++ [.inr line.instr]

@[simp] theorem listing_nil : listing [] = [] := rfl

@[simp] theorem listing_cons (line : Labeled) (rest : List Labeled) :
    listing (line :: rest) = line.labels.map .inl ++ .inr line.instr :: listing rest := by
  simp [listing]

@[simp] theorem listing_append (left right : List Labeled) :
    listing (left ++ right) = listing left ++ listing right := List.flatMap_append

theorem instrs_map_inl (labels : List String) :
    Listing.instrs (labels.map .inl : Listing Instr) = [] := by
  induction labels with
  | nil => rfl
  | cons label rest ih => exact ih

theorem labels_map_inl (labels : List String) :
    Listing.labels (labels.map .inl : Listing Instr) = labels := by
  induction labels with
  | nil => rfl
  | cons label rest ih => simp [ih]

theorem instrs_listing (body : List Labeled) : (listing body).instrs = body.map (·.instr) := by
  induction body with
  | nil => rfl
  | cons line rest ih => simp [instrs_map_inl, ih]

theorem labels_listing (body : List Labeled) : (listing body).labels = body.flatMap (·.labels) := by
  induction body with
  | nil => rfl
  | cons line rest ih => simp [labels_map_inl, ih]

theorem address?_labels_append (label : String) (labels : List String) (rest : Listing Instr) :
    Listing.address? label (labels.map .inl ++ rest) =
      if label ∈ labels then some 0 else rest.address? label := by
  induction labels with
  | nil => simp
  | cons first others ih =>
    by_cases heq : first = label
    · simp [Listing.address?, heq]
    · have hne : label ≠ first := fun h => heq h.symm
      simp [Listing.address?, heq, hne, ih]

/-- The address of a label is the line that has it. -/
theorem address?_listing (body : List Labeled) (label : String) :
    (listing body).address? label = place? body label := by
  induction body with
  | nil => rfl
  | cons line rest ih =>
    rw [listing_cons, address?_labels_append, place?, List.findIdx?_cons]
    by_cases hmem : label ∈ line.labels
    · simp [hmem]
    · simp only [hmem, decide_false, Bool.false_eq_true, if_false, Listing.address?]
      rw [ih]
      rfl

namespace Executor

variable {F S : Type} (executor : Executor F S) (body : List Labeled)

def proceed (index : Nat) (store : F) (state : S) : Control F → Config F S
  | .next store => .running (index + 1) store state
  | .jump label =>
    match place? body label with
    | some target => .running target store state
    | none => .stopped state
  | .leave value => .returned value store state

/-- Executes the current instruction; behind the last one there is nothing to execute. -/
def step : Config F S → Config F S
  | .running index store state =>
    match body[index]? with
    | some line =>
      match executor.exec store line.instr state with
      | .ok control state => proceed body index store state control
      | .error _ state => .stopped state
    | none => .stopped state
  | config => config

abbrev run (steps : Nat) (config : Config F S) : Config F S :=
  Machine.run (executor.step body) steps config

end Executor

/-- What a store is keyed by: locals and temporaries by name, parameters by position, and the
receiver. -/
inductive Key where
  | local (name : String)
  | parameter (position : Nat)
  | receiver
deriving DecidableEq

def Variable.key? (var : Variable) : Option Key :=
  match var.role with
  | .declared | .temporary => some (.local var.name)
  | .parameter position => some (.parameter position.toNat)
  | .receiver => some .receiver
  | .field | .className => none

def Variable.slot? (var : Variable) : Option UInt16 :=
  match var.role with
  | .field | .className => none
  | _ => var.register

abbrev NamedStore := Key → Value

abbrev SlotStore := UInt16 → Value

def put {K : Type} [DecidableEq K] (store : K → Value) (key : K) (value : Value) : K → Value :=
  fun other => if other = key then value else store other

@[simp] theorem put_self {K : Type} [DecidableEq K] (store : K → Value) (key : K) (value : Value) :
    put store key value key = value := by
  simp [put]

theorem put_of_ne {K : Type} [DecidableEq K] (store : K → Value) {key other : K} (value : Value)
    (hne : other ≠ key) : put store key value other = store other := by
  simp [put, hne]

/-- Execution with variables kept by what they are. -/
def named {S : Type} (fits : Ty → Value → Bool) (perform : Request → Effect S Value) :
    Executor NamedStore S where
  fits := fits
  get store var := var.key?.map store
  set store var value := var.key?.map fun key => put store key value
  perform := perform

/-- Execution with variables kept in the slots that their occurrences carry. -/
def slotted {S : Type} (fits : Ty → Value → Bool) (perform : Request → Effect S Value) :
    Executor SlotStore S where
  fits := fits
  get store var := var.slot?.map store
  set store var value := var.slot?.map fun slot => put store slot value
  perform := perform

end ClassCompiler.Code
