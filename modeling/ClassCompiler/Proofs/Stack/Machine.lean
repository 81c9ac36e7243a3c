import ClassCompiler.Proofs.Machine.Code
import ClassCompiler.Stack.Generation

/-!
# A machine for assembly

The machine has an operand stack and slots. Instructions that are typed find a value of their type
or stop. Whatever is about objects, arrays, fields and methods is asked of the world, with the
operands that the instruction takes off the stack.
-/

namespace ClassCompiler.Machine

def Value.isInteger : Value → Bool
  | .int _ => true
  | .ref _ => false

end ClassCompiler.Machine

namespace ClassCompiler.Stack

open Code (SlotStore put)
open Machine (Effect Listing Stop Value)

/-- What an instruction asks: itself with its operands, the lowest of the stack first. -/
structure Request where
  instr : Instr
  operands : List Value
deriving DecidableEq

inductive Control where
  | next (stack : List Value) (slots : SlotStore)
  | jump (target : String) (stack : List Value)
  | leave (value : Option Value)

section

variable {S : Type} (perform : Request → Effect S Value) (stack : List Value) (slots : SlotStore)

/-- Loads a slot that holds an integer or a reference, as the instruction says. -/
def execLoad (integer : Bool) (slot : UInt16) : Effect S Control :=
  if (slots slot).isInteger = integer then return .next (slots slot :: stack) slots
  else throw .trap

def execStore (integer : Bool) (slot : UInt16) : Effect S Control :=
  match stack with
  | value :: rest =>
    if value.isInteger = integer then return .next rest (put slots slot value) else throw .trap
  | [] => throw .trap

def execLeave (integer : Bool) : Effect S Control :=
  match stack with
  | value :: _ => if value.isInteger = integer then return .leave (some value) else throw .trap
  | [] => throw .trap

def execOperator (op : Int32 → Int32 → Except Stop Int32) : Effect S Control :=
  match stack with
  | .int right :: .int left :: rest => do
    let result ← Effect.lift (op left right)
    return .next (.int result :: rest) slots
  | _ => throw .trap

def execBranch (test : Int32 → Bool) (target : String) : Effect S Control :=
  match stack with
  | .int value :: rest => return if test value then .jump target rest else .next rest slots
  | _ => throw .trap

/-- Asks the world, and puts the answer on the stack if the instruction has a result. -/
def execRequest (instr : Instr) : Effect S Control :=
  if stack.length < instr.pops then throw .trap
  else do
    let answer ← perform ⟨instr, (stack.take instr.pops).reverse⟩
    let rest := stack.drop instr.pops
    return .next (if instr.pushes = 0 then rest else answer :: rest) slots

def divide (left right : Int32) : Except Stop Int32 :=
  if right = 0 then .error .trap else .ok (left / right)

def exec : Instr → Effect S Control
  | .iconst value => return .next (.int value :: stack) slots
  | .iload slot => execLoad stack slots true slot
  | .aload slot => execLoad stack slots false slot
  | .istore slot => execStore stack slots true slot
  | .astore slot => execStore stack slots false slot
  | .iinc slot delta =>
    match slots slot with
    | .int value => return .next stack (put slots slot (.int (value + delta)))
    | .ref _ => throw .trap
  | .iadd => execOperator stack slots fun left right => .ok (left + right)
  | .isub => execOperator stack slots fun left right => .ok (left - right)
  | .imul => execOperator stack slots fun left right => .ok (left * right)
  | .idiv => execOperator stack slots divide
  | .iand => execOperator stack slots fun left right => .ok (left &&& right)
  | .ixor => execOperator stack slots fun left right => .ok (left ^^^ right)
  | .ifIcmplt target =>
    match stack with
    | .int right :: .int left :: rest =>
      return if left < right then .jump target rest else .next rest slots
    | _ => throw .trap
  | .ifne target => execBranch stack slots (· ≠ 0) target
  | .ifeq target => execBranch stack slots (· = 0) target
  | .goto target => return .jump target stack
  | .pop =>
    match stack with
    | _ :: rest => return .next rest slots
    | [] => throw .trap
  | .ireturn => execLeave stack true
  | .areturn => execLeave stack false
  | .return => return .leave none
  | instr => execRequest perform stack slots instr

end

theorem exec_iload {S : Type} (perform : Request → Effect S Value) (stack : List Value)
    (slots : SlotStore) (slot : UInt16) :
    exec perform stack slots (.iload slot) = execLoad stack slots true slot := rfl

theorem exec_iinc {S : Type} (perform : Request → Effect S Value) (stack : List Value)
    (slots : SlotStore) (slot : UInt16) (delta : Int32) :
    exec perform stack slots (.iinc slot delta) =
      match slots slot with
      | .int value => pure (.next stack (put slots slot (.int (value + delta))))
      | .ref _ => throw .trap := rfl

theorem exec_ifIcmplt {S : Type} (perform : Request → Effect S Value) (rest : List Value)
    (slots : SlotStore) (target : String) (left right : Int32) :
    exec perform (.int right :: .int left :: rest) slots (.ifIcmplt target) =
      pure (if left < right then .jump target rest else .next rest slots) := rfl

theorem exec_ifne {S : Type} (perform : Request → Effect S Value) (rest : List Value)
    (slots : SlotStore) (target : String) (value : Int32) :
    exec perform (.int value :: rest) slots (.ifne target) =
      pure (if decide (value ≠ 0) then .jump target rest else .next rest slots) := rfl

theorem Instr.pops_invoke (kind : InvokeKind) (method : MethodRef) :
    (Instr.invoke kind method).pops = method.args + if kind = .static then 0 else 1 := by
  cases kind <;> rfl

theorem Instr.pushes_invoke (kind : InvokeKind) (method : MethodRef) :
    (Instr.invoke kind method).pushes = if method.returnsValue then 1 else 0 := rfl

def Instr.asks : Instr → Bool
  | .new _ | .newIntArray | .anewarray _ | .arraylength | .iaload | .iastore | .aaload | .aastore
  | .getfield _ | .putfield _ | .invoke .. => true
  | _ => false

theorem exec_of_asks {S : Type} (perform : Request → Effect S Value) (stack : List Value)
    (slots : SlotStore) {instr : Instr} (asks : instr.asks) :
    exec perform stack slots instr = execRequest perform stack slots instr := by
  cases instr <;> first | rfl | cases asks

inductive Config (S : Type) where
  | running (address : Nat) (stack : List Value) (slots : SlotStore) (state : S)
  | returned (value : Option Value) (slots : SlotStore) (state : S)
  | stopped (state : S)

def Item.place : Item → String ⊕ Instr
  | .label name => .inl name
  | .instr step => .inr step

def listing (items : List Item) : Listing Instr := items.map Item.place

section

variable {S : Type} (perform : Request → Effect S Value) (code : Listing Instr)

def goTo (target : String) (stack : List Value) (slots : SlotStore) (state : S) : Config S :=
  match code.address? target with
  | some place => .running place stack slots state
  | none => .stopped state

def proceed (address : Nat) (slots : SlotStore) (state : S) : Control → Config S
  | .next stack slots => .running (address + 1) stack slots state
  | .jump target stack => goTo code target stack slots state
  | .leave value => .returned value slots state

/-- Executes the instruction at the current address; behind the last one there is none. -/
def step : Config S → Config S
  | .running address stack slots state =>
    match code.instrs[address]? with
    | some instr =>
      match exec perform stack slots instr state with
      | .ok control state => proceed code address slots state control
      | .error _ state => .stopped state
    | none => .stopped state
  | config => config

abbrev run (steps : Nat) (config : Config S) : Config S :=
  Machine.run (step perform code) steps config

abbrev Reaches (least : Nat) (config config' : Config S) : Prop :=
  Machine.Reaches (step perform code) least config config'

end

section

variable {S : Type} {perform : Request → Effect S Value} {code : Listing Instr}
  {least least' : Nat} {config config' config'' : Config S}

/-- Execution from a place does what a computation says: it gets to where the value belongs, with
the state that the computation leaves, or it stops with that state. Nothing is said of computations
that take a value for a boolean that is none. -/
def Meets {α : Type} (perform : Request → Effect S Value) (code : Listing Instr) (least : Nat)
    (result : EStateM.Result Stop S α) (config : Config S) (goal : α → S → Config S) : Prop :=
  match result with
  | .ok a state => Reaches perform code least config (goal a state)
  | .error .notBoolean _ => True
  | .error _ state => Reaches perform code least config (.stopped state)

section

variable {α β : Type} {goal : α → S → Config S}

theorem Meets.ok {a : α} {state : S} (h : Reaches perform code least config (goal a state)) :
    Meets perform code least (.ok a state) config goal := h

theorem Meets.trap {state : S} (h : Reaches perform code least config (.stopped state)) :
    Meets perform code least (.error .trap state) config goal := h

/-- Steps before those that do a computation. -/
theorem Meets.after {result : EStateM.Result Stop S α}
    (h : Reaches perform code least config config')
    (h' : Meets perform code least' result config' goal) :
    Meets perform code least' result config goal := by
  cases result with
  | ok a state => exact h.trans h'
  | error stop state =>
    cases stop with
    | notBoolean => trivial
    | trap | exhausted => exact h.trans h'

/-- A computation in two parts, each of which is done by a part of the execution. -/
theorem Meets.bind {x : Effect S α} {f : α → Effect S β} {state : S} {goal' : β → S → Config S}
    (h : Meets perform code least (x state) config goal)
    (h' : ∀ a state', x state = .ok a state' →
      Meets perform code least' (f a state') (goal a state') goal') :
    Meets perform code least' ((x >>= f) state) config goal' := by
  cases hx : x state with
  | ok a state' =>
    rw [hx] at h
    rw [Effect.bind_ok hx]
    exact Meets.after h (h' a state' hx)
  | error stop state' =>
    rw [hx] at h
    rw [Effect.bind_error hx]
    cases stop with
    | notBoolean => trivial
    | trap | exhausted => exact h.of_fixed rfl _

/-- A computation whose value is only passed on. -/
theorem Meets.map {x : Effect S α} {f : α → β} {state : S} {goal' : β → S → Config S}
    (h : Meets perform code least (x state) config goal)
    (hgoal : ∀ a state', goal a state' = goal' (f a) state') :
    Meets perform code least ((x >>= fun a => pure (f a)) state) config goal' := by
  cases hx : x state with
  | ok a state' =>
    rw [hx] at h
    rw [Effect.bind_ok hx]
    refine Meets.ok ?_
    rw [← hgoal]
    exact h
  | error stop state' =>
    rw [hx] at h
    rw [Effect.bind_error hx]
    cases stop with
    | notBoolean => trivial
    | trap | exhausted => exact h

end

section

variable {address : Nat} {instr : Instr} {label : String}
variable {stack stack' : List Value} {slots slots' : SlotStore} {state state' : S}

theorem reaches_next (h : code.instrs[address]? = some instr)
    (hexec : exec perform stack slots instr state = .ok (.next stack' slots') state') :
    Reaches perform code 1 (.running address stack slots state)
      (.running (address + 1) stack' slots' state') := by
  refine Machine.Reaches.of_step ?_
  simp only [step, h, hexec, proceed]

theorem reaches_jump (h : code.instrs[address]? = some instr)
    (hexec : exec perform stack slots instr state = .ok (.jump label stack') state') :
    Reaches perform code 1 (.running address stack slots state)
      (goTo code label stack' slots state') := by
  refine Machine.Reaches.of_step ?_
  simp only [step, h, hexec, proceed]

theorem reaches_leave {value : Option Value} (h : code.instrs[address]? = some instr)
    (hexec : exec perform stack slots instr state = .ok (.leave value) state') :
    Reaches perform code 1 (.running address stack slots state)
      (.returned value slots state') := by
  refine Machine.Reaches.of_step ?_
  simp only [step, h, hexec, proceed]

theorem reaches_stopped (stop : Stop) (h : code.instrs[address]? = some instr)
    (hexec : exec perform stack slots instr state = .error stop state') :
    Reaches perform code 1 (.running address stack slots state) (.stopped state') := by
  refine Machine.Reaches.of_step ?_
  simp only [step, h, hexec]

end

end

end ClassCompiler.Stack
