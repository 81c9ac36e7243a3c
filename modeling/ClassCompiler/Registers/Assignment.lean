import ClassCompiler.Registers.Coloring

/-!
# Assignment of registers

Registers are first counted from the slot after the receiver and the parameters, whose slots are
fixed. Then the slot of each variable is written to all its occurrences. Slots have 16 bits, and
sums that do not fit into them wrap around.
-/

namespace ClassCompiler.Registers

open Code (Method Variable)

/-- Register numbers of locals and temporaries, counted from the first slot that is free. -/
abbrev RegisterMap := NameMap UInt16

inductive Fault where
  | flow (method : String) (fault : Flow.Fault)
  | coloring (method : String) (fault : ColoringFault)
  | unassigned (method name : String)
deriving DecidableEq

/-- Locals and temporaries take registers in the order of declaration, as far as 16 bits can count
them. -/
def naturalMap (method : Method) : RegisterMap :=
  .ofList (((method.locals.filter (·.isAllocatable)).map (·.name)).zipIdx.map fun entry =>
    (entry.1, UInt16.ofNat entry.2))

def colorMap (graph : InterferenceGraph) (colors : List Nat) : RegisterMap :=
  .ofList (graph.names.zip (colors.map UInt16.ofNat))

/-- Registers below `bound`, such that variables that are needed at the same time differ. -/
def coloredMap (method : Method) (bound : UInt16) : Except Fault RegisterMap :=
  match Flow.Graph.ofBody method.body with
  | .error fault => .error (.flow method.name fault)
  | .ok flow =>
    let graph := InterferenceGraph.ofMethod method flow flow.liveness
    match color graph bound.toNat with
    | .error fault => .error (.coloring method.name fault)
    | .ok colors => .ok (colorMap graph colors)

def registerMap (method : Method) : Option UInt16 → Except Fault RegisterMap
  | some bound => coloredMap method bound
  | none => .ok (naturalMap method)

/-- The slot of a variable: the receiver is in slot 0, the parameters follow, and then the locals
and temporaries as the map says. Fields and class names have none. -/
def slot? (method : Method) (map : RegisterMap) (var : Variable) : Option UInt16 :=
  match var.role with
  | .receiver => some 0
  | .parameter position => some (method.receiverSlots + position - 1)
  | .declared | .temporary => (map.get? var.name).map (method.reservedSlots + ·)
  | .field | .className => none

/-- The method with the slot of each variable written to all its occurrences. -/
def assign (map : RegisterMap) (method : Method) : Method :=
  method.mapVars fun var => { var with register := slot? method map var }

/-- The first variable of a method that the map should have and does not. -/
def unassigned? (map : RegisterMap) (method : Method) : Option String :=
  (method.vars.find? fun var => var.isAllocatable && (map.get? var.name).isNone).map (·.name)

/-- A method with its registers, and what went wrong. Where some variable has no register the others
are assigned all the same. -/
def assignChecked (map : RegisterMap) (method : Method) : Method × Option Fault :=
  (assign map method, (unassigned? map method).map (.unassigned method.name))

/-- Methods with their registers, up to the first one that cannot have them. -/
def allocateAll (bound? : Option UInt16) : List Method → List Method × Option Fault
  | [] => ([], none)
  | method :: rest =>
    match registerMap method bound? with
    | .error fault => (method :: rest, some fault)
    | .ok map =>
      match assignChecked map method with
      | (assigned, some fault) => (assigned :: rest, some fault)
      | (assigned, none) =>
        let (others, fault?) := allocateAll bound? rest
        (assigned :: others, fault?)

/-- A class whose methods have their registers, and what went wrong. After a failure the methods
before the failing one keep their registers. -/
def allocate (bound? : Option UInt16) (cls : Code.Class) : Code.Class × Option Fault :=
  let (methods, fault?) := allocateAll bound? cls.methods
  ({ cls with methods }, fault?)

end ClassCompiler.Registers
