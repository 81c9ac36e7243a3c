import ClassCompiler.Compilation

/-!
# Progress of a compilation

A compilation tells one event for each method that a step is done with, up to the step that fails.
The events are computed beside the compilation, which itself tells nothing.
-/

namespace ClassCompiler

open Source (Analysis)

inductive Level where
  | warn
  | info
  | debug
deriving DecidableEq

namespace Level

def text : Level → String
  | .warn => "WARN"
  | .info => "INFO"
  | .debug => "DEBUG"

def isShownAt : Level → Level → Bool
  | .warn, _ => true
  | .info, follow => follow ≠ .warn
  | .debug, follow => follow = .debug

end Level

inductive Event where
  | refused
  | lowered (signature : String) (instrs temporaries : Nat)
  | liveness (method : String) (passes : Nat)
  | registers (method : String) (map : Registers.RegisterMap)
  | allocated (methods : Nat) (bound : UInt16)
  | emitted (method : String) (items : Nat) (stack locals : UInt16)

namespace Event

def level : Event → Level
  | .refused => .warn
  | .allocated .. => .info
  | _ => .debug

def mapText (map : Registers.RegisterMap) : String :=
  let entries := map.entries.map fun entry => Text.quoted entry.1 ++ ": " ++ toString entry.2
  "\x7b" ++ ", ".intercalate entries ++ "\x7d"

def text : Event → String
  | .refused => "upstream reports contain errors, skipping backend"
  | .lowered signature instrs temporaries =>
    s!"lowered {signature}: {instrs} instructions, {temporaries} temporaries"
  | .liveness method passes => s!"{method}: liveness converged after {passes} passes"
  | .registers method map => s!"{method}: registers {mapText map}"
  | .allocated methods bound =>
    s!"allocated {methods} methods with at most {bound} local registers"
  | .emitted method items stack locals =>
    s!"emitted {method}: {items} items, stack {stack}, locals {locals}"

def line (event : Event) : String := s!"[{event.level.text}] {event.text}"

end Event

namespace Progress

def lowering (table : Source.SymbolTable) : List Source.Method → List Event
  | [] => []
  | method :: rest =>
    match Lowering.lowerMethod table method with
    | .error _ => []
    | .ok code =>
      let temporaries := code.locals.countP (·.role = .temporary)
      .lowered method.signature code.body.length temporaries :: lowering table rest

/-- The liveness of a method, which is only looked at if registers are bounded. -/
def liveness (bound? : Option UInt16) (method : Code.Method) : List Event :=
  match bound?, Flow.Graph.ofBody method.body with
  | some _, .ok flow => [.liveness method.name flow.livenessPasses]
  | _, _ => []

/-- The registers of methods, up to the first one that fails. The last event, of a bound that all
methods kept, has the number of all methods. -/
def allocation (bound? : Option UInt16) (count : Nat) : List Code.Method → List Event
  | [] =>
    match bound? with
    | some bound => [.allocated count bound]
    | none => []
  | method :: rest =>
    liveness bound? method ++
      match Registers.registerMap method bound? with
      | .error _ => []
      | .ok map =>
        match Registers.unassigned? map method with
        | some _ => []
        | none => .registers method.name map :: allocation bound? count rest

def assembly (cls : Code.Class) (optimize : Bool) : List Code.Method → List Event
  | [] => []
  | method :: rest =>
    match Stack.bodyOf cls method optimize with
    | .error _ => []
    | .ok body =>
      .emitted method.name body.items.length body.maxStack method.frameSize ::
        assembly cls optimize rest

def events (analysis : Analysis) (settings : Settings) : List Event :=
  if Diagnostic.anyError analysis.diagnostics then [.refused]
  else if !settings.isValid then []
  else
    lowering analysis.table analysis.program.decl.methods ++
      match lower analysis settings with
      | .error _ => []
      | .ok cls =>
        allocation settings.maxRegisters cls.methods.length cls.methods ++
          match allocate settings cls with
          | .error _ => []
          | .ok allocated => assembly allocated settings.optimize allocated.methods

def lines (analysis : Analysis) (settings : Settings) (follow : Level) : List String :=
  ((events analysis settings).filter (·.level.isShownAt follow)).map Event.line

end Progress

end ClassCompiler
