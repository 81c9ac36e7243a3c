import ClassCompiler.NameMap
import ClassCompiler.NameSet
import ClassCompiler.Code.Class

/-!
# Control flow

The flow graph of a method says which instructions may follow one, and which locals and temporaries
it reads and writes. Other variables have fixed slots and do not take part.
-/

namespace ClassCompiler.Flow

open Code (Instr Labeled Variable)

inductive Fault where
  | repeatedLabel (label : String)
  | unknownLabel (label : String)
deriving DecidableEq

namespace Fault

def message (method : String) : Fault → String
  | .repeatedLabel label => s!"label '{label}' defined twice in method '{method}'"
  | .unknownLabel label => s!"branch to unknown label '{label}' in method '{method}'"

end Fault

structure Point where
  next : List Nat
  uses : NameSet
  defs : NameSet

/-- The flow graph of a method, with a point for each instruction and the place of each label. -/
structure Graph where
  points : Array Point
  labels : NameMap Nat

namespace Graph

def size (graph : Graph) : Nat := graph.points.size

def next (graph : Graph) (index : Nat) : List Nat :=
  match graph.points[index]? with
  | some point => point.next
  | none => []

def uses (graph : Graph) (index : Nat) : NameSet :=
  match graph.points[index]? with
  | some point => point.uses
  | none => ∅

def defs (graph : Graph) (index : Nat) : NameSet :=
  match graph.points[index]? with
  | some point => point.defs
  | none => ∅

end Graph

/-- The names of the locals and temporaries among some variables. -/
def allocatableNames (vars : List Variable) : NameSet :=
  .ofList ((vars.filter (·.isAllocatable)).map (·.name))

def usesOf (instr : Instr) : NameSet :=
  allocatableNames (instr.readOperands.flatMap (·.vars))

def defsOf (instr : Instr) : NameSet := allocatableNames instr.written?.toList

def addLabel (index : Nat) (labels : NameMap Nat) (label : String) : Except Fault (NameMap Nat) :=
  match labels.get? label with
  | some _ => .error (.repeatedLabel label)
  | none => .ok (labels.insert label index)

/-- The places of all labels of some lines, of which the first has the given index. -/
def labelsFrom (index : Nat) (labels : NameMap Nat) :
    List Labeled → Except Fault (NameMap Nat)
  | [] => .ok labels
  | line :: rest => do
    let labels ← line.labels.foldlM (addLabel index) labels
    labelsFrom (index + 1) labels rest

def resolve (labels : NameMap Nat) (label : String) : Except Fault Nat :=
  match labels.get? label with
  | some index => .ok index
  | none => .error (.unknownLabel label)

def following (count index : Nat) : List Nat := if index + 1 < count then [index + 1] else []

/-- What may follow an instruction. Of a conditional branch that is the next instruction, then the
target unless it is the next instruction. -/
def nextOf (labels : NameMap Nat) (count index : Nat) : Instr → Except Fault (List Nat)
  | .goto target => do return [← resolve labels target]
  | .ret .. => .ok []
  | .branch _ target => do
    let place ← resolve labels target
    let next := following count index
    return if place ∈ next then next else next ++ [place]
  | _ => .ok (following count index)

def pointsFrom (labels : NameMap Nat) (count index : Nat) :
    List Labeled → Except Fault (List Point)
  | [] => .ok []
  | line :: rest => do
    let next ← nextOf labels count index line.instr
    let points ← pointsFrom labels count (index + 1) rest
    return ⟨next, usesOf line.instr, defsOf line.instr⟩ :: points

def Graph.ofBody (body : List Labeled) : Except Fault Graph := do
  let labels ← labelsFrom 0 ∅ body
  let points ← pointsFrom labels body.length 0 body
  return ⟨points.toArray, labels⟩

end ClassCompiler.Flow
