import ClassCompiler.Flow.Graph

/-!
# Liveness

A variable is live where its value may still be read. Passes over the instructions, last first, are
repeated until one changes nothing.
-/

namespace ClassCompiler.Flow

structure Liveness where
  before : Array NameSet
  after : Array NameSet
deriving DecidableEq

namespace Liveness

def nothing (count : Nat) : Liveness := ⟨.replicate count ∅, .replicate count ∅⟩

def liveBefore (live : Liveness) (index : Nat) : NameSet := live.before.getD index ∅

def liveAfter (live : Liveness) (index : Nat) : NameSet := live.after.getD index ∅

/-- What is live after an instruction: what is live before one that may follow it. -/
def newAfter (graph : Graph) (live : Liveness) (index : Nat) : NameSet :=
  (graph.next index).foldl (fun set next => set.union (live.liveBefore next)) ∅

/-- What is live before an instruction: what it reads, and what is live after it and not written by
it. -/
def newBefore (graph : Graph) (live : Liveness) (index : Nat) : NameSet :=
  (graph.uses index).union ((newAfter graph live index).diff (graph.defs index))

/-- Brings one instruction up to date with those that may follow it. -/
def visit (graph : Graph) (live : Liveness) (index : Nat) : Liveness :=
  { before := live.before.setIfInBounds index (newBefore graph live index)
    after := live.after.setIfInBounds index (newAfter graph live index) }

/-- One pass over all instructions, the last one first. -/
def pass (graph : Graph) (live : Liveness) : Liveness :=
  (List.range graph.size).reverse.foldl (visit graph) live

/-- Whether each instruction is up to date with those that may follow it. -/
def isFixpoint (graph : Graph) (live : Liveness) : Bool :=
  (List.range graph.size).all fun index =>
    newBefore graph live index = live.liveBefore index &&
      newAfter graph live index = live.liveAfter index

/-- Repeats passes until one changes nothing, and counts them. -/
def settle (graph : Graph) : Nat → Liveness → Nat → Liveness × Nat
  | 0, live, passes => (live, passes)
  | fuel + 1, live, passes =>
    let next := pass graph live
    if next = live then (live, passes + 1) else settle graph fuel next (passes + 1)

/-- The variables that some instruction reads or writes. -/
def mentioned (graph : Graph) : NameSet :=
  graph.points.foldl (fun set point => (set.union point.uses).union point.defs) ∅

/-- How many passes are enough. A pass that changes something adds a variable to one of the two sets
of an instruction, and there is one last pass that changes nothing. -/
def passBound (graph : Graph) : Nat := 2 * graph.size * (mentioned graph).size + 1

/-- The liveness of a flow graph, with the number of passes that found it. -/
def solve (graph : Graph) : Liveness × Nat :=
  settle graph (passBound graph) (nothing graph.size) 0

end Liveness

def Graph.liveness (graph : Graph) : Liveness := (Liveness.solve graph).1

def Graph.livenessPasses (graph : Graph) : Nat := (Liveness.solve graph).2

end ClassCompiler.Flow
