import ClassCompiler.Flow.Liveness

/-!
# Interference

Two variables of a method interfere when they are needed at the same time and so cannot share a
register.
-/

namespace ClassCompiler.Registers

/-- Puts a number in its place in an ascending list; a number already there is not repeated. -/
def placeNumber (number : Nat) : List Nat → List Nat
  | [] => [number]
  | first :: rest =>
    if number < first then number :: first :: rest
    else if number = first then first :: rest
    else first :: placeNumber number rest

/-- An undirected graph. Vertices are numbered in the order in which they were added: the names of
the variables by number, the numbers by name, and for each number those it interferes with, in
ascending order. -/
structure InterferenceGraph where
  names : List String
  numbers : NameMap Nat
  adjacency : List (List Nat)
deriving DecidableEq

namespace InterferenceGraph

def empty : InterferenceGraph := ⟨[], ∅, []⟩

def size (graph : InterferenceGraph) : Nat := graph.names.length

def index? (graph : InterferenceGraph) (name : String) : Option Nat := graph.numbers.get? name

def neighbors (graph : InterferenceGraph) (index : Nat) : List Nat := graph.adjacency.getD index []

def degree (graph : InterferenceGraph) (index : Nat) : Nat := (graph.neighbors index).length

/-- Adds a variable, unless it is there, and gives its number. -/
def addVertex (graph : InterferenceGraph) (name : String) : InterferenceGraph × Nat :=
  match graph.index? name with
  | some index => (graph, index)
  | none =>
    ({ names := graph.names ++ [name]
       numbers := graph.numbers.insert name graph.size
       adjacency := graph.adjacency ++ [[]] }, graph.size)

def link (graph : InterferenceGraph) (index neighbor : Nat) : InterferenceGraph :=
  { graph with adjacency := graph.adjacency.modify index (placeNumber neighbor) }

/-- Makes two variables interfere and adds them if they are not there. A variable does not interfere
with itself. -/
def addEdge (graph : InterferenceGraph) (left right : String) : InterferenceGraph :=
  if left = right then graph
  else
    let (graph, i) := graph.addVertex left
    let (graph, j) := graph.addVertex right
    (graph.link i j).link j i

def interferes (graph : InterferenceGraph) (left right : String) : Bool :=
  match graph.index? left, graph.index? right with
  | some i, some j => (graph.neighbors i).contains j
  | _, _ => false

/-- Every edge once, the lower number first, in ascending order. -/
def edges (graph : InterferenceGraph) : List (Nat × Nat) :=
  (List.range graph.size).flatMap fun low =>
    ((graph.neighbors low).filter (low < ·)).map fun high => (low, high)

def addVertices (graph : InterferenceGraph) (names : List String) : InterferenceGraph :=
  names.foldl (fun graph name => (graph.addVertex name).1) graph

def addClique (graph : InterferenceGraph) : List String → InterferenceGraph
  | [] => graph
  | first :: rest =>
    (rest.foldl (fun graph name => graph.addEdge first name) graph).addClique rest

def addStar (graph : InterferenceGraph) (center : String) (names : List String) :
    InterferenceGraph :=
  names.foldl (fun graph name => graph.addEdge center name) graph

/-- The variables of a method in order: the allocatable locals, then what the instructions read and
write. -/
def variableNames (method : Code.Method) (flow : Flow.Graph) : List String :=
  ((method.locals.filter (·.isAllocatable)).map (·.name)) ++
    flow.points.toList.flatMap fun point => point.uses.names ++ point.defs.names

/-- What is live after an instruction interferes; so does what the instruction writes with all that
is live after it, and a value that is never read still has a slot of its own. -/
def addLiveAfter (flow : Flow.Graph) (live : Flow.Liveness) (graph : InterferenceGraph)
    (index : Nat) : InterferenceGraph :=
  let after := (live.liveAfter index).names
  (flow.defs index).names.foldl (fun graph name => graph.addStar name after)
    (graph.addClique after)

def ofMethod (method : Code.Method) (flow : Flow.Graph) (live : Flow.Liveness) :
    InterferenceGraph :=
  (List.range flow.size).foldl (addLiveAfter flow live)
    (empty.addVertices (variableNames method flow))

end InterferenceGraph

end ClassCompiler.Registers
