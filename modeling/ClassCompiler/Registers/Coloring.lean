import ClassCompiler.Registers.Interference

/-!
# Coloring

Vertices with few neighbors are taken away one by one; in the reverse order each then takes the
least color that no neighbor has. Nothing is spilled: when no vertex has few neighbors the graph is
not colored.
-/

namespace ClassCompiler.Registers

inductive ColoringFault where
  | noLowDegree (remaining bound : Nat)
  | noFreeColor (name : String) (bound : Nat)
deriving DecidableEq

namespace ColoringFault

def message : ColoringFault → String
  | .noLowDegree remaining bound =>
    s!"Couldn't find a variable with degree < {bound} ({remaining} variables left)"
  | .noFreeColor name bound =>
    s!"No more colors: variable '{name}' needs more than {bound} registers"

end ColoringFault

/-- A graph that vertices are being taken from: the vertices left in ascending order, for each
vertex how many of its neighbors are left, and the vertices taken, last first. -/
structure Simplifying where
  left : List Nat
  degrees : List Nat
  taken : List Nat

namespace Simplifying

def ofGraph (graph : InterferenceGraph) : Simplifying :=
  { left := List.range graph.size
    degrees := (List.range graph.size).map graph.degree
    taken := [] }

def degree (state : Simplifying) (index : Nat) : Nat := state.degrees.getD index 0

/-- The first vertex left that has fewer than `bound` neighbors left. -/
def next? (state : Simplifying) (bound : Nat) : Option Nat :=
  state.left.find? (state.degree · < bound)

/-- Takes a vertex; each neighbor that is left has one neighbor less. -/
def take (graph : InterferenceGraph) (state : Simplifying) (index : Nat) : Simplifying :=
  let left := state.left.erase index
  { left
    degrees := ((graph.neighbors index).filter (· ∈ left)).foldl
      (fun degrees neighbor => degrees.modify neighbor (· - 1)) state.degrees
    taken := index :: state.taken }

end Simplifying

/-- Takes that many vertices, and gives them in reverse order. -/
def simplify (graph : InterferenceGraph) (bound : Nat) :
    Nat → Simplifying → Except ColoringFault (List Nat)
  | 0, state => .ok state.taken
  | remaining + 1, state =>
    match state.next? bound with
    | some index => simplify graph bound remaining (state.take graph index)
    | none => .error (.noLowDegree (remaining + 1) bound)

abbrev PartialColoring := List (Option Nat)

def takenColors (graph : InterferenceGraph) (colors : PartialColoring) (index : Nat) : List Nat :=
  (graph.neighbors index).filterMap fun neighbor => colors.getD neighbor none

/-- Gives each vertex of a list the first color of the palette that none of its neighbors has. -/
def select (graph : InterferenceGraph) (palette : List Nat) :
    List Nat → PartialColoring → Except ColoringFault PartialColoring
  | [], colors => .ok colors
  | index :: rest, colors =>
    let taken := takenColors graph colors index
    match palette.find? (· ∉ taken) with
    | some color => select graph palette rest (colors.set index (some color))
    | none =>
      .error (.noFreeColor (graph.names.getD index "") palette.length)

/-- A color below `bound` for each vertex, such that neighbors have different colors. -/
def color (graph : InterferenceGraph) (bound : Nat) : Except ColoringFault (List Nat) := do
  let order ← simplify graph bound graph.size (.ofGraph graph)
  let colors ← select graph (List.range bound) order (List.replicate graph.size none)
  return colors.map (·.getD 0)

end ClassCompiler.Registers
