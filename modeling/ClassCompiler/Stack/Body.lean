import ClassCompiler.NameMap
import ClassCompiler.Stack.Instr

/-!
# Bodies of methods in assembly

While a body is written, the depth of the operand stack is followed from instruction to
instruction. The deepest point is what the frame has to provide for. Depths are counted in 16 bits:
a depth that does not fit into them wraps around.
-/

namespace ClassCompiler.Stack

inductive Item where
  | label (name : String)
  | instr (instr : Instr)
deriving DecidableEq

def Item.text : Item → String
  | .label name => name ++ ":"
  | .instr step => "  " ++ step.text

structure Body where
  items : List Item
  maxStack : UInt16
deriving DecidableEq

/-- A body that is being written: its items, the depth of the stack after them and the deepest it
has been, the depth at which each label is first jumped to, and whether control does not get past
the last item. -/
structure Draft where
  items : Array Item
  depth : UInt16
  maxDepth : UInt16
  labelDepths : NameMap UInt16
  closed : Bool
deriving DecidableEq

namespace Draft

def initial : Draft := ⟨#[], 0, 0, ∅, false⟩

/-- The depths of labels after a jump at some depth; the first jump to a label counts. -/
def recordJump (depths : NameMap UInt16) (target? : Option String) (depth : UInt16) :
    NameMap UInt16 :=
  match target? with
  | none => depths
  | some target =>
    match depths.get? target with
    | some _ => depths
    | none => depths.insert target depth

/-- Writes an instruction on a stack that holds what it takes. -/
def push (draft : Draft) (instr : Instr) : Draft :=
  let depth := draft.depth - instr.taken + instr.given
  { items := draft.items.push (.instr instr)
    depth
    maxDepth := max draft.maxDepth depth
    labelDepths := recordJump draft.labelDepths instr.target? depth
    closed := instr.endsBlock }

/-- Writes a label. Where control only gets to it by jumps, the stack is as deep as at the first of
them. -/
def mark (draft : Draft) (label : String) : Draft :=
  { draft with
    items := draft.items.push (.label label)
    depth := if draft.closed then (draft.labelDepths.get? label).getD 0 else draft.depth
    closed := false }

def finish (draft : Draft) : Body := ⟨draft.items.toList, draft.maxDepth⟩

end Draft

end ClassCompiler.Stack
