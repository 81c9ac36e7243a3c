import ClassCompiler.Code.Ty

/-!
# Variables and operands

An occurrence of a variable carries its type, its role in the method, and the register it has been
given. Positions and registers are numbers of 16 bits.
-/

namespace ClassCompiler.Code

/-- What a variable is in its method. The first parameter has position 1; a class name is a variable
only as the target of a static call or of an allocation. -/
inductive Role where
  | declared
  | parameter (position : UInt16)
  | field
  | temporary
  | receiver
  | className
deriving DecidableEq

/-- An occurrence of a variable. Its register is the slot it has been given, if it has one. -/
structure Variable where
  name : String
  ty : Ty
  role : Role
  register : Option UInt16
deriving DecidableEq

namespace Variable

def declared (name : String) (ty : Ty) : Variable := ⟨name, ty, .declared, none⟩

def parameter (name : String) (ty : Ty) (position : UInt16) : Variable :=
  ⟨name, ty, .parameter position, none⟩

def field (name : String) (ty : Ty) : Variable := ⟨name, ty, .field, none⟩

def temporary (name : String) (ty : Ty) : Variable := ⟨name, ty, .temporary, none⟩

def receiver (cls : String) : Variable := ⟨"this", .object cls, .receiver, none⟩

def className (name : String) : Variable := ⟨name, .object name, .className, none⟩

/-- Whether the register of the variable is chosen by allocation: locals and temporaries, as all
other variables have fixed slots or none. -/
def isAllocatable (var : Variable) : Bool :=
  var.role = .declared || var.role = .temporary

def text (var : Variable) : String :=
  match var.role with
  | .receiver => "this"
  | .className => var.name
  | .parameter position => s!"${position}.{var.name}.{var.ty.text}"
  | _ => s!"{var.name}.{var.ty.text}"

end Variable

/-- A literal, a variable, or an element of an array. Booleans are the literals 0 and 1. -/
inductive Operand where
  | literal (value : Int32) (ty : Ty)
  | var (var : Variable)
  | element (array : Variable) (index : Operand) (ty : Ty)
deriving DecidableEq

namespace Operand

def int (value : Int32) : Operand := .literal value .int

def bool (value : Bool) : Operand := .literal (if value then 1 else 0) .bool

def ty : Operand → Ty
  | .literal _ ty => ty
  | .var v => v.ty
  | .element _ _ ty => ty

/-- A literal or a plain variable, which may stand wherever an operand may. -/
def isSimple : Operand → Bool
  | .element .. => false
  | _ => true

def var? : Operand → Option Variable
  | .var v => some v
  | _ => none

def vars : Operand → List Variable
  | .literal .. => []
  | .var v => [v]
  | .element array index _ => array :: index.vars

def mapVars (f : Variable → Variable) : Operand → Operand
  | .literal value ty => .literal value ty
  | .var v => .var (f v)
  | .element array index ty => .element (f array) (index.mapVars f) ty

def text : Operand → String
  | .literal value ty => s!"{value.toInt}.{ty.text}"
  | .var v => v.text
  | .element array index ty =>
    let place := match array.role with
      | .parameter position => s!"${position}."
      | _ => ""
    s!"{place}{array.name}[{index.text}].{ty.text}"

@[simp] theorem vars_mapVars (f : Variable → Variable) (operand : Operand) :
    (operand.mapVars f).vars = operand.vars.map f := by
  induction operand with
  | literal => rfl
  | var => rfl
  | element array index ty ih => simp [mapVars, vars, ih]

end Operand

end ClassCompiler.Code
