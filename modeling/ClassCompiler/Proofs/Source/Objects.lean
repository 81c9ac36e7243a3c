import ClassCompiler.Source.Typing

/-!
# Objects that are assigned

An object can be made as part of an expression, or it can be assigned at once to a local or a
parameter. The variable that it is assigned to may be declared with another class than its own.
-/

namespace ClassCompiler.Source

def Expr.isVariable (scope : Scope) : Expr → Bool
  | .name id => (scope.local? id).isSome || (scope.parameter? id).isSome
  | _ => false

/-- An object that is made, with the type of the place that it is first kept in. -/
structure Creation where
  cls : String
  kept : Ty

mutual

/-- The objects that a statement assigns to a variable at once, with the declared type of the
variable. -/
def Stmt.assignedObjects (table : SymbolTable) (scope : Scope) : Stmt → List Creation
  | .block body => assignedObjectsOfBody table scope body
  | .ifElse _ onTrue onFalse =>
    onTrue.assignedObjects table scope ++ onFalse.assignedObjects table scope
  | .while _ body => body.assignedObjects table scope
  | .assign target (.newObject cls) =>
    if (Expr.name target).isVariable scope then (table.nameTy? scope target).toList.map (⟨cls, ·⟩)
    else []
  | .assign .. | .assignElement .. | .expr _ => []

def assignedObjectsOfBody (table : SymbolTable) (scope : Scope) : List Stmt → List Creation
  | [] => []
  | first :: rest => first.assignedObjects table scope ++ assignedObjectsOfBody table scope rest

end

def Method.assignedObjects (table : SymbolTable) (scope : Scope) (method : Method) :
    List Creation :=
  assignedObjectsOfBody table scope method.body

/-- Each object is of the class that the place which first keeps it is declared with. -/
def OwnClass (objects : List Creation) : Prop :=
  ∀ object ∈ objects, object.kept = .named object.cls

variable {table : SymbolTable} {scope : Scope}

theorem assignedObjectsOfBody_eq (body : List Stmt) :
    assignedObjectsOfBody table scope body = body.flatMap (·.assignedObjects table scope) := by
  induction body with
  | nil => rw [assignedObjectsOfBody, List.flatMap_nil]
  | cons first rest ih => rw [assignedObjectsOfBody, ih, List.flatMap_cons]

theorem OwnClass.of_flatMap {α : Type} {objects : α → List Creation} {list : List α}
    (own : OwnClass (list.flatMap objects)) {item : α} (hitem : item ∈ list) :
    OwnClass (objects item) :=
  fun object hobject => own object (List.mem_flatMap.mpr ⟨item, hitem, hobject⟩)

end ClassCompiler.Source
