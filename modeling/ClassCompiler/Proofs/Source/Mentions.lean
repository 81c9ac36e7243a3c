import ClassCompiler.Proofs.Source.Semantics

/-!
# What a method mentions

The words of a method that have a value are `this` and its names. A static method has no receiver,
so it should mention neither `this` nor a field. Nothing here checks that; analysis does.
-/

namespace ClassCompiler.Source

inductive Mention where
  | this
  | name (id : String)
deriving DecidableEq

/-- Whether a word stands for the receiver or for a field of it. -/
def Mention.ofReceiver (table : SymbolTable) (scope : Scope) : Mention → Bool
  | .this => true
  | .name id =>
    match meaning? table scope id with
    | some (.field _) => true
    | _ => false

mutual

def Expr.mentions : Expr → List Mention
  | .this => [.this]
  | .name id => [.name id]
  | .binary _ left right => left.mentions ++ right.mentions
  | .call receiver _ args _ => receiver.mentions ++ mentionsOfArgs args
  | .index array position => array.mentions ++ position.mentions
  | .not operand | .length operand | .newIntArray operand => operand.mentions
  | .int _ | .bool _ | .newObject _ => []

def mentionsOfArgs : List Expr → List Mention
  | [] => []
  | first :: rest => first.mentions ++ mentionsOfArgs rest

end

mutual

def Stmt.mentions : Stmt → List Mention
  | .block body => mentionsOfBody body
  | .ifElse cond onTrue onFalse => cond.mentions ++ (onTrue.mentions ++ onFalse.mentions)
  | .while cond body => cond.mentions ++ body.mentions
  | .assign target value => .name target :: value.mentions
  | .assignElement target position value => .name target :: (position.mentions ++ value.mentions)
  | .expr value => value.mentions

def mentionsOfBody : List Stmt → List Mention
  | [] => []
  | first :: rest => first.mentions ++ mentionsOfBody rest

end

def Method.mentions (method : Method) : List Mention :=
  mentionsOfBody method.body ++ (method.result.map Expr.mentions).getD []

def Method.usesReceiver (table : SymbolTable) (scope : Scope) (method : Method) : Bool :=
  method.mentions.any (·.ofReceiver table scope)

/-- What analysis promises of a table for a program: the parameters of a method are those it is
declared with, and a static method does without the receiver. -/
structure Declares (table : SymbolTable) (program : Program) : Prop where
  parameters : ∀ method ∈ program.decl.methods, ∀ scope ∈ table.method? method.signature,
    scope.parameters = method.parameters
  static : ∀ method ∈ program.decl.methods, method.isStatic = true →
    ∀ scope ∈ table.method? method.signature, method.usesReceiver table scope = false

theorem mentions_subset_args {args : List Expr} {arg : Expr} (h : arg ∈ args) :
    arg.mentions ⊆ mentionsOfArgs args := by
  induction args with
  | nil => cases h
  | cons first rest ih =>
    unfold mentionsOfArgs
    rcases List.mem_cons.mp h with rfl | h
    · exact List.subset_append_left _ _
    · exact List.subset_append_of_subset_right _ (ih h)

theorem mentions_subset_body {body : List Stmt} {stmt : Stmt} (h : stmt ∈ body) :
    stmt.mentions ⊆ mentionsOfBody body := by
  induction body with
  | nil => cases h
  | cons first rest ih =>
    unfold mentionsOfBody
    rcases List.mem_cons.mp h with rfl | h
    · exact List.subset_append_left _ _
    · exact List.subset_append_of_subset_right _ (ih h)

end ClassCompiler.Source
