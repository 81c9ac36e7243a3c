import ClassCompiler.Proofs.Stack.Sites

/-!
# Constructors of objects

An object is constructed right after it is allocated, by the constructor of the class that the place
which first keeps it is declared with. A temporary is declared with the class of the object itself.
So the constructor is that of the object for every object but one that is assigned at once to a
variable of another class.
-/

namespace ClassCompiler.Source

variable {table : SymbolTable} {scope : Scope} {creation : Creation}

theorem object_notMem_callSite (expr : Expr) (expected : Option Ty) (isOperand : Bool) :
    Site.object creation ∉ expr.callSite expected isOperand := by
  cases expr <;> simp [Expr.callSite]

/-- An object that is part of an expression is kept in a temporary of its own class. -/
theorem kept_of_mem_innerSites (context : Lowering.Context) {expr : Expr}
    (h : .object creation ∈ expr.innerSites) : creation.kept = .named creation.cls := by
  induction expr using Lowering.induction_on_parts context with
  | h expr ih =>
    by_cases hobject : ∃ cls, expr = .newObject cls
    · obtain ⟨cls, rfl⟩ := hobject
      rw [Expr.innerSites, List.mem_singleton] at h
      cases h
      rfl
    · rw [Lowering.innerSites_eq context (not_exists.mp hobject)] at h
      obtain ⟨part, hpart, h⟩ := List.mem_flatMap.mp h
      rcases List.mem_append.mp h with h | h
      · exact ih part hpart h
      · exact absurd h (object_notMem_callSite _ _ _)

theorem kept_of_mem_exprSites (context : Lowering.Context) {expr : Expr} {expected : Option Ty}
    {isOperand : Bool}
    (h : .object creation ∈ expr.innerSites ++ expr.callSite expected isOperand) :
    creation.kept = .named creation.cls := by
  rcases List.mem_append.mp h with h | h
  · exact kept_of_mem_innerSites context h
  · exact absurd h (object_notMem_callSite _ _ _)

theorem sitesOfBody_eq (body : List Stmt) :
    sitesOfBody table scope body = body.flatMap (·.sites table scope) := by
  induction body with
  | nil => rw [sitesOfBody, List.flatMap_nil]
  | cons first rest ih => rw [sitesOfBody, ih, List.flatMap_cons]

/-- An object is first kept in a temporary of its class, or at once in the variable it is assigned
to. -/
theorem kept_of_mem_sitesOfAssign {target : String} {value : Expr}
    (h : .object creation ∈ sitesOfAssign table scope target value) :
    creation.kept = .named creation.cls ∨
      creation ∈ (Stmt.assign target value).assignedObjects table scope := by
  unfold sitesOfAssign at h
  split at h
  · next hvariable =>
    split at h
    · next cls =>
      obtain rfl := Site.object.inj (List.mem_singleton.mp h)
      rw [Stmt.assignedObjects, if_pos hvariable]
      cases table.nameTy? scope target with
      | none => exact .inl rfl
      | some ty => exact .inr List.mem_cons_self
    · exact .inl (kept_of_mem_exprSites (.ofScope table scope) h)
  · exact .inl (kept_of_mem_exprSites (.ofScope table scope) h)

/-- An object is kept in a place of its own class, or else it is assigned to a variable. -/
theorem kept_of_mem_sites {stmt : Stmt} (h : .object creation ∈ stmt.sites table scope) :
    creation.kept = .named creation.cls ∨ creation ∈ stmt.assignedObjects table scope := by
  induction stmt using Lowering.stmt_induction with
  | block body ih =>
    rw [Stmt.sites, sitesOfBody_eq] at h
    obtain ⟨stmt, hstmt, h⟩ := List.mem_flatMap.mp h
    rw [Stmt.assignedObjects, assignedObjectsOfBody_eq]
    exact (ih stmt hstmt h).imp_right fun hmem => List.mem_flatMap.mpr ⟨stmt, hstmt, hmem⟩
  | ifElse cond onTrue onFalse ihTrue ihFalse =>
    rw [Stmt.sites, List.mem_append, List.mem_append] at h
    rw [Stmt.assignedObjects, List.mem_append]
    rcases h with h | h | h
    · exact .inl (kept_of_mem_exprSites (.ofScope table scope) h)
    · exact (ihFalse h).imp_right .inr
    · exact (ihTrue h).imp_right .inl
  | «while» cond body ih =>
    rw [Stmt.sites, List.mem_append] at h
    rw [Stmt.assignedObjects]
    rcases h with h | h
    · exact .inl (kept_of_mem_exprSites (.ofScope table scope) h)
    · exact ih h
  | assign target value => exact kept_of_mem_sitesOfAssign h
  | assignElement target position value =>
    rw [Stmt.sites, List.mem_append] at h
    rcases h with h | h
    · exact .inl (kept_of_mem_exprSites (.ofScope table scope) h)
    · exact .inl (kept_of_mem_exprSites (.ofScope table scope) h)
  | expr value => exact .inl (kept_of_mem_exprSites (.ofScope table scope) h)

/-- Objects that are assigned at once are among the sites of a statement. -/
theorem mem_sites_of_mem_assignedObjects {stmt : Stmt}
    (h : creation ∈ stmt.assignedObjects table scope) :
    .object creation ∈ stmt.sites table scope := by
  induction stmt using Lowering.stmt_induction with
  | block body ih =>
    rw [Stmt.assignedObjects, assignedObjectsOfBody_eq] at h
    obtain ⟨stmt, hstmt, h⟩ := List.mem_flatMap.mp h
    rw [Stmt.sites, sitesOfBody_eq]
    exact List.mem_flatMap.mpr ⟨stmt, hstmt, ih stmt hstmt h⟩
  | ifElse cond onTrue onFalse ihTrue ihFalse =>
    rw [Stmt.assignedObjects, List.mem_append] at h
    rw [Stmt.sites, List.mem_append, List.mem_append]
    exact .inr (h.symm.imp ihFalse ihTrue)
  | «while» cond body ih =>
    rw [Stmt.assignedObjects] at h
    rw [Stmt.sites]
    exact List.mem_append_right _ (ih h)
  | assign target value =>
    cases value with
    | newObject cls =>
      rw [Stmt.assignedObjects] at h
      split at h
      · next hvariable =>
        obtain ⟨ty, hty, rfl⟩ := List.mem_map.mp h
        rw [Option.mem_toList] at hty
        simp [Stmt.sites, sitesOfAssign, hvariable, hty]
      · cases h
    | _ => cases h
  | assignElement | expr => cases h

/-- So it is for every object that a method makes. -/
theorem kept_of_mem_creations {method : Method} (h : creation ∈ method.creations table scope) :
    creation.kept = .named creation.cls ∨ creation ∈ method.assignedObjects table scope := by
  obtain ⟨site, hsite, hcreation⟩ := List.mem_filterMap.mp h
  cases site with
  | call => cases hcreation
  | object creation =>
    cases hcreation
    rcases List.mem_append.mp hsite with hsite | hsite
    · -- the body has the sites of a block
      have hbody : .object creation ∈ (Stmt.block method.body).sites table scope := hsite
      exact kept_of_mem_sites hbody
    · split at hsite
      · cases hsite
      · cases hsite
      · exact .inl (kept_of_mem_exprSites (.ofScope table scope) hsite)

theorem mem_creations_of_mem_assignedObjects {method : Method}
    (h : creation ∈ method.assignedObjects table scope) :
    creation ∈ method.creations table scope := by
  have hsite : .object creation ∈ (Stmt.block method.body).sites table scope :=
    mem_sites_of_mem_assignedObjects h
  exact List.mem_filterMap.mpr ⟨.object creation, List.mem_append_left _ hsite, rfl⟩

end ClassCompiler.Source

namespace ClassCompiler.Stack

variable {analysis : Source.Analysis} {settings : Settings} {compiled : Compiled}

theorem ownConstructors_iff {cls : Code.Class} {creations : List Source.Creation}
    {constructed : List Construction} (h : List.Forall₂ (Constructs cls) creations constructed) :
    (∀ construction ∈ constructed, construction.constructor? = some construction.allocated) ↔
      ∀ creation ∈ creations,
        cls.ownerOf? (.ofSource creation.kept) = some (cls.qualify creation.cls) := by
  induction h with
  | nil => simp
  | cons hfirst _ ih =>
    rw [List.forall_mem_cons, List.forall_mem_cons, ih, hfirst.owner, hfirst.allocated]

/-- A temporary never leads to the constructor of another class. -/
theorem ownConstructors_creations_iff {cls : Code.Class} {table : Source.SymbolTable}
    {scope : Source.Scope} {method : Source.Method} :
    (∀ creation ∈ method.creations table scope,
      cls.ownerOf? (.ofSource creation.kept) = some (cls.qualify creation.cls)) ↔
    ∀ object ∈ method.assignedObjects table scope,
      cls.ownerOf? (.ofSource object.kept) = some (cls.qualify object.cls) := by
  constructor
  · exact fun h object hobject => h object (Source.mem_creations_of_mem_assignedObjects hobject)
  · intro h creation hcreation
    rcases Source.kept_of_mem_creations hcreation with hkept | hassigned
    · rw [hkept]
      rfl
    · exact h creation hassigned

/-- The constructors that a program calls once it has been compiled. In the body of each method
every object is constructed as soon as it has been allocated and kept. The constructor is that of
the object throughout a method exactly if each object that the method assigns to a variable at once
is of the class that the variable is declared with. -/
theorem constructions_of_compile (h : compile analysis settings = .ok compiled) :
    ∃ first rest,
      compiled.code.methods.mapM (bodyOf compiled.code · settings.optimize) = .ok (first :: rest) ∧
      compiled.assembly = "\n".intercalate (classHeader compiled.code ++
        (List.zipWith (methodLines compiled.code) compiled.code.methods (first :: rest)).flatten) ∧
      constructions first.items = [] ∧
      List.Forall₂ (fun method body => ∃ scope,
        analysis.table.method? method.signature = some scope ∧
        List.Forall₂ (Constructs compiled.code) (method.creations analysis.table scope)
          (constructions body.items) ∧
        ((∀ construction ∈ constructions body.items,
            construction.constructor? = some construction.allocated) ↔
          ∀ object ∈ method.assignedObjects analysis.table scope,
            compiled.code.ownerOf? (.ofSource object.kept) =
              some (compiled.code.qualify object.cls)))
        analysis.program.decl.methods rest := by
  obtain ⟨first, rest, hbodies, hassembly, _, hfirst, hrest⟩ := serves_of_compile h
  refine ⟨first, rest, hbodies, hassembly, hfirst, hrest.imp ?_⟩
  rintro method body ⟨scope, hscope, serves⟩
  have hobjects : List.Forall₂ (Constructs compiled.code) (method.creations analysis.table scope)
      (constructions body.items) := serves.objects
  refine ⟨scope, hscope, hobjects, ?_⟩
  rw [ownConstructors_iff hobjects, ownConstructors_creations_iff]

/-- A class that makes objects of an imported class in every place where one can stand. -/
def placing : Source.Program :=
  ⟨["geo.Point"], "Placing", none, [⟨"origin", .named "Point"⟩], [
    ⟨"mark", false, [⟨"p", .named "Point"⟩], .int,
      [.assign "q" (.newObject "Point"),
        .assign "p" (.newObject "Point"),
        .assign "origin" (.newObject "Point"),
        .expr (.call .this "mark" [.newObject "Point"] none),
        .expr (.call (.newObject "Point") "move" [] none),
        .expr (.newObject "Point")],
      some (.int 0)⟩,
    ⟨"copy", false, [], .named "Placing", [], some (.newObject "Placing")⟩]⟩

def placingAnalysis : Source.Analysis where
  program := placing
  table := Source.SymbolTable.addMethod (Source.SymbolTable.addMethod
    ⟨"Placing", none, ["geo.Point"], [⟨"origin", .named "Point"⟩], ∅⟩
    ⟨"mark", .int, [⟨"p", .named "Point"⟩], [⟨"q", .named "Point"⟩]⟩)
    ⟨"copy", .named "Placing", [], []⟩
  diagnostics := []

/-- Every variable is declared with the class of the objects that are assigned to it, so every
object gets its own constructor. -/
theorem constructions_placing :
    ∃ compiled first rest, compile placingAnalysis ⟨true, some 4⟩ = .ok compiled ∧
      compiled.code.methods.mapM (bodyOf compiled.code · true) = .ok (first :: rest) ∧
      rest.map (fun body => constructions body.items) =
        [List.replicate 6 ⟨"geo/Point", some "geo/Point"⟩, [⟨"Placing", some "Placing"⟩]] ∧
      ∀ body ∈ rest, ∀ construction ∈ constructions body.items,
        construction.constructor? = some construction.allocated := by
  have hevaluated : (compile placingAnalysis ⟨true, some 4⟩).toOption.map (fun compiled =>
      ((compiled.code.methods.mapM (bodyOf compiled.code · true)).toOption.map
        fun bodies => bodies.tail.map fun body => constructions body.items,
      decide (∀ method ∈ placing.decl.methods,
        ∀ scope ∈ placingAnalysis.table.method? method.signature,
          ∀ object ∈ method.assignedObjects placingAnalysis.table scope,
            compiled.code.ownerOf? (.ofSource object.kept) =
              some (compiled.code.qualify object.cls)))) =
      some (some [List.replicate 6 ⟨"geo/Point", some "geo/Point"⟩,
        [⟨"Placing", some "Placing"⟩]], true) := by decide +kernel
  obtain ⟨compiled, hcompiled, hvalues⟩ := Outcome.exists_of_toOption hevaluated
  obtain ⟨hlists, hassigned⟩ := Prod.mk.inj hvalues
  obtain ⟨first, rest, hbodies, _, _, hrest⟩ := constructions_of_compile hcompiled
  rw [hbodies] at hlists
  refine ⟨compiled, first, rest, hcompiled, hbodies, Option.some.inj hlists, ?_⟩
  intro body hbody
  obtain ⟨method, hmethod, scope, hscope, _, hown⟩ := Registers.exists_of_forall₂ hrest hbody
  exact hown.mpr (of_decide_eq_true hassigned method hmethod scope hscope)

/-- A class that assigns an object to a variable of another class. -/
def recasting : Source.Program :=
  ⟨["Base", "Derived"], "Main", none, [], [
    ⟨"make", false, [], .int, [.assign "b" (.newObject "Derived")], some (.int 0)⟩]⟩

def recastingAnalysis : Source.Analysis where
  program := recasting
  table := Source.SymbolTable.addMethod ⟨"Main", none, ["Base", "Derived"], [], ∅⟩
    ⟨"make", .int, [], [⟨"b", .named "Base"⟩]⟩
  diagnostics := []

/-- The object is constructed as one of the class of the variable. -/
theorem constructions_recasting :
    ∃ compiled bodies, compile recastingAnalysis ⟨false, none⟩ = .ok compiled ∧
      compiled.code.methods.mapM (bodyOf compiled.code · false) = .ok bodies ∧
      bodies.map (fun body => constructions body.items) = [[], [⟨"Derived", some "Base"⟩]] := by
  have hevaluated : (compile recastingAnalysis ⟨false, none⟩).toOption.map (fun compiled =>
      (compiled.code.methods.mapM (bodyOf compiled.code · false)).toOption.map
        fun bodies => bodies.map fun body => constructions body.items) =
      some (some [[], [⟨"Derived", some "Base"⟩]]) := by decide +kernel
  obtain ⟨compiled, hcompiled, hbodies⟩ := Outcome.exists_of_toOption hevaluated
  obtain ⟨bodies, hmapM, hlists⟩ := Outcome.exists_of_toOption hbodies
  exact ⟨compiled, bodies, hcompiled, hmapM, hlists⟩

end ClassCompiler.Stack
