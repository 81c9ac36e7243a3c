import ClassCompiler.Proofs.Lowering.Methods
import ClassCompiler.Proofs.Lowering.Typing

/-!
# Calls and objects in lowered code

A method calls methods and makes objects at sites that can be listed in the order of evaluation. Its
code has an invocation for each call and an allocation with the call of a constructor for each
object, in that order, and no others.
-/

namespace ClassCompiler.Code

structure Invocation where
  method : String
  args : List Ty
  returnTy : Ty
deriving DecidableEq

def Instr.invocation? : Instr → Option Invocation
  | .call .virtual _ (some method) args returnTy | .call .static _ (some method) args returnTy =>
    some ⟨method, args.map (·.ty), returnTy⟩
  | .assign _ _ value => value.invocation?
  | _ => none

/-- Whether an instruction neither invokes a method by its name nor allocates an object. -/
def Instr.isQuiet : Instr → Bool
  | .call .virtual .. | .call .static .. | .call .newObject .. => false
  | .assign _ _ value => value.isQuiet
  | _ => true

namespace Instr

theorem invocation?_of_isQuiet {instr : Instr} (h : instr.isQuiet) : instr.invocation? = none := by
  induction instr with
  | assign dest ty value ih => exact ih h
  | call kind target method args returnTy =>
    cases kind with
    | special | newArray | arrayLength => rfl
    | virtual | static | newObject => cases h
  | _ => rfl

theorem isQuiet_mapVars (f : Variable → Variable) (instr : Instr) :
    (instr.mapVars f).isQuiet = instr.isQuiet := by
  induction instr with
  | assign dest ty value ih => exact ih
  | call kind target method args returnTy => cases kind <;> rfl
  | _ => rfl

theorem invocation?_mapVars {f : Variable → Variable} (keeps : Keeps f) (instr : Instr) :
    (instr.mapVars f).invocation? = instr.invocation? := by
  induction instr with
  | assign dest ty value ih => exact ih
  | call kind target method args returnTy =>
    have hargs : (args.map (·.mapVars f)).map (·.ty) = args.map (·.ty) := by
      rw [List.map_map]
      exact List.map_congr_left fun operand _ => keeps.operand_ty operand
    cases kind with
    | virtual | static =>
      cases method with
      | none => rfl
      | some method => simp only [mapVars, invocation?, hargs]
    | special | newObject | newArray | arrayLength => rfl
  | _ => rfl

end Instr

end ClassCompiler.Code

namespace ClassCompiler.Source

/-- A call with the type that its context wants, and whether it is the operand of something else. -/
structure Call where
  receiver : Expr
  method : String
  args : List Expr
  ty : Option Ty
  expected : Option Ty
  isOperand : Bool

inductive Site where
  | call (call : Call)
  | object (creation : Creation)

def Site.call? : Site → Option Call
  | .call found => some found
  | .object _ => none

def Site.creation? : Site → Option Creation
  | .call _ => none
  | .object found => some found

def Expr.callSite (expected : Option Ty) (isOperand : Bool) : Expr → List Site
  | .call receiver method args ty => [.call ⟨receiver, method, args, ty, expected, isOperand⟩]
  | _ => []

mutual

/-- The sites of an expression up to the call that it is itself. An object that is not assigned to a
variable at once is kept in a temporary of its own class. -/
def Expr.innerSites : Expr → List Site
  | .binary op left right =>
    left.innerSites ++ left.callSite (some (operandTy op)) true ++
      (right.innerSites ++ right.callSite (some (operandTy op)) true)
  | .not operand => operand.innerSites ++ operand.callSite (some .boolean) true
  | .call receiver _ args _ =>
    receiver.innerSites ++ receiver.callSite none true ++ sitesOfArgs args
  | .length array => array.innerSites ++ array.callSite none true
  | .newObject cls => [.object ⟨cls, .named cls⟩]
  | .newIntArray size => size.innerSites ++ size.callSite (some .int) true
  | .index array position =>
    array.innerSites ++ array.callSite none true ++
      (position.innerSites ++ position.callSite (some .int) true)
  | .int _ | .bool _ | .name _ | .this => []

def sitesOfArgs : List Expr → List Site
  | [] => []
  | first :: rest => first.innerSites ++ first.callSite none true ++ sitesOfArgs rest

end

/-- The sites of an expression that is an operand. -/
def Expr.valueSites (expr : Expr) (expected : Option Ty) : List Site :=
  expr.innerSites ++ expr.callSite expected true

/-- The sites of an expression whose value is stored or dropped at once. -/
def Expr.storedSites (expr : Expr) (expected : Option Ty) : List Site :=
  expr.innerSites ++ expr.callSite expected false

/-- The sites of an assignment to a name. A new object that is assigned to a variable is first kept
there, so in a place of the declared type. -/
def sitesOfAssign (table : SymbolTable) (scope : Scope) (target : String) (value : Expr) :
    List Site :=
  let declared := table.nameTy? scope target
  if (Expr.name target).isVariable scope then
    match value with
    | .newObject cls => [.object ⟨cls, declared.getD (.named cls)⟩]
    | value => value.storedSites declared
  else value.valueSites declared

mutual

/-- The sites of a statement in the order of its code, which has the second branch of a conditional
before the first. -/
def Stmt.sites (table : SymbolTable) (scope : Scope) : Stmt → List Site
  | .block body => sitesOfBody table scope body
  | .ifElse cond onTrue onFalse =>
    cond.valueSites (some .boolean) ++ (onFalse.sites table scope ++ onTrue.sites table scope)
  | .while cond body => cond.valueSites (some .boolean) ++ body.sites table scope
  | .assign target value => sitesOfAssign table scope target value
  | .assignElement target position value =>
    position.valueSites (some .int) ++
      value.storedSites ((table.nameTy? scope target).bind Ty.element?)
  | .expr value => value.storedSites none

def sitesOfBody (table : SymbolTable) (scope : Scope) : List Stmt → List Site
  | [] => []
  | first :: rest => first.sites table scope ++ sitesOfBody table scope rest

end

def Method.sites (table : SymbolTable) (scope : Scope) (method : Method) : List Site :=
  sitesOfBody table scope method.body ++
    match method.returnTy, method.result with
    | .void, _ | _, none => []
    | ty, some result => result.valueSites (some ty)

def Method.calls (table : SymbolTable) (scope : Scope) (method : Method) : List Call :=
  (method.sites table scope).filterMap Site.call?

def Method.creations (table : SymbolTable) (scope : Scope) (method : Method) : List Creation :=
  (method.sites table scope).filterMap Site.creation?

/-- The invocation that a call is lowered to: the types of its arguments are those in which their
values are handed on, and the value of an operand is never void. -/
def Call.invocation? (table : SymbolTable) (scope : Scope) (call : Call) :
    Option Code.Invocation := do
  let args ← call.args.mapM (table.argTy? scope)
  let ty ← table.typeOf? scope (.call call.receiver call.method call.args call.ty) call.expected
  let returnTy := Code.Ty.ofSource ty
  return ⟨call.method, args, if call.isOperand then Lowering.keptTy returnTy else returnTy⟩

end ClassCompiler.Source

namespace ClassCompiler.Lowering

open Code (Instr Labeled Operand Variable)
open Source (Expr Scope Site Stmt SymbolTable)

/-- Lines of code that have an invocation for each call and an allocation with the call of a
constructor for each object, in order. -/
inductive Realizes (table : SymbolTable) (scope : Scope) : List Site → List Labeled → Prop where
  | nil : Realizes table scope [] []
  | quiet {sites : List Site} {rest : List Labeled} (labels : List String) {instr : Instr}
      (h : instr.isQuiet) (others : Realizes table scope sites rest) :
      Realizes table scope sites (⟨labels, instr⟩ :: rest)
  | call {sites : List Site} {rest : List Labeled} {call : Source.Call}
      {invocation : Code.Invocation} (labels : List String) {instr : Instr}
      (hcall : call.invocation? table scope = some invocation)
      (hinstr : instr.invocation? = some invocation) (others : Realizes table scope sites rest) :
      Realizes table scope (.call call :: sites) (⟨labels, instr⟩ :: rest)
  | object {sites : List Site} {rest : List Labeled} {creation : Source.Creation}
      {target cls : Variable} (labels : List String) (ty returnTy : Code.Ty)
      (hcls : cls.name = creation.cls) (htarget : target.ty = .ofSource creation.kept)
      (hrole : target.role ≠ .receiver) (others : Realizes table scope sites rest) :
      Realizes table scope (.object creation :: sites)
        (⟨labels, .assign (.var target) ty (.call .newObject (.var cls) none [] returnTy)⟩ ::
          ⟨[], .construct (.var target)⟩ :: rest)

namespace Realizes

variable {table : SymbolTable} {scope : Scope} {sites sites' : List Site}
  {lines lines' : List Labeled}

theorem append (h : Realizes table scope sites lines) (h' : Realizes table scope sites' lines') :
    Realizes table scope (sites ++ sites') (lines ++ lines') := by
  induction h with
  | nil => exact h'
  | quiet labels hquiet _ ih => exact .quiet labels hquiet ih
  | call labels hcall hinstr _ ih => exact .call labels hcall hinstr ih
  | object labels ty returnTy hcls htarget hrole _ ih =>
    exact .object labels ty returnTy hcls htarget hrole ih

/-- Registers do not matter to what is invoked and allocated. -/
theorem mapVars {f : Variable → Variable} (keeps : Code.Keeps f)
    (h : Realizes table scope sites lines) :
    Realizes table scope sites
      (lines.map fun line => { line with instr := line.instr.mapVars f }) := by
  induction h with
  | nil => exact .nil
  | quiet labels hquiet _ ih => exact .quiet labels ((Instr.isQuiet_mapVars f _).trans hquiet) ih
  | call labels hcall hinstr _ ih =>
    exact .call labels hcall ((Instr.invocation?_mapVars keeps _).trans hinstr) ih
  | object labels ty returnTy hcls htarget hrole _ ih =>
    refine .object labels ty returnTy ((keeps.name _).trans hcls) ((keeps.ty _).trans htarget) ?_ ih
    rwa [keeps.role]

end Realizes

/-- Lowering that has added code for some sites to a draft. -/
def Performs (table : SymbolTable) (scope : Scope) (sites : List Site) (draft draft' : Draft) :
    Prop :=
  ∃ lines, draft'.code.toList = draft.code.toList ++ lines ∧ Realizes table scope sites lines

section

variable {table : SymbolTable} {scope : Scope} {sites sites' : List Site}
  {draft draft' draft'' : Draft}

namespace Performs

theorem of_code_eq (h : draft'.code = draft.code) : Performs table scope [] draft draft' :=
  ⟨[], by rw [h, List.append_nil], .nil⟩

theorem trans (h : Performs table scope sites draft draft')
    (h' : Performs table scope sites' draft' draft'') :
    Performs table scope (sites ++ sites') draft draft'' := by
  obtain ⟨lines, hcode, hlines⟩ := h
  obtain ⟨lines', hcode', hlines'⟩ := h'
  exact ⟨lines ++ lines', by rw [hcode', hcode, List.append_assoc], hlines.append hlines'⟩

theorem quiet {instr : Instr} (draft : Draft) (h : instr.isQuiet) :
    Performs table scope [] draft (draft.write instr) :=
  ⟨[⟨draft.pending, instr⟩], by simp [Draft.write], .quiet draft.pending h .nil⟩

theorem call {instr : Instr} {call : Source.Call} {invocation : Code.Invocation} (draft : Draft)
    (hcall : call.invocation? table scope = some invocation)
    (hinstr : instr.invocation? = some invocation) :
    Performs table scope [.call call] draft (draft.write instr) :=
  ⟨[⟨draft.pending, instr⟩], by simp [Draft.write], .call draft.pending hcall hinstr .nil⟩

theorem allocate {target : Variable} {cls : String} {kept : Source.Ty} (draft : Draft)
    (htarget : target.ty = .ofSource kept) (hrole : target.role ≠ .receiver) :
    Performs table scope [.object ⟨cls, kept⟩] draft (draft.allocate target cls) :=
  ⟨[⟨draft.pending, .assign (.var target) target.ty (.newObject cls)⟩,
      ⟨[], .construct (.var target)⟩],
    by simp [Draft.allocate, Draft.write], .object draft.pending _ _ rfl htarget hrole .nil⟩

/-- What adds no site may come before. -/
theorem after (h : Performs table scope [] draft draft')
    (h' : Performs table scope sites draft' draft'') : Performs table scope sites draft draft'' :=
  h.trans h'

/-- What adds no site may come behind. -/
theorem before (h : Performs table scope sites draft draft')
    (h' : Performs table scope [] draft' draft'') : Performs table scope sites draft draft'' := by
  simpa only [List.append_nil] using h.trans h'

end Performs

theorem sitesOfArgs_eq (args : List Expr) :
    Source.sitesOfArgs args = args.flatMap (·.valueSites none) := by
  induction args with
  | nil => rw [Source.sitesOfArgs, List.flatMap_nil]
  | cons first rest ih => rw [Source.sitesOfArgs, ih, List.flatMap_cons, Expr.valueSites]

/-- A receiver that names a class has no sites. -/
theorem valueSites_of_namedClass? {context : Context} {receiver : Expr} {cls : Variable}
    (h : namedClass? context receiver = some cls) (expected : Option Source.Ty) :
    receiver.valueSites expected = [] := by
  cases receiver with
  | name => rfl
  | _ => cases h

/-- The sites of an expression up to its own call are those of its parts. -/
theorem innerSites_eq {expr : Expr} (context : Context) (h : ∀ cls, expr ≠ .newObject cls) :
    expr.innerSites = (parts context expr).flatMap fun part => part.1.valueSites part.2 := by
  cases expr with
  | call receiver method args ty =>
    have hargs : args.flatMap (·.valueSites none) =
        (args.map (·, (none : Option Source.Ty))).flatMap fun part => part.1.valueSites part.2 := by
      rw [List.flatMap_map]
    rw [Expr.innerSites, sitesOfArgs_eq, hargs]
    cases hclass : namedClass? context receiver with
    | some cls =>
      have hnone := valueSites_of_namedClass? hclass none
      rw [Expr.valueSites] at hnone
      simp [parts, hclass, hnone]
    | none => simp [parts, hclass, Expr.valueSites]
  | newObject cls => exact absurd rfl (h cls)
  | _ => simp [Expr.innerSites, parts, Expr.valueSites]

variable {expr : Expr} {expected : Option Source.Ty} {instr : Instr}

/-- An expression is lowered to the invocation that it is, if it is one, and else to an instruction
that is quiet. -/
theorem callSite_cases
    (h : lowerExpr expr expected (.ofScope table scope) draft = .ok instr draft') :
    (∃ receiver method args ty kind target operands returnTy, expr = .call receiver method args ty ∧
      instr = .call kind target (some method) operands (.ofSource returnTy) ∧
      (kind = .virtual ∨ kind = .static) ∧
      table.typeOf? scope expr expected = some returnTy ∧
      args.mapM (table.argTy? scope) = some (operands.map (·.ty))) ∨
    (∀ isOperand, expr.callSite expected isOperand = []) ∧ instr.isQuiet := by
  rcases lowerExpr_eq_ok h with ⟨cls, rfl, rfl, _⟩ | ⟨operands, hall, hforms⟩
  · exact .inr ⟨fun _ => rfl, rfl⟩
  · cases hforms with
    | static hclass method args ty operands returnTy =>
      obtain ⟨ty', htype, hty⟩ := typed_call h
      obtain rfl : returnTy = .ofSource ty' := hty
      simp only [parts, hclass] at hall
      exact .inl ⟨_, method, args, ty, _, _, operands, ty', rfl, rfl, .inr rfl, htype,
        typed_lowersAll hall⟩
    | virtual hclass method args ty target operands returnTy =>
      obtain ⟨ty', htype, hty⟩ := typed_call h
      obtain rfl : returnTy = .ofSource ty' := hty
      simp only [parts, hclass] at hall
      cases hall with
      | cons _ hothers =>
        exact .inl ⟨_, method, args, ty, _, target, operands, ty', rfl, rfl, .inl rfl, htype,
          typed_lowersAll hothers⟩
    | _ => exact .inr ⟨fun _ => rfl, rfl⟩

/-- Writing the instruction of an expression, stored or not, performs the call that it is. -/
theorem performs_write (h : lowerExpr expr expected (.ofScope table scope) draft = .ok instr draft')
    {wrapped : Instr} (hquiet : wrapped.isQuiet = instr.isQuiet)
    (hinvocation : wrapped.invocation? = instr.invocation?) :
    Performs table scope (expr.callSite expected false) draft' (draft'.write wrapped) := by
  rcases callSite_cases h with
    ⟨receiver, method, args, ty, kind, target, operands, returnTy, rfl, rfl, hkind, htype, hargs⟩ |
    ⟨hnone, hinstr⟩
  · have hcall : Source.Call.invocation? table scope ⟨receiver, method, args, ty, expected, false⟩ =
        some ⟨method, operands.map (·.ty), .ofSource returnTy⟩ := by
      simp [Source.Call.invocation?, hargs, htype]
    refine .call draft' hcall (hinvocation.trans ?_)
    rcases hkind with rfl | rfl <;> rfl
  · rw [hnone]
    exact .quiet draft' (hquiet.trans hinstr)

theorem isQuiet_returning (ty : Code.Ty) (instr : Instr) :
    (returning ty instr).isQuiet = instr.isQuiet := by
  cases instr with
  | call kind target method args returnTy => cases kind <;> cases returnTy <;> rfl
  | _ => rfl

/-- Keeping the value of an expression in a temporary performs the call that the expression is. -/
theorem performs_keep
    (h : lowerExpr expr expected (.ofScope table scope) draft = .ok instr draft') :
    Performs table scope (expr.callSite expected true) draft'
      (draft'.keep (.ofScope table scope) (keptTy instr.ty) instr) := by
  have hfresh : Performs table scope [] draft'
      (draft'.withFresh (.ofScope table scope) (keptTy instr.ty)) := .of_code_eq rfl
  refine hfresh.after ?_
  rcases callSite_cases h with
    ⟨receiver, method, args, ty, kind, target, operands, returnTy, rfl, rfl, hkind, htype, hargs⟩ |
    ⟨hnone, hinstr⟩
  · have hcall : Source.Call.invocation? table scope ⟨receiver, method, args, ty, expected, true⟩ =
        some ⟨method, operands.map (·.ty), keptTy (.ofSource returnTy)⟩ := by
      simp [Source.Call.invocation?, hargs, htype]
    refine .call _ hcall ?_
    rcases hkind with rfl | rfl <;> cases returnTy <;> rfl
  · rw [hnone]
    exact .quiet _ ((isQuiet_returning _ instr).trans hinstr)

/-- An operand that is a call is an invocation behind those of its own parts. -/
theorem performs_lowerValue {operand : Operand}
    (hinner : ∀ {expected instr draft draft'},
      lowerExpr expr expected (.ofScope table scope) draft = .ok instr draft' →
        Performs table scope expr.innerSites draft draft')
    (h : lowerValue expr expected (.ofScope table scope) draft = .ok operand draft') :
    Performs table scope (expr.valueSites expected) draft draft' := by
  obtain ⟨instr, middle, hexpr, hsimple⟩ := bind_eq_ok.mp h
  refine (hinner hexpr).trans ?_
  rcases simple_cases hsimple with ⟨rfl, _, rfl⟩ | ⟨_, _, rfl⟩
  · rcases callSite_cases hexpr with ⟨_, _, _, _, _, _, _, _, _, hload, _⟩ | ⟨hnone, _⟩
    · cases hload
    · rw [hnone]
      exact .of_code_eq rfl
  · exact performs_keep hexpr

/-- The invocations of operands come in the order of the operands. -/
theorem performs_of_lowersAll {parts : List (Expr × Option Source.Ty)} {operands : List Operand}
    (hinner : ∀ part ∈ parts, ∀ {expected instr draft draft'},
      lowerExpr part.1 expected (.ofScope table scope) draft = .ok instr draft' →
        Performs table scope part.1.innerSites draft draft')
    (h : LowersAll (.ofScope table scope) parts draft operands draft') :
    Performs table scope (parts.flatMap fun part => part.1.valueSites part.2) draft draft' := by
  induction h with
  | nil draft => exact .of_code_eq rfl
  | cons first others ih =>
    obtain ⟨hfirst, hothers⟩ := List.forall_mem_cons.mp hinner
    rw [List.flatMap_cons]
    exact (performs_lowerValue hfirst first).trans (ih hothers)

/-- What is written before the value of an expression is there performs its inner sites. -/
theorem performs_lowerExpr
    (h : lowerExpr expr expected (.ofScope table scope) draft = .ok instr draft') :
    Performs table scope expr.innerSites draft draft' := by
  induction expr using induction_on_parts (.ofScope table scope)
    generalizing expected instr draft draft' with
  | h expr ih =>
    rcases lowerExpr_eq_ok h with ⟨cls, rfl, _, rfl⟩ | ⟨operands, hall, hforms⟩
    · have hfresh : Performs table scope [] draft
          (draft.withFresh (.ofScope table scope) (.object cls)) := .of_code_eq rfl
      exact hfresh.after (.allocate _ rfl nofun)
    · rw [innerSites_eq (.ofScope table scope)]
      · exact performs_of_lowersAll (fun part hpart => ih part hpart) hall
      · rintro cls rfl
        cases hforms

theorem performs_value {operand : Operand}
    (h : lowerValue expr expected (.ofScope table scope) draft = .ok operand draft') :
    Performs table scope (expr.valueSites expected) draft draft' :=
  performs_lowerValue performs_lowerExpr h

theorem performs_lowerCondition {cond : Code.Condition}
    (h : lowerCondition expr (.ofScope table scope) draft = .ok cond draft') :
    Performs table scope (expr.valueSites (some .boolean)) draft draft' := by
  obtain ⟨operands, hall, htests⟩ := lowerCondition_eq_ok h
  have hparts := performs_of_lowersAll (fun _ _ => performs_lowerExpr) hall
  cases htests with
  | holds hholds operand => simpa [hholds] using hparts
  | lt | and | not =>
    simpa [conditionParts, Expr.valueSites, Expr.innerSites, Expr.callSite, Source.operandTy]
      using hparts

theorem role_of_place? {context : Context} {name : String} {ty : Source.Ty} {var : Variable}
    (h : context.place? name = some (ty, .slot var)) : var.role ≠ .receiver := by
  rcases slot_of_place? h with ⟨symbol, _, rfl⟩ | ⟨position, symbol, _, rfl⟩
  · nofun
  · nofun

/-- Storing the value of an expression at once performs its sites. -/
theorem performs_store (h : lowerExpr expr expected (.ofScope table scope) draft = .ok instr draft')
    (dest : Operand) (ty : Code.Ty) :
    Performs table scope (expr.storedSites expected) draft
      (draft'.write (.assign dest ty instr)) :=
  (performs_lowerExpr h).trans (performs_write h rfl rfl)

/-- The object of an assignment is kept in the variable at once, so in a place of its type. -/
theorem performs_lowerAssign {target : String} {value : Expr}
    (h : lowerAssign target value (.ofScope table scope) draft = .ok () draft') :
    Performs table scope (Source.sitesOfAssign table scope target value) draft draft' := by
  rcases lowerAssign_eq_ok h with
    ⟨ty, var, hplace, ⟨cls, rfl, rfl⟩ | ⟨instr, middle, hvalue, hexpr, rfl⟩⟩ |
    ⟨ty, field, operand, middle, hplace, hvalue, rfl⟩
  · obtain ⟨hname, hvar, hvariable⟩ := typed_place hplace
    simp only [Source.sitesOfAssign, hname, hvariable, if_true, Option.getD_some]
    exact .allocate draft hvar (role_of_place? hplace)
  · obtain ⟨hname, hvar, hvariable⟩ := typed_place hplace
    have hsites : Source.sitesOfAssign table scope target value = value.storedSites (some ty) := by
      simp only [Source.sitesOfAssign, hname, hvariable, if_true]
    rw [hsites]
    exact performs_store hexpr _ _
  · obtain ⟨hname, hfield, hvariable⟩ := typed_place hplace
    simp only [Source.sitesOfAssign, hname, hvariable, if_false, Bool.false_eq_true]
    exact (performs_value hvalue).before (.quiet middle rfl)

theorem performs_of_held {context : Context} {place : Place} {array : Variable}
    (h : Held context draft place array draft') : Performs table scope [] draft draft' := by
  cases h with
  | slot var => exact .of_code_eq rfl
  | field field =>
    have hfresh : Performs table scope [] draft (draft.withFresh context field.ty) :=
      .of_code_eq rfl
    exact hfresh.after (.quiet _ rfl)

theorem performs_lowerAssignElement {target : String} {position value : Expr}
    (h : lowerAssignElement target position value (.ofScope table scope) draft = .ok () draft') :
    Performs table scope ((Stmt.assignElement target position value).sites table scope)
      draft draft' := by
  obtain ⟨ty, place, elementTy, array, draft₁, operand, draft₂, instr, draft₃, hplace, helement,
    hheld, hposition, hvalue, rfl⟩ := lowerAssignElement_cases h
  obtain ⟨hname, _⟩ := typed_place hplace
  have hwanted : (table.nameTy? scope target).bind Source.Ty.element? = some elementTy := by
    rw [hname]
    exact helement
  rw [Stmt.sites, hwanted]
  exact (performs_of_held hheld).after
    ((performs_value hposition).trans (performs_store hvalue _ _))

theorem performs_lowerStmts_of {body : List Stmt}
    (hstmts : ∀ stmt ∈ body, ∀ {draft draft'},
      lowerStmt stmt (.ofScope table scope) draft = .ok () draft' →
        Performs table scope (stmt.sites table scope) draft draft')
    (h : lowerStmts body (.ofScope table scope) draft = .ok () draft') :
    Performs table scope (Source.sitesOfBody table scope body) draft draft' := by
  induction body generalizing draft with
  | nil =>
    obtain ⟨_, rfl⟩ := pure_eq_ok.mp h
    exact .of_code_eq rfl
  | cons first rest ih =>
    obtain ⟨hfirst, hrest⟩ := List.forall_mem_cons.mp hstmts
    obtain ⟨middle, hstmt, hothers⟩ := lowerStmts_cons h
    rw [Source.sitesOfBody]
    exact (hfirst hstmt).trans (ih hrest hothers)

/-- The invocations of a statement are those of its calls, in the order of the code. -/
theorem performs_lowerStmt {stmt : Stmt}
    (h : lowerStmt stmt (.ofScope table scope) draft = .ok () draft') :
    Performs table scope (stmt.sites table scope) draft draft' := by
  induction stmt using stmt_induction generalizing draft draft' with
  | block body ih => exact performs_lowerStmts_of (fun stmt hstmt => ih stmt hstmt) h
  | ifElse cond onTrue onFalse ihTrue ihFalse =>
    obtain ⟨test, draft₁, draft₂, draft₃, hcond, honFalse, honTrue, rfl⟩ := lowerStmt_ifElse h
    have htest := (Performs.of_code_eq rfl).after (performs_lowerCondition hcond)
    have hfalse := (Performs.quiet draft₁ rfl).after (ihFalse honFalse)
    have hthen : Performs table scope [] draft₂
        ((draft₂.write (.goto (draft.newLabel .endif))).mark (draft.newLabel .onTrue)) :=
      (Performs.quiet draft₂ rfl).before (.of_code_eq rfl)
    have htrue := (hthen.after (ihTrue honTrue)).before (.of_code_eq rfl)
    rw [Stmt.sites]
    exact htest.trans (hfalse.trans htrue)
  | «while» cond body ih =>
    obtain ⟨test, draft₁, draft₂, hcond, hbody, rfl⟩ := lowerStmt_while h
    have htest := (Performs.of_code_eq rfl).after (performs_lowerCondition hcond)
    have hjump : Performs table scope [] draft₁
        (((draft₁.write (.branch test (draft.newLabel .body))).write
          (.goto (draft.newLabel .endloop))).mark (draft.newLabel .body)) :=
      ((Performs.quiet draft₁ rfl).after (.quiet _ rfl)).before (.of_code_eq rfl)
    have hback : Performs table scope [] draft₂
        ((draft₂.write (.goto (draft.newLabel .test))).mark (draft.newLabel .endloop)) :=
      (Performs.quiet draft₂ rfl).before (.of_code_eq rfl)
    rw [Stmt.sites]
    exact htest.trans ((hjump.after (ih hbody)).before hback)
  | assign target value => exact performs_lowerAssign h
  | assignElement target position value => exact performs_lowerAssignElement h
  | expr value =>
    obtain ⟨instr, middle, hexpr, rfl⟩ := lowerStmt_expr h
    exact (performs_lowerExpr hexpr).trans (performs_write hexpr rfl rfl)

theorem performs_lowerBody {method : Source.Method}
    (h : lowerBody method (.ofScope table scope) draft = .ok () draft') :
    Performs table scope (method.sites table scope) draft draft' := by
  obtain ⟨middle, hbody, hret⟩ := lowerBody_eq_ok h
  refine (performs_lowerStmts_of (fun _ _ => performs_lowerStmt) hbody).trans ?_
  rcases hret with ⟨hvoid, rfl⟩ | ⟨result, operand, middle', hvoid, hresult, hvalue, rfl⟩
  · simp only [hvoid]
    exact .quiet middle rfl
  · simp only [hresult]
    exact (performs_value hvalue).before (.quiet middle' rfl)

/-- The constructor of a class has no sites. -/
theorem realizes_constructor (name : String) :
    Realizes table scope [] (constructor name).body :=
  .quiet [] rfl (.quiet [] rfl .nil)

/-- The code of a method realizes its sites, and nothing else in it invokes or allocates. -/
theorem realizes_lowerMethod {method : Source.Method} {code : Code.Method}
    (h : lowerMethod table method = .ok code) :
    ∃ scope, table.method? method.signature = some scope ∧
      Realizes table scope (method.sites table scope) code.body := by
  obtain ⟨scope, draft, hscope, hbody, _, hcode, _⟩ := lowerMethod_eq_ok h
  obtain ⟨lines, hlines, hrealizes⟩ := performs_lowerBody hbody
  refine ⟨scope, hscope, ?_⟩
  rw [hcode, hlines]
  exact hrealizes

end

end ClassCompiler.Lowering
