import ClassCompiler.Proofs.Lowering.Instructions
import ClassCompiler.Proofs.Source.Objects

/-!
# Types of lowered expressions

An instruction that yields the value of an expression has the type of that expression, and so has
the operand that the value is kept in. Only a value that nothing gives a type changes: it is taken
for an integer, unless it is that of a variable.
-/

namespace ClassCompiler.Source

/-- The type in which the value of an expression of some type is handed on. -/
def Expr.valueTy (scope : Scope) (expr : Expr) (ty : Ty) : Code.Ty :=
  if ty = .void ∧ expr.isVariable scope = false then .int else .ofSource ty

def SymbolTable.argTy? (table : SymbolTable) (scope : Scope) (arg : Expr) : Option Code.Ty :=
  (table.typeOf? scope arg none).map (arg.valueTy scope)

end ClassCompiler.Source

namespace ClassCompiler.Code.Ty

theorem element?_ofSource (ty : Source.Ty) : (ofSource ty).element? = ty.element?.map ofSource := by
  cases ty <;> rfl

end ClassCompiler.Code.Ty

namespace ClassCompiler.Lowering

open Code (Instr Operand Variable)
open Source (Expr Scope SymbolTable)

variable {table : SymbolTable} {scope : Scope} {context : Context} {draft draft' : Draft}
  {expr : Expr} {expected : Option Source.Ty} {instr : Instr} {operand : Operand}

/-- A declared name has the type of its declaration, and the variable it stands for has that type in
code. -/
theorem typed_place {name : String} {ty : Source.Ty} {place : Place}
    (h : (Context.ofScope table scope).place? name = some (ty, place)) :
    table.nameTy? scope name = some ty ∧
      match place with
      | .slot var => var.ty = .ofSource ty ∧ (Expr.name name).isVariable scope = true
      | .field field => field.ty = .ofSource ty ∧ (Expr.name name).isVariable scope = false := by
  simp only [Context.place?, Context.ofScope] at h
  simp only [SymbolTable.nameTy?, SymbolTable.lookup?, Expr.isVariable]
  cases hlocal : scope.local? name with
  | some symbol =>
    simp only [hlocal] at h
    cases h
    exact ⟨by simp, rfl, by simp⟩
  | none =>
    cases hparameter : scope.parameter? name with
    | some found =>
      simp only [hlocal, hparameter] at h
      cases h
      exact ⟨by simp, rfl, by simp⟩
    | none =>
      cases hfield : table.field? name with
      | some symbol =>
        simp only [hlocal, hparameter, hfield, Option.map_some] at h
        cases h
        exact ⟨by simp, rfl, by simp⟩
      | none => simp [hlocal, hparameter, hfield] at h

theorem typed_className {name : String} {cls : Variable}
    (h : (Context.ofScope table scope).binding? name = some (.className cls)) :
    table.nameTy? scope name = some (.named name) ∧ cls.ty = .object name := by
  obtain rfl := eq_className_of_binding? h
  refine ⟨?_, rfl⟩
  unfold Context.binding? at h
  split at h
  · cases h
  · next hplace =>
    split at h
    · next hclass =>
      have hlookup : table.lookup? scope name = none := by
        simp only [Context.place?, Context.ofScope] at hplace
        cases hlocal : scope.local? name with
        | some symbol => simp [hlocal] at hplace
        | none =>
          cases hparameter : scope.parameter? name with
          | some found => simp [hlocal, hparameter] at hplace
          | none => simpa [hlocal, hparameter, SymbolTable.lookup?] using hplace
      simp only [SymbolTable.nameTy?, hlookup]
      exact if_pos hclass
    · cases h

/-- The type of a call is the one that the table gives it. -/
theorem typed_call {receiver : Expr} {method : String} {args : List Expr} {ty : Option Source.Ty}
    (h : lowerExpr (.call receiver method args ty) expected context draft = .ok instr draft') :
    ∃ returnTy, context.typeOf? (.call receiver method args ty) expected = some returnTy ∧
      instr.ty = .ofSource returnTy := by
  obtain ⟨returnTy, _, htypeOf, hrest⟩ := bind_eq_ok.mp h
  obtain ⟨htype, _⟩ := typeOf_eq_ok htypeOf
  refine ⟨returnTy, htype, ?_⟩
  obtain ⟨_, _, hread, h⟩ := bind_eq_ok.mp hrest
  cases hread
  cases hclass : namedClass? context receiver with
  | some cls =>
    simp only [hclass] at h
    obtain ⟨operands, _, _, h⟩ := bind_eq_ok.mp h
    obtain ⟨rfl, _⟩ := pure_eq_ok.mp h
    rfl
  | none =>
    simp only [hclass] at h
    obtain ⟨_, _, _, h⟩ := bind_eq_ok.mp h
    obtain ⟨_, _, _, h⟩ := bind_eq_ok.mp h
    obtain ⟨operands, _, _, h⟩ := bind_eq_ok.mp h
    obtain ⟨rfl, _⟩ := pure_eq_ok.mp h
    rfl

/-- An element has the type of the elements of its array. -/
theorem typed_index {array position : Expr}
    (h : lowerExpr (.index array position) expected context draft = .ok instr draft') :
    ∃ operand middle, lowerValue array none context draft = .ok operand middle ∧
      operand.ty.element? = some instr.ty := by
  obtain ⟨inner, draft₁, hinner, h⟩ := bind_eq_ok.mp h
  obtain ⟨operand, draft₂, hoperand, h⟩ := bind_eq_ok.mp h
  obtain ⟨var, _, hvar, hrest⟩ := bind_eq_ok.mp h
  obtain ⟨rfl, rfl⟩ := arrayVariable_eq_ok hvar
  obtain ⟨ty, _, hty, hrest'⟩ := bind_eq_ok.mp hrest
  obtain ⟨helement, rfl⟩ := elementTy_eq_ok hty
  obtain ⟨_, _, _, h⟩ := bind_eq_ok.mp hrest'
  obtain ⟨_, _, _, h⟩ := bind_eq_ok.mp h
  obtain ⟨rfl, _⟩ := pure_eq_ok.mp h
  exact ⟨_, _, bind_eq_ok.mpr ⟨inner, draft₁, hinner, hoperand⟩, helement⟩

theorem element?_keptTy {ty element : Code.Ty} (h : (keptTy ty).element? = some element) :
    ty.element? = some element := by
  cases ty with
  | void => cases h
  | int | bool | array | object | string => exact h

/-- The instruction that an expression is lowered to has the type of the expression. -/
theorem typed_lowerExpr
    (h : lowerExpr expr expected (.ofScope table scope) draft = .ok instr draft') :
    ∃ ty, table.typeOf? scope expr expected = some ty ∧ instr.ty = .ofSource ty := by
  induction expr using induction_on_parts (.ofScope table scope)
    generalizing expected instr draft draft' with
  | h expr ih =>
    rcases lowerExpr_eq_ok h with ⟨cls, rfl, rfl, _⟩ | ⟨operands, _, hforms⟩
    · exact ⟨.named cls, rfl, rfl⟩
    · cases hforms with
      | int value => exact ⟨.int, rfl, rfl⟩
      | bool value => exact ⟨.boolean, rfl, rfl⟩
      | this => exact ⟨.named table.className, rfl, rfl⟩
      | slot hbinding =>
        obtain ⟨ty, hplace⟩ := exists_place?_of_binding? hbinding
        obtain ⟨hname, hvar, _⟩ := typed_place hplace
        exact ⟨ty, hname, hvar⟩
      | field hbinding =>
        obtain ⟨ty, hplace⟩ := exists_place?_of_binding? hbinding
        obtain ⟨hname, hfield, _⟩ := typed_place hplace
        exact ⟨ty, hname, hfield⟩
      | className hbinding =>
        obtain ⟨hname, hcls⟩ := typed_className hbinding
        exact ⟨.named _, hname, hcls⟩
      | binary op left right leftOperand rightOperand =>
        refine ⟨Source.resultTy op, rfl, ?_⟩
        cases op <;> rfl
      | not inner operand => exact ⟨.boolean, rfl, rfl⟩
      | static hclass method args ty operands returnTy => exact typed_call h
      | virtual hclass method args ty target operands returnTy => exact typed_call h
      | length inner array => exact ⟨.int, rfl, rfl⟩
      | newIntArray inner size => exact ⟨.array .int, rfl, rfl⟩
      | index inner position array operand ty =>
        obtain ⟨arrayOperand, middle, hvalue, helement⟩ := typed_index h
        obtain ⟨arrayInstr, middle', hinner, hsimple⟩ := bind_eq_ok.mp hvalue
        obtain ⟨arrayTy, htype, harray⟩ := ih (inner, none) List.mem_cons_self hinner
        have hcode : arrayInstr.ty.element? = some ty := by
          rcases simple_cases hsimple with ⟨rfl, _, _⟩ | ⟨_, rfl, _⟩
          · exact helement
          · exact element?_keptTy helement
        rw [harray, Code.Ty.element?_ofSource] at hcode
        obtain ⟨elementTy, hty, hcode⟩ := Option.map_eq_some_iff.mp hcode
        refine ⟨elementTy, ?_, hcode.symm⟩
        rw [SymbolTable.typeOf?, htype]
        exact hty

/-- A variable is loaded as it is. -/
theorem exists_load_of_isVariable (hvariable : expr.isVariable scope = true)
    (h : lowerExpr expr expected (.ofScope table scope) draft = .ok instr draft') :
    ∃ var, instr = .load (.var var) := by
  rcases lowerExpr_eq_ok h with ⟨cls, rfl, _, _⟩ | ⟨operands, _, hforms⟩
  · cases hvariable
  · cases hforms with
    | slot hbinding => exact ⟨_, rfl⟩
    | className hbinding => exact ⟨_, rfl⟩
    | field hbinding =>
      obtain ⟨ty, hplace⟩ := exists_place?_of_binding? hbinding
      obtain ⟨_, _, hfield⟩ := typed_place hplace
      rw [hfield] at hvariable
      cases hvariable
    | _ => cases hvariable

/-- Only a variable is loaded as it is and yet void. -/
theorem isVariable_of_load (hsimple : operand.isSimple) (hvoid : operand.ty = .void)
    (h : lowerExpr expr expected (.ofScope table scope) draft = .ok (.load operand) draft') :
    expr.isVariable scope = true := by
  rcases lowerExpr_eq_ok h with ⟨cls, rfl, hload, _⟩ | ⟨operands, _, hforms⟩
  · cases hload
    cases hvoid
  · cases hforms with
    | slot hbinding =>
      obtain ⟨ty, hplace⟩ := exists_place?_of_binding? hbinding
      exact (typed_place hplace).2.2
    | className hbinding =>
      rw [eq_className_of_binding? hbinding] at hvoid
      cases hvoid
    | index => cases hsimple
    | int | bool | this => cases hvoid

/-- The operand for the value of an expression has the type in which the value is handed on. -/
theorem typed_lowerValue
    (h : lowerValue expr expected (.ofScope table scope) draft = .ok operand draft') :
    (table.typeOf? scope expr expected).map (expr.valueTy scope) = some operand.ty := by
  obtain ⟨instr, middle, hexpr, hsimple⟩ := bind_eq_ok.mp h
  obtain ⟨ty, htype, hty⟩ := typed_lowerExpr hexpr
  rw [htype, Option.map_some, Expr.valueTy]
  congr 1
  rcases simple_cases hsimple with ⟨rfl, hload, _⟩ | ⟨hload, rfl, _⟩
  · rw [if_neg, ← hty]
    · rfl
    · rintro ⟨rfl, hvariable⟩
      rw [isVariable_of_load hload hty hexpr] at hvariable
      cases hvariable
  · change _ = keptTy instr.ty
    rw [hty]
    by_cases hvoid : ty = .void
    · have hvariable : expr.isVariable scope = false := by
        by_contra htrue
        obtain ⟨var, rfl⟩ := exists_load_of_isVariable (by simpa using htrue) hexpr
        cases hload _ rfl
      rw [if_pos ⟨hvoid, hvariable⟩, hvoid]
      rfl
    · rw [if_neg fun hboth => hvoid hboth.1]
      cases ty with
      | void => exact absurd rfl hvoid
      | int | boolean | string | named | array => rfl

/-- The operands for arguments have the types in which their values are handed on. -/
theorem typed_lowersAll {args : List Expr} {operands : List Operand}
    (h : LowersAll (.ofScope table scope) (args.map (·, none)) draft operands draft') :
    args.mapM (table.argTy? scope) = some (operands.map (·.ty)) := by
  induction args generalizing draft operands with
  | nil =>
    cases h
    rfl
  | cons first rest ih =>
    cases h with
    | cons hfirst hothers =>
      have hty : table.argTy? scope first = _ := typed_lowerValue hfirst
      rw [List.mapM_cons, hty, ih hothers]
      rfl

/-- Lowering gives every expression the type that the symbol table gives it. The operand for its
value has that type too, but for a void one that is not a variable: it is kept as an integer. -/
theorem types_agree (table : SymbolTable) (scope : Scope) (expr : Expr)
    (expected : Option Source.Ty) (draft : Draft) :
    (∀ instr draft', lowerExpr expr expected (.ofScope table scope) draft = .ok instr draft' →
      ∃ ty, table.typeOf? scope expr expected = some ty ∧ instr.ty = .ofSource ty) ∧
    ∀ operand draft', lowerValue expr expected (.ofScope table scope) draft = .ok operand draft' →
      ∃ ty, table.typeOf? scope expr expected = some ty ∧
        (ty ≠ .void → operand.ty = .ofSource ty) ∧
        (ty = .void → operand.ty = if expr.isVariable scope then .void else .int) := by
  refine ⟨fun instr draft' h => typed_lowerExpr h, fun operand draft' h => ?_⟩
  obtain ⟨ty, htype, hty⟩ := Option.map_eq_some_iff.mp (typed_lowerValue h)
  refine ⟨ty, htype, ?_, ?_⟩
  · intro hvoid
    rw [← hty, Expr.valueTy, if_neg fun hboth => hvoid hboth.1]
  · rintro rfl
    rw [← hty, Expr.valueTy]
    cases expr.isVariable scope <;> rfl

def rankingTable : SymbolTable := ⟨"Ranker", none, ["io"], [⟨"rows", .array .int⟩], ∅⟩

def rankingScope : Scope := ⟨"rank", .int, [⟨"n", .int⟩], []⟩

def ranking : Expr :=
  .index (.name "rows") (.call (.name "io") "pick" [.length (.name "rows")] none)

/-- The element is an integer. A foreign call that nothing gives a type is void, and its value is
kept as an integer. -/
theorem types_ranking :
    (∃ instr draft, lowerExpr ranking none (.ofScope rankingTable rankingScope) .initial =
        .ok instr draft ∧
      rankingTable.typeOf? rankingScope ranking none = some .int ∧ instr.ty = .int) ∧
    ∃ operand draft, lowerValue (.call (.name "io") "pick" [] none) none
        (.ofScope rankingTable rankingScope) .initial = .ok operand draft ∧
      rankingTable.typeOf? rankingScope (.call (.name "io") "pick" [] none) none = some .void ∧
      operand.ty = .int := by
  have helement : rankingTable.typeOf? rankingScope ranking none = some .int := by decide +kernel
  have hcall : rankingTable.typeOf? rankingScope (.call (.name "io") "pick" [] none) none =
      some .void := by
    decide +kernel
  constructor
  · obtain ⟨instr, draft, hlowered⟩ : ∃ instr draft,
        lowerExpr ranking none (.ofScope rankingTable rankingScope) .initial = .ok instr draft :=
      ⟨_, _, rfl⟩
    obtain ⟨ty, htype, hty⟩ := (types_agree _ _ _ _ _).1 instr draft hlowered
    obtain rfl := Option.some.inj (helement.symm.trans htype)
    exact ⟨instr, draft, hlowered, helement, hty⟩
  · obtain ⟨operand, draft, hlowered⟩ : ∃ operand draft, lowerValue
        (.call (.name "io") "pick" [] none) none (.ofScope rankingTable rankingScope) .initial =
          .ok operand draft :=
      ⟨_, _, rfl⟩
    obtain ⟨ty, htype, _, hty⟩ := (types_agree _ _ _ _ _).2 operand draft hlowered
    obtain rfl := Option.some.inj (hcall.symm.trans htype)
    exact ⟨operand, draft, hlowered, hcall, hty rfl⟩

end ClassCompiler.Lowering
