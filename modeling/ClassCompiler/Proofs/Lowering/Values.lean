import Mathlib.Data.List.Forall2
import Mathlib.Data.List.Nodup
import Mathlib.Data.List.Perm.Basic
import ClassCompiler.Proofs.Lowering.Labels
import ClassCompiler.Proofs.Source.Semantics

/-!
# Values of lowered expressions

When the values of its parts are in operands, the instruction that an expression has become has the
effect and the value of the expression. Operands keep their values while other code of the same
expression runs: an operand is a literal, a variable of the program, or a temporary, and only new
temporaries are assigned.
-/

namespace ClassCompiler.Lowering

open Code (Condition Config Executor Instr Key Labeled NamedStore Operand Variable put)
open Machine (Effect Stop Value)
open Source (Expr Scope SymbolTable)

theorem temporaryName_inj {m n : Nat} (h : temporaryName m = temporaryName n) : m = n := by
  have stem : Text.IsStem "t" := by decide
  exact (Text.numbered_inj stem stem h).2

def declaredNames (context : Context) : List String :=
  context.scope.locals.map (·.name) ++ context.scope.parameters.map (·.name) ++
    context.table.fields.map (·.name)

theorem mem_names_of_parameter? {scope : Scope} {name : String} {found : UInt16 × Source.Symbol}
    (h : scope.parameter? name = some found) : name ∈ scope.parameters.map (·.name) := by
  obtain ⟨index, hindex, _⟩ := Option.bind_eq_some_iff.mp h
  obtain ⟨hlt, hname, _⟩ := List.findIdx?_eq_some_iff_getElem.mp hindex
  exact List.mem_map.mpr ⟨_, List.getElem_mem hlt, by simpa using hname⟩

theorem mem_declaredNames {context : Context} {name : String} (h : context.isDeclared name) :
    name ∈ declaredNames context := by
  have hfind {symbols : List Source.Symbol} {symbol : Source.Symbol}
      (h : symbols.find? (·.name = name) = some symbol) : name ∈ symbols.map (·.name) := by
    have hname : symbol.name = name := by simpa using List.find?_some h
    exact List.mem_map.mpr ⟨symbol, List.mem_of_find?_eq_some h, hname⟩
  obtain ⟨symbol, hsymbol⟩ := Option.isSome_iff_exists.mp h
  unfold declaredNames
  rw [List.mem_append, List.mem_append]
  unfold SymbolTable.lookup? at hsymbol
  cases hlocal : context.scope.local? name with
  | some symbol => exact .inl (.inl (hfind hlocal))
  | none =>
    cases hparameter : context.scope.parameter? name with
    | some found => exact .inl (.inr (mem_names_of_parameter? hparameter))
    | none =>
      rw [hlocal, hparameter] at hsymbol
      exact .inr (hfind hsymbol)

theorem parameter?_of_findIdx? {scope : Scope} {name : String} {index : Nat}
    (h : scope.parameters.findIdx? (·.name = name) = some index)
    (hlt : index < scope.parameters.length) :
    scope.parameter? name = some (UInt16.ofNat index + 1, scope.parameters[index]) := by
  rw [Scope.parameter?, h]
  simp [hlt]

theorem exists_parameter? {scope : Scope} {name : String}
    (h : name ∈ scope.parameters.map (·.name)) : ∃ found, scope.parameter? name = some found := by
  obtain ⟨symbol, hsymbol, hname⟩ := List.mem_map.mp h
  have hfound : (scope.parameters.findIdx? (·.name = name)).isSome := by
    simpa using ⟨symbol, hsymbol, hname⟩
  obtain ⟨index, hindex⟩ := Option.isSome_iff_exists.mp hfound
  obtain ⟨hlt, _⟩ := List.findIdx?_eq_some_iff_getElem.mp hindex
  exact ⟨_, parameter?_of_findIdx? hindex hlt⟩

theorem isDeclared_of_mem {context : Context} {name : String} (h : name ∈ declaredNames context) :
    context.isDeclared name := by
  have hfind {symbols : List Source.Symbol} (h : name ∈ symbols.map (·.name)) :
      (symbols.find? (·.name = name)).isSome := by
    obtain ⟨symbol, hsymbol, hname⟩ := List.mem_map.mp h
    exact List.find?_isSome.mpr ⟨symbol, hsymbol, by simpa using hname⟩
  simp only [declaredNames, List.mem_append] at h
  simp only [Context.isDeclared, SymbolTable.lookup?, Option.orElse_eq_orElse,
    Option.orElse_eq_or, Option.isSome_or, Option.isSome_map, Bool.or_eq_true]
  rcases h with (hlocal | hparameter) | hfield
  · exact .inl (hfind hlocal)
  · obtain ⟨found, hfound⟩ := exists_parameter? hparameter
    exact .inr (.inl (by rw [hfound]; rfl))
  · exact .inr (.inr (hfind hfield))

/-- One of the numbers that are tried for a temporary is free, as there are more of them than
declarations. -/
theorem isDeclared_nextTemporary (context : Context) (last : Nat) :
    context.isDeclared (temporaryName (nextTemporary context last)) = false := by
  simp only [nextTemporary]
  cases hfind : (List.range' (last + 1) (context.declaredCount + 1)).find? fun number =>
      !context.isDeclared (temporaryName number) with
  | some number =>
    have hfree := List.find?_some hfind
    simpa using hfree
  | none =>
    have hsubset : (List.range' (last + 1) (context.declaredCount + 1)).map temporaryName ⊆
        declaredNames context := by
      intro name hname
      obtain ⟨number, hnumber, rfl⟩ := List.mem_map.mp hname
      have htaken := List.find?_eq_none.mp hfind number hnumber
      exact mem_declaredNames (by simpa using htaken)
    have hnodup : ((List.range' (last + 1) (context.declaredCount + 1)).map temporaryName).Nodup :=
      List.Nodup.map (fun _ _ => temporaryName_inj) (List.nodup_range' 1)
    have hlength := (List.subperm_of_subset hnodup hsubset).length_le
    simp [declaredNames, Context.declaredCount] at hlength
    omega

/-- The variables that a program has a name for. -/
def Visible (scope : Scope) : Key → Prop
  | .local name => (scope.local? name).isSome
  | .parameter _ | .receiver => True

/-- Two stores have the same values for the variables of the program. -/
def Agree (scope : Scope) (store store' : NamedStore) : Prop :=
  ∀ key, Visible scope key → store key = store' key

/-- The variables of the program, and the temporaries up to a number. -/
def Old (scope : Scope) (last : Nat) (key : Key) : Prop :=
  Visible scope key ∨ ∃ number ≤ last, key = .local (temporaryName number)

/-- A store that has been changed at new temporaries only. -/
def Kept (scope : Scope) (last : Nat) (store store' : NamedStore) : Prop :=
  ∀ key, Old scope last key → store key = store' key

section

variable {scope : Scope} {last last' : Nat} {key : Key} {store store' store'' : NamedStore}

theorem Old.mono (h : Old scope last key) (hle : last ≤ last') : Old scope last' key := by
  rcases h with hvisible | ⟨number, hnumber, hkey⟩
  · exact .inl hvisible
  · exact .inr ⟨number, Nat.le_trans hnumber hle, hkey⟩

theorem Kept.refl (scope : Scope) (last : Nat) (store : NamedStore) :
    Kept scope last store store :=
  fun _ _ => rfl

theorem Kept.trans (h : Kept scope last store store') (h' : Kept scope last' store' store'')
    (hle : last ≤ last') : Kept scope last store store'' := by
  intro key hkey
  rw [h key hkey, h' key (hkey.mono hle)]

theorem Kept.agree (h : Kept scope last store store') : Agree scope store store' :=
  fun key hkey => h key (.inl hkey)

theorem Agree.trans (h : Agree scope store store') (h' : Agree scope store' store'') :
    Agree scope store store'' :=
  fun key hkey => (h key hkey).trans (h' key hkey)

theorem Agree.put (h : Agree scope store store') (key : Key) (value : Value) :
    Agree scope (put store key value) (put store' key value) := by
  intro other hother
  by_cases heq : other = key
  · rw [heq, Code.put_self, Code.put_self]
  · rw [Code.put_of_ne _ _ heq, Code.put_of_ne _ _ heq, h other hother]

end

/-- A new temporary is neither a variable of the program nor an earlier temporary. -/
theorem not_old_fresh (context : Context) (last : Nat) :
    ¬ Old context.scope last (.local (temporaryName (nextTemporary context last))) := by
  rintro (hvisible | ⟨number, hnumber, heq⟩)
  · obtain ⟨symbol, hsymbol⟩ := Option.isSome_iff_exists.mp hvisible
    have hdeclared := isDeclared_nextTemporary context last
    rw [Context.isDeclared, SymbolTable.lookup?, hsymbol] at hdeclared
    cases hdeclared
  · have hsame := temporaryName_inj (Key.local.inj heq)
    have hlt := lt_nextTemporary context last
    omega

theorem kept_put_fresh (context : Context) (last : Nat) (store : NamedStore) (value : Value) :
    Kept context.scope last store
      (put store (.local (temporaryName (nextTemporary context last))) value) := by
  intro key hkey
  rw [Code.put_of_ne]
  rintro rfl
  exact not_old_fresh context last hkey

theorem key?_fresh (draft : Draft) (context : Context) (ty : Code.Ty) :
    (draft.fresh context ty).key? =
      some (.local (temporaryName (nextTemporary context draft.lastTemporary))) := rfl

section

variable {table : SymbolTable} {scope : Scope} {name : String}

/-- A variable of the program that has a slot is a local or a parameter. -/
theorem slot_of_place? {context : Context} {ty : Source.Ty} {var : Variable}
    (h : context.place? name = some (ty, .slot var)) :
    (∃ symbol, context.scope.local? name = some symbol ∧
      var = .declared name (.ofSource symbol.ty)) ∨
    ∃ position symbol, context.scope.parameter? name = some (position, symbol) ∧
      var = .parameter name (.ofSource symbol.ty) position := by
  unfold Context.place? at h
  split at h
  · next symbol hlocal =>
    cases h
    exact .inl ⟨symbol, hlocal, rfl⟩
  · split at h
    · next position symbol hparameter =>
      cases h
      exact .inr ⟨position, symbol, hparameter, rfl⟩
    · cases hfield : context.table.field? name with
      | none => simp [hfield] at h
      | some symbol => simp [hfield] at h

/-- A name that is kept in a slot is a variable of the program. -/
theorem visible_of_slot {context : Context} {var : Variable} {key : Key}
    (h : context.binding? name = some (.place (.slot var))) (hkey : var.key? = some key) :
    Visible context.scope key := by
  obtain ⟨ty, hplace⟩ : ∃ ty, context.place? name = some (ty, .slot var) := by
    unfold Context.binding? at h
    split at h
    · next ty place hplace =>
      cases h
      exact ⟨ty, hplace⟩
    · split at h <;> cases h
  rcases slot_of_place? hplace with ⟨symbol, hlocal, rfl⟩ | ⟨position, symbol, _, rfl⟩
  · cases hkey
    exact Option.isSome_of_eq_some hlocal
  · cases hkey
    trivial

theorem toNat_position {index count : Nat} (hindex : index < count) (fits : count < UInt16.size) :
    (UInt16.ofNat index + 1).toNat = index + 1 := by
  rw [← UInt16.ofNat_one, ← UInt16.ofNat_add]
  exact UInt16.toNat_ofNat_of_lt' (by omega)

/-- A name is bound to what it stands for, if 16 bits can count the parameters. -/
def Means (scope : Scope) : Binding → Source.Meaning → Prop
  | .place (.slot var), .slot key =>
    (scope.parameters.length < UInt16.size → var.key? = some key) ∧ Visible scope key
  | .place (.field field), .field name => field.name = name
  | .className cls, .className name => cls = .className name
  | _, _ => False

/-- Lowering and the semantics resolve names alike: local, parameter, field, class. -/
theorem means_binding? (table : SymbolTable) (scope : Scope) (name : String) :
    Option.Rel (Means scope) ((Context.ofScope table scope).binding? name)
      (Source.meaning? table scope name) := by
  simp only [Context.binding?, Context.place?, Context.ofScope, Source.meaning?]
  cases hlocal : scope.local? name with
  | some symbol => exact .some ⟨fun _ => rfl, by simp [Visible, hlocal]⟩
  | none =>
    cases hindex : scope.parameters.findIdx? (·.name = name) with
    | some index =>
      have hlt := (List.findIdx?_eq_some_iff_getElem.mp hindex).1
      have hparameter := parameter?_of_findIdx? hindex hlt
      simp only [hparameter]
      refine .some ⟨fun fits => ?_, trivial⟩
      exact congrArg (fun position => some (Key.parameter position)) (toNat_position hlt fits)
    | none =>
      have hparameter : scope.parameter? name = none := by
        rw [Scope.parameter?, hindex]
        rfl
      simp only [hparameter]
      cases hfield : table.field? name with
      | some symbol => exact .some rfl
      | none =>
        by_cases hclass : table.isClass name
        · simp only [hclass]
          exact .some rfl
        · simp only [hclass]
          exact .none

theorem meaning?_of_binding? {found : Binding}
    (h : (Context.ofScope table scope).binding? name = some found) :
    ∃ meaning, Source.meaning? table scope name = some meaning ∧ Means scope found meaning := by
  have hrel := means_binding? table scope name
  rw [h] at hrel
  cases hmeaning : Source.meaning? table scope name with
  | none => rw [hmeaning] at hrel; cases hrel
  | some meaning =>
    rw [hmeaning] at hrel
    cases hrel with
    | some hmeans => exact ⟨meaning, rfl, hmeans⟩

theorem meaning?_of_slot (fits : scope.parameters.length < UInt16.size) {var : Variable}
    (h : (Context.ofScope table scope).binding? name = some (.place (.slot var))) :
    ∃ key, Source.meaning? table scope name = some (.slot key) ∧ var.key? = some key ∧
      Visible scope key := by
  obtain ⟨meaning, hmeaning, hmeans⟩ := meaning?_of_binding? h
  cases meaning with
  | slot key => exact ⟨key, hmeaning, hmeans.1 fits, hmeans.2⟩
  | field | className => cases hmeans

theorem meaning?_of_field {field : Variable}
    (h : (Context.ofScope table scope).binding? name = some (.place (.field field))) :
    Source.meaning? table scope name = some (.field field.name) := by
  obtain ⟨meaning, hmeaning, hmeans⟩ := meaning?_of_binding? h
  cases meaning with
  | field name => rw [hmeaning, show field.name = name from hmeans]
  | slot | className => cases hmeans

theorem binding?_of_place? {context : Context} {ty : Source.Ty} {place : Place}
    (h : context.place? name = some (ty, place)) : context.binding? name = some (.place place) := by
  rw [Context.binding?, h]

theorem className?_eq (receiver : Expr) :
    Source.className? table scope receiver =
      (namedClass? (.ofScope table scope) receiver).map (·.name) := by
  cases receiver with
  | name name =>
    have hrel := means_binding? table scope name
    simp only [Source.className?, namedClass?]
    revert hrel
    generalize (Context.ofScope table scope).binding? name = found
    generalize Source.meaning? table scope name = meaning
    intro hrel
    cases hrel with
    | none => rfl
    | @some found meaning hmeans =>
      rcases found with (place | place) | cls <;> cases meaning <;> first | rfl | cases hmeans
      rfl
  | _ => rfl

end

/-- Execution of code with variables kept by name, where requests are asked as programs ask them. -/
def namedMachine {S : Type} (perform : Source.Request → Effect S Value) :
    Executor NamedStore S :=
  Code.named (fun _ _ => true) fun request => perform (.ofCode request)

section

variable {S : Type} (perform : Source.Request → Effect S Value) (table : SymbolTable)
  (scope : Scope)

def finish (store : NamedStore) : Expr → List Value → Effect S Value
  | .int value, _ => return .int value
  | .bool value, _ => return .ofBool value
  | .this, _ => return store .receiver
  | .name name, _ => Source.evalName perform table scope store name
  | .binary op _ _, [left, right] => Effect.lift (Value.binary op left right)
  | .not _, [value] => Effect.lift value.not
  | .call receiver method _ _, values =>
    match Source.className? table scope receiver with
    | some cls => perform (.invoke (.static cls method) values)
    | none => perform (.invoke (.virtual method) values)
  | .length _, [array] => perform (.length array)
  | .newIntArray _, [size] => perform (.newArray size)
  | .index _ _, [array, position] => perform (.getElement array position)
  | _, _ => throw .trap

def finishTest : Expr → List Value → Effect S Bool
  | .binary op _ _, [left, right] => do
    let value ← Effect.lift (Value.binary op left right)
    Effect.require value.truth?
  | .not _, [value] => do
    let value ← Effect.lift value.not
    Effect.require value.truth?
  | _, [value] => Effect.require value.truth?
  | _, _ => throw .trap

variable {perform} {table} {scope}

theorem finish_call (store : NamedStore) (receiver : Expr) (method : String) (args : List Expr)
    (ty : Option Source.Ty) (values : List Value) :
    finish perform table scope store (.call receiver method args ty) values =
      match (namedClass? (.ofScope table scope) receiver).map (·.name) with
      | some cls => perform (.invoke (.static cls method) values)
      | none => perform (.invoke (.virtual method) values) := by
  rw [← className?_eq, finish]

/-- An expression is its parts, evaluated from left to right, and then one operation. -/
theorem eval_eq_finish (store : NamedStore) {expr : Expr}
    (h : ∀ cls, expr ≠ .newObject cls) :
    Source.eval perform table scope store expr =
      Source.evalAll perform table scope store
        ((parts (.ofScope table scope) expr).map (·.1)) >>=
        finish perform table scope store expr := by
  cases expr with
  | newObject cls => exact absurd rfl (h cls)
  | call receiver method args ty =>
    have hargs : (args.map fun arg => (arg, (none : Option Source.Ty))).map (·.1) = args := by
      simp [List.map_map, Function.comp_def]
    simp only [Source.eval, parts, className?_eq,
      funext (finish_call store receiver method args ty)]
    cases namedClass? (.ofScope table scope) receiver with
    | some cls => simp only [Option.map_some, hargs]
    | none => simp [Source.evalAll, hargs]
  | _ => simp [Source.eval, Source.evalAll, parts, finish]

theorem test_eq_finishTest (store : NamedStore) (cond : Expr) :
    Source.test perform table scope store cond =
      Source.evalAll perform table scope store ((conditionParts cond).map (·.1)) >>=
        finishTest cond := by
  unfold conditionParts
  split <;> simp [Source.test, Source.eval, Source.evalAll, finishTest]

variable (perform) in
theorem fetch_of_key? (store : NamedStore) {var : Variable} {key : Key}
    (h : var.key? = some key) : (namedMachine perform).fetch store var = pure (store key) := by
  funext s
  rw [Executor.fetch_apply]
  simp [namedMachine, Code.named, h, Effect.pure_apply]

variable (perform) in
theorem fetch_of_no_key (store : NamedStore) {var : Variable} (h : var.key? = none) :
    (namedMachine perform).fetch store var = throw .trap := by
  funext s
  rw [Executor.fetch_apply]
  simp [namedMachine, Code.named, h, Effect.throw_apply]

/-- The instruction of an expression has the value of the expression, once its parts are there. -/
theorem value_of_forms (fits : scope.parameters.length < UInt16.size) {store store' : NamedStore}
    (agree : Agree scope store store') {expr : Expr} {operands : List Operand} {instr : Instr}
    (h : Forms (.ofScope table scope) expr operands instr) :
    (namedMachine perform).value store' instr =
      (namedMachine perform).operands store' operands >>=
        finish perform table scope store expr := by
  have hreceiver : (namedMachine perform).fetch store' (Context.ofScope table scope).receiver =
      pure (store .receiver) := by
    rw [agree .receiver trivial]
    exact fetch_of_key? perform store' rfl
  cases h with
  | int value => rfl
  | bool value => rfl
  | this =>
    simp only [Executor.value, Executor.operand, hreceiver]
    rfl
  | slot h =>
    obtain ⟨key, hmeaning, hkey, hvisible⟩ := meaning?_of_slot fits h
    simp only [Executor.value, Executor.operand, fetch_of_key? perform store' hkey,
      ← agree key hvisible]
    simp [Executor.operands, finish, Source.evalName, hmeaning]
  | field h =>
    simp [Executor.value, Executor.operand, hreceiver, Executor.operands, finish, Source.evalName,
      meaning?_of_field h]
    rfl
  | className h =>
    obtain ⟨meaning, hmeaning, hmeans⟩ := meaning?_of_binding? h
    cases meaning with
    | className name =>
      obtain rfl : _ = Variable.className name := hmeans
      have hfetch : (namedMachine perform).fetch store' (.className name) = throw .trap :=
        fetch_of_no_key perform store' rfl
      simp [Executor.value, Executor.operand, hfetch, Executor.operands, finish, Source.evalName,
        hmeaning]
    | slot | field => cases hmeans
  | binary op left right leftOperand rightOperand =>
    simp [Executor.value, Executor.operands, finish]
  | not expr operand => simp [Executor.value, Executor.operands, finish]
  | static h method args ty operands returnTy =>
    simp only [Executor.value, Executor.call, funext (finish_call store _ method args ty), h]
    rfl
  | virtual h method args ty target operands returnTy =>
    simp only [Executor.value, Executor.call, funext (finish_call store _ method args ty), h]
    rfl
  | length expr array =>
    simp [Executor.value, Executor.call, Executor.operands, finish]
    rfl
  | newIntArray expr size =>
    simp [Executor.value, Executor.call, Executor.operands, finish]
    rfl
  | index expr position array operand ty =>
    simp [Executor.value, Executor.operand, Executor.operands, finish]
    rfl

/-- A branch tests its operands as the source tests the values of the parts. -/
theorem condition_of_tests {store : NamedStore} {expr : Expr} {operands : List Operand}
    {cond : Condition} (h : Tests expr operands cond) :
    (namedMachine perform).condition store cond =
      (namedMachine perform).operands store operands >>= finishTest expr := by
  cases h with
  | lt left right leftOperand rightOperand =>
    simp [Executor.condition, Executor.operands, finishTest]
  | and left right leftOperand rightOperand =>
    simp [Executor.condition, Executor.operands, finishTest]
  | not expr operand => simp [Executor.condition, Executor.operands, finishTest]
  | holds hparts operand =>
    have hfinish (value : Value) :
        (finishTest expr [value] : Effect S Bool) = Effect.require value.truth? := by
      cases expr with
      | not inner =>
        have hsame : inner = .not inner := by simpa [conditionParts] using hparts
        have hsize := congrArg sizeOf hsame
        rw [Expr.not.sizeOf_spec] at hsize
        omega
      | _ => rfl
    simp [Executor.condition, Executor.operands, hfinish]

/-- A call takes no notice of the type of its value. -/
theorem value_returning (store : NamedStore) (ty : Code.Ty) (instr : Instr) :
    (namedMachine perform).value store (returning ty instr) =
      (namedMachine perform).value store instr := by
  unfold returning
  split
  · next kind target method args =>
    simp only [Executor.value]
    cases kind <;> cases method <;> rfl
  · rfl

/-- An operand whose value is there already, in a variable that is not changed any more. -/
inductive Holds (scope : Scope) (last : Nat) (store : NamedStore) : Operand → Value → Prop where
  | literal (value : Int32) (ty : Code.Ty) : Holds scope last store (.literal value ty) (.int value)
  | var {var : Variable} {key : Key} (hkey : var.key? = some key) (hold : Old scope last key) :
      Holds scope last store (.var var) (store key)

def Valueless (operand : Operand) : Prop := ∃ var, operand = .var var ∧ var.key? = none

theorem Holds.mono {last last' : Nat} {store store' : NamedStore} {operand : Operand}
    {value : Value} (h : Holds scope last store operand value)
    (kept : Kept scope last store store') (hle : last ≤ last') :
    Holds scope last' store' operand value := by
  cases h with
  | literal value ty => exact .literal value ty
  | var hkey hold =>
    rw [kept _ hold]
    exact .var hkey (hold.mono hle)

theorem operand_of_holds {last : Nat} {store : NamedStore} {operand : Operand} {value : Value}
    (h : Holds scope last store operand value) :
    (namedMachine perform).operand store operand = pure value := by
  cases h with
  | literal value ty => rfl
  | var hkey hold =>
    rw [Executor.operand]
    exact fetch_of_key? perform store hkey

theorem operands_of_holds {last : Nat} {store : NamedStore} {operands : List Operand}
    {values : List Value} (h : List.Forall₂ (Holds scope last store) operands values) :
    (namedMachine perform).operands store operands = pure values := by
  induction h with
  | nil => rfl
  | cons first rest ih => simp [Executor.operands, operand_of_holds first, ih]

variable (perform) in
theorem operands_of_valueless (store : NamedStore) {operands : List Operand} {operand : Operand}
    (hmem : operand ∈ operands) (h : Valueless operand) (s : S) :
    ∃ stop s', (namedMachine perform).operands store operands s = .error stop s' := by
  induction operands generalizing s with
  | nil => cases hmem
  | cons first rest ih =>
    cases hfirst : (namedMachine perform).operand store first s with
    | error stop s' => exact ⟨stop, s', Effect.bind_error hfirst _⟩
    | ok value s' =>
      rcases List.mem_cons.mp hmem with rfl | hmem
      · obtain ⟨var, rfl, hkey⟩ := h
        rw [Executor.operand, fetch_of_no_key perform store hkey] at hfirst
        cases hfirst
      · obtain ⟨stop, s'', hrest⟩ := ih hmem s'
        refine ⟨stop, s'', ?_⟩
        rw [Executor.operands, Effect.bind_ok hfirst, Effect.bind_error hrest]

end

end ClassCompiler.Lowering
