import ClassCompiler.Proofs.Lowering.Expressions
import ClassCompiler.Proofs.Lowering.Typing

/-!
# Lowered statements do what they say

The code of a statement leads from stores that agree on the variables of the program to stores that
agree again. Where the statement does not end within a number of rounds, or has no meaning, the code
does not return within that number of steps.
-/

namespace ClassCompiler.Lowering

open Code (Condition Config Control Executor Instr Key Labeled NamedStore Operand Variable put)
open Machine (Effect Listing Stop Value)
open Source (Expr Scope Stmt SymbolTable)

variable {S α : Type} {perform : Source.Request → Effect S Value} {table : SymbolTable}
  {scope : Scope} {code : List Labeled} {draft draft' draft'' : Draft}
  {source store store' : NamedStore} {s s' : S}

/-- Execution from a place has not returned after a number of steps. -/
def Pending (perform : Source.Request → Effect S Value) (code : List Labeled) (steps : Nat)
    (config : Config NamedStore S) : Prop :=
  ∃ config', Reaches perform code steps config config' ∧
    ∀ value store s, config' ≠ .returned value store s

namespace Pending

variable {steps steps' least : Nat} {config config' : Config NamedStore S}

theorem of_running (index : Nat) (store : NamedStore) (s : S) :
    Pending perform code 0 (.running index store s) :=
  ⟨_, .refl _, nofun⟩

theorem of_stopped (h : Reaches perform code least config (.stopped s)) (steps : Nat) :
    Pending perform code steps config :=
  ⟨_, h.of_fixed rfl steps, nofun⟩

theorem after (h : Reaches perform code least config config')
    (h' : Pending perform code steps config') : Pending perform code (least + steps) config := by
  obtain ⟨final, hreach, hfinal⟩ := h'
  exact ⟨final, h.trans_add hreach, hfinal⟩

theorem weaken (h : Pending perform code steps config) (hle : steps' ≤ steps) :
    Pending perform code steps' config := by
  obtain ⟨final, hreach, hfinal⟩ := h
  exact ⟨final, hreach.weaken hle, hfinal⟩

end Pending

/-- The code between two drafts does what a computation of the variables says. -/
def Follows (perform : Source.Request → Effect S Value) (scope : Scope) (code : List Labeled)
    (draft draft' : Draft) (rounds : Nat) (store : NamedStore) (s : S) :
    EStateM.Result Stop S NamedStore → Prop
  | .ok source s' => ∃ store',
    Reaches perform code 0 (.running draft.size store s) (.running draft'.size store' s') ∧
      Agree scope source store'
  | .error _ _ => Pending perform code rounds (.running draft.size store s)

namespace Follows

variable {rounds rounds' least : Nat} {result : EStateM.Result Stop S NamedStore}

theorem weaken (h : Follows perform scope code draft draft' rounds store s result)
    (hle : rounds' ≤ rounds) : Follows perform scope code draft draft' rounds' store s result := by
  cases result with
  | ok source s' => exact h
  | error stop s' => exact Pending.weaken h hle

theorem prepend
    (h : Reaches perform code least (.running draft.size store s) (.running draft'.size store' s'))
    (h' : Follows perform scope code draft' draft'' rounds store' s' result) :
    Follows perform scope code draft draft'' (least + rounds) store s result := by
  cases result with
  | ok source s'' =>
    obtain ⟨store'', hreach, agree⟩ := h'
    exact ⟨store'', h.trans hreach, agree⟩
  | error stop s'' => exact Pending.after h h'

theorem append (h : Follows perform scope code draft draft' rounds store s result)
    (h' : ∀ store s, Reaches perform code 0 (.running draft'.size store s)
      (.running draft''.size store s)) :
    Follows perform scope code draft draft'' rounds store s result := by
  cases result with
  | ok source s' =>
    obtain ⟨store', hreach, agree⟩ := h
    exact ⟨store', hreach.trans (h' store' s'), agree⟩
  | error stop s' => exact h

/-- Code behind code follows one computation after the other, if the first one ends. -/
theorem bind {x : Effect S NamedStore} {f : NamedStore → Effect S NamedStore}
    (h : Follows perform scope code draft draft' rounds store s (x s))
    (h' : ∀ source' store' s', Agree scope source' store' →
      Follows perform scope code draft' draft'' rounds store' s' (f source' s')) :
    Follows perform scope code draft draft'' rounds store s ((x >>= f) s) := by
  cases hx : x s with
  | ok source' s' =>
    rw [hx] at h
    obtain ⟨store', hreach, agree⟩ := h
    rw [Effect.bind_ok hx]
    exact (prepend hreach (h' source' store' s' agree)).weaken (Nat.le_add_left _ _)
  | error stop s' =>
    rw [hx] at h
    rw [Effect.bind_error hx]
    exact h

end Follows

/-- An instruction that goes on from a computation, after the code for the computation. -/
theorem follows_of_computes {rounds : Nat} {instr : Instr} {x : Effect S α}
    {f : α → Effect S NamedStore} {y : NamedStore → Effect S α}
    {g : NamedStore → α → Effect S (Control NamedStore)}
    (h : Computes perform scope code draft draft' store s y (x s))
    (hcode : (draft'.write instr).listing <+: Code.listing code)
    (agree : Agree scope source store)
    (hexec : ∀ store', (namedMachine perform).exec store' instr = y store' >>= g store')
    (hg : ∀ a store' s, Agree scope source store' →
      match f a s with
      | .ok source' s' => ∃ store'', g store' a s = .ok (.next store'') s' ∧
        Agree scope source' store''
      | .error _ _ => ∃ stop s', g store' a s = .error stop s') :
    Follows perform scope code draft (draft'.write instr) rounds store s ((x >>= f) s) := by
  cases hx : x s with
  | ok a s' =>
    rw [hx] at h
    obtain ⟨store', s₁, hreach, hkept, hy⟩ := h
    have hstep := (congrFun (hexec store') s₁).trans (Effect.bind_ok hy (g store'))
    have hlast := hg a store' s' (agree.trans hkept.agree)
    rw [Effect.bind_ok hx]
    cases hf : f a s' with
    | ok source' s'' =>
      rw [hf] at hlast
      obtain ⟨store'', hnext, agree'⟩ := hlast
      have hreach' := reaches_next hcode (hstep.trans hnext)
      exact ⟨store'', hreach.trans (hreach'.weaken (Nat.zero_le 1)), agree'⟩
    | error stop s'' =>
      rw [hf] at hlast
      obtain ⟨stop', s₂, herror⟩ := hlast
      exact .of_stopped (hreach.trans (stops_of_exec hcode (hstep.trans herror))) rounds
  | error stop s' =>
    rw [hx] at h
    obtain ⟨s₂, hstop⟩ := h.stops hcode hexec
    rw [Effect.bind_error hx]
    exact .of_stopped hstop rounds

/-- A request after which the variables are what they were. -/
theorem next_of_perform (request : Source.Request) (agree : Agree scope source store) (s : S) :
    match (perform request >>= fun _ => pure source : Effect S NamedStore) s with
    | .ok source' s' => ∃ store',
      (perform request >>= fun _ => pure (.next store) : Effect S (Control NamedStore)) s =
        .ok (.next store') s' ∧ Agree scope source' store'
    | .error _ _ => ∃ stop s',
      (perform request >>= fun _ => pure (.next store) : Effect S (Control NamedStore)) s =
        .error stop s' := by
  cases hperform : perform request s with
  | ok unused s' =>
    rw [Effect.bind_ok hperform, Effect.bind_ok hperform]
    exact ⟨store, rfl, agree⟩
  | error stop s' =>
    rw [Effect.bind_error hperform, Effect.bind_error hperform]
    exact ⟨stop, s', rfl⟩

theorem computes_of_supplies {operand : Operand} {result : EStateM.Result Stop S Value}
    (h : Supplies perform scope code draft draft' store s operand result) :
    Computes perform scope code draft draft' store s
      (fun store => (namedMachine perform).operand store operand) result := by
  cases result with
  | ok value s' =>
    obtain ⟨store', s₁, hreach, hkept, rfl, hholds⟩ := h
    exact ⟨store', s₁, hreach, hkept, congrFun (operand_of_holds hholds) s₁⟩
  | error stop s' =>
    rcases h with hstop | ⟨store', s₁, hreach, hkept, var, rfl, hkey⟩
    · exact .inl hstop
    · have hfetch := congrFun (fetch_of_no_key perform store' hkey) s₁
      exact .inr ⟨store', s₁, hreach, hkept, .trap, s₁, hfetch⟩

theorem exec_putField {receiver field : Variable} (hkey : receiver.key? = some .receiver)
    (operand : Operand) (store : NamedStore) :
    (namedMachine perform).exec store (.putField (.var receiver) field operand) =
      (namedMachine perform).operand store operand >>= fun value =>
        perform (.putField field.name (store .receiver) value) >>= fun _ => pure (.next store) := by
  simp only [Executor.exec, Executor.operand, fetch_of_key? perform store hkey, pure_bind]
  rfl

theorem exec_of_lowerExpr {expr : Expr} {expected : Option Source.Ty} {instr : Instr}
    {context : Context} (h : lowerExpr expr expected context draft = .ok instr draft')
    (store : NamedStore) :
    (namedMachine perform).exec store instr =
      (namedMachine perform).value store instr >>= fun _ => pure (.next store) := by
  rcases lowerExpr_eq_ok h with ⟨cls, _, rfl, _⟩ | ⟨operands, _, hforms⟩
  · rfl
  · cases hforms <;> rfl

/-- An assignment changes the variable that the name stands for, or the field. -/
theorem follows_lowerAssign (fits : scope.parameters.length < UInt16.size) {rounds : Nat}
    {target : String} {value : Expr}
    (own : Source.OwnClass ((Source.Stmt.assign target value).assignedObjects table scope))
    (h : lowerAssign target value (.ofScope table scope) draft = .ok () draft')
    (hcode : draft'.listing <+: Code.listing code) (agree : Agree scope source store) :
    Follows perform scope code draft draft' rounds store s
      (Source.exec perform table scope rounds (.assign target value) source s) := by
  rw [Source.exec]
  rcases lowerAssign_eq_ok h with ⟨ty, var, hplace, hcases⟩ | ⟨ty, field, operand, middle, hplace,
    hvalue, rfl⟩
  · obtain ⟨key, hmeaning, hkey, _⟩ := meaning?_of_slot fits (binding?_of_place? hplace)
    have hassign (store : NamedStore) (value : Value) :
        Source.assign perform table scope store target value = pure (put store key value) := by
      simp [Source.assign, hmeaning]
    simp only [hassign]
    rcases hcases with ⟨cls, rfl, rfl⟩ | ⟨instr, middle, _, hexpr, rfl⟩
    · obtain ⟨hnameTy, hty, hvariable⟩ := typed_place hplace
      have hdeclared : ty = .named cls := by
        refine own ⟨cls, ty⟩ ?_
        simp [Source.Stmt.assignedObjects, hvariable, hnameTy]
      have hrole : var.role ≠ .receiver := by
        intro hreceiver
        rcases slot_of_place? hplace with ⟨_, _, rfl⟩ | ⟨_, _, _, rfl⟩ <;> cases hreceiver
      have hruns := leads_allocate perform table scope source store s hkey hrole
        (hty.trans (congrArg Code.Ty.ofSource hdeclared)) hcode
      cases heval : Source.eval perform table scope source (.newObject cls) s with
      | ok object s' =>
        rw [heval] at hruns
        rw [Effect.bind_ok heval]
        exact ⟨_, hruns.weaken (Nat.zero_le 1), agree.put key object⟩
      | error stop s' =>
        rw [heval] at hruns
        rw [Effect.bind_error heval]
        obtain ⟨s'', hstop⟩ := hruns
        exact .of_stopped hstop rounds
    · have hmiddle := (middle.grows_write _).trans hcode
      refine follows_of_computes (yields_lowerExpr fits hexpr hmiddle agree) hcode agree
        (fun store' => exec_assign_var var.ty hkey instr store') ?_
      intro value store' s agree'
      exact ⟨_, rfl, agree'.put key value⟩
  · have hmeaning := meaning?_of_field (binding?_of_place? hplace)
    have hassign (store : NamedStore) (value : Value) :
        Source.assign perform table scope store target value =
          perform (.putField field.name (store .receiver) value) >>= fun _ => pure store := by
      simp [Source.assign, hmeaning]
    have hmiddle := (middle.grows_write _).trans hcode
    simp only [hassign]
    refine follows_of_computes (computes_of_supplies (supplies_value fits hvalue hmiddle agree))
      hcode agree (fun store' => exec_putField rfl operand store') ?_
    intro value store' s agree'
    rw [← agree' .receiver trivial]
    exact next_of_perform (.putField field.name (source .receiver) value) agree' s

theorem follows_expr (fits : scope.parameters.length < UInt16.size) {rounds : Nat} {value : Expr}
    (h : lowerStmt (.expr value) (.ofScope table scope) draft = .ok () draft')
    (hcode : draft'.listing <+: Code.listing code) (agree : Agree scope source store) :
    Follows perform scope code draft draft' rounds store s
      (Source.exec perform table scope rounds (.expr value) source s) := by
  rw [Source.exec]
  obtain ⟨instr, middle, hexpr, rfl⟩ := lowerStmt_expr h
  have hmiddle := (middle.grows_write _).trans hcode
  refine follows_of_computes (yields_lowerExpr fits hexpr hmiddle agree) hcode agree
    (fun store' => exec_of_lowerExpr hexpr store') ?_
  intro value store' s agree'
  exact ⟨store', rfl, agree'⟩

/-- The variable that holds an array has its value. -/
theorem supplies_of_held (fits : scope.parameters.length < UInt16.size) {target : String}
    {ty : Source.Ty} {place : Place} {array : Variable}
    (hplace : (Context.ofScope table scope).place? target = some (ty, place))
    (h : Held (.ofScope table scope) draft place array draft')
    (hcode : draft'.listing <+: Code.listing code) (agree : Agree scope source store) :
    Supplies perform scope code draft draft' store s (.var array)
      (Source.eval perform table scope source (.name target) s) := by
  cases h with
  | slot =>
    obtain ⟨key, hmeaning, hkey, hvisible⟩ := meaning?_of_slot fits (binding?_of_place? hplace)
    rw [Source.eval, Source.evalName, hmeaning]
    refine ⟨store, s, .refl _, .refl _ _ _, rfl, ?_⟩
    rw [agree key hvisible]
    exact .var hkey (.inl hvisible)
  | field field =>
    have hnone : Delivers perform scope code draft draft store s [] (.ok [] s) :=
      ⟨store, s, .refl _, .refl _ _ _, rfl, .nil⟩
    have hname : ∀ cls, Expr.name target ≠ .newObject cls := by
      intro cls heq
      cases heq
    rw [eval_eq_finish source hname]
    refine supplies_of_keep field.ty (.refl draft) hcode (computes_of_delivers hnone ?_)
    intro store' agree'
    exact value_of_forms fits (agree.trans agree') (.field (binding?_of_place? hplace))

/-- Operands that have been delivered stay what they are while the code of an expression runs. -/
theorem computes_pair {operands : List Operand} {instr : Instr} {x : Effect S (List Value)}
    {x' : Effect S Value} (hplain : Plain draft draft') (hplain' : Plain draft' draft'')
    (agree : Agree scope source store)
    (h : Delivers perform scope code draft draft' store s operands (x s))
    (h' : ∀ store' s', Agree scope source store' →
      Yields perform scope code draft' draft'' store' s' instr (x' s')) :
    Computes perform scope code draft draft'' store s
      (fun store => do
        let values ← (namedMachine perform).operands store operands
        let value ← (namedMachine perform).value store instr
        return (values, value))
      ((do
        let values ← x
        let value ← x'
        return (values, value) : Effect S (List Value × Value)) s) := by
  refine Leads.seq hplain.lastTemporary h
    (fun store' s' hkept => h' store' s' (agree.trans hkept.agree)) And.left ?_ ?_ ?_
  · rintro values value s' store' s'' store'' s₁ ⟨_, hall⟩ hkept hvalue
    have hall' := hall.imp fun _ _ hholds => hholds.mono hkept hplain'.lastTemporary
    simp only [operands_of_holds hall', pure_bind]
    exact Effect.bind_ok hvalue _
  · rintro store' s' store'' s₁ ⟨operand, hmem, hvalueless⟩
    obtain ⟨stop, s₂, herror⟩ := operands_of_valueless perform store'' hmem hvalueless s₁
    exact ⟨stop, s₂, Effect.bind_error herror _⟩
  · rintro values s' store' store'' s₁ ⟨_, hall⟩ hkept ⟨stop, s₂, hvalue⟩
    have hall' := hall.imp fun _ _ hholds => hholds.mono hkept hplain'.lastTemporary
    refine ⟨stop, s₂, ?_⟩
    simp only [operands_of_holds hall', pure_bind]
    exact Effect.bind_error hvalue _

theorem exec_assign_element (array : Variable) (operand : Operand) (ty : Code.Ty) (instr : Instr)
    (store : NamedStore) :
    (namedMachine perform).exec store (.assign (.element array operand ty) ty instr) =
      (do
        let values ← (namedMachine perform).operands store [.var array, operand]
        let value ← (namedMachine perform).value store instr
        return (values, value)) >>= fun
      | ([array, position], value) => do
        let _ ← perform (.putElement array position value)
        return .next store
      | _ => throw .trap := by
  simp [Executor.exec, Executor.assign, Executor.operands, Executor.operand]
  rfl

/-- The array and the index come before the value, as in the source. -/
theorem follows_lowerAssignElement (fits : scope.parameters.length < UInt16.size) {rounds : Nat}
    {target : String} {position value : Expr}
    (h : lowerAssignElement target position value (.ofScope table scope) draft = .ok () draft')
    (hcode : draft'.listing <+: Code.listing code) (agree : Agree scope source store) :
    Follows perform scope code draft draft' rounds store s
      (Source.exec perform table scope rounds (.assignElement target position value) source s) := by
  obtain ⟨_, _, array, draft₁, operand, draft₂, _, instr, draft₃, codeTy, hplace, hheld, hposition,
    hvalue, rfl⟩ := lowerAssignElement_eq_ok h
  have hplain₁ := plain_of_held hheld
  have hplain₂ := plain_lowerValue hposition
  have hplain₃ := plain_lowerExpr hvalue
  have hcode₃ := (draft₃.grows_write _).trans hcode
  have hcode₂ := hplain₃.grows.trans hcode₃
  have hcode₁ := hplain₂.grows.trans hcode₂
  have hexec : Source.exec perform table scope rounds (.assignElement target position value)
      source = (do
        let values ← Source.evalAll perform table scope source [.name target, position]
        let value ← Source.eval perform table scope source value
        return (values, value)) >>= fun
      | ([array, position], value) => do
        let _ ← perform (.putElement array position value)
        return source
      | _ => throw .trap := by
    simp [Source.exec, Source.evalAll, Source.eval]
  have hdelivers : Delivers perform scope code draft draft₂ store s [.var array, operand]
      (Source.evalAll perform table scope source [.name target, position] s) := by
    refine delivers_cons hplain₁ hplain₂ agree (supplies_of_held fits hplace hheld hcode₁ agree) ?_
    intro store' s' agree'
    refine delivers_cons hplain₂ (.refl draft₂) agree'
      (supplies_value fits hposition hcode₂ agree') ?_
    intro store'' s'' _
    exact ⟨store'', s'', .refl _, .refl _ _ _, rfl, .nil⟩
  rw [hexec]
  refine follows_of_computes (computes_pair (hplain₁.trans hplain₂) hplain₃ agree hdelivers ?_)
    hcode agree (fun store' => exec_assign_element array operand codeTy instr store') ?_
  · intro store' s' agree'
    exact yields_lowerExpr fits hvalue hcode₃ agree'
  · rintro ⟨values, value⟩ store' s' agree'
    rcases values with _ | ⟨array, _ | ⟨position, _ | ⟨other, others⟩⟩⟩
    · exact ⟨.trap, s', rfl⟩
    · exact ⟨.trap, s', rfl⟩
    · exact next_of_perform (.putElement array position value) agree' s'
    · exact ⟨.trap, s', rfl⟩

theorem Writes.grows {known placed : List String} (h : Writes known placed draft draft') :
    draft.listing <+: draft'.listing := by
  obtain ⟨part, _, hlisting, _⟩ := h.written
  exact ⟨part, hlisting.symm⟩

/-- A jump goes to the place of its label. -/
theorem reaches_goto {target : String}
    (hcode : (draft.write (.goto target)).listing <+: Code.listing code)
    (hplace : Code.place? code target = some draft'.size) (store : NamedStore) (s : S) :
    Reaches perform code 0 (.running draft.size store s) (.running draft'.size store s) := by
  have hexec : (namedMachine perform).exec store (.goto target) s = .ok (.jump target) s := rfl
  have hstep := (reaches_of_exec hcode hexec).weaken (Nat.zero_le 1)
  simpa only [Executor.proceed, hplace] using hstep

/-- The code goes to one of two places, as a test says. -/
def Decides (perform : Source.Request → Effect S Value) (scope : Scope) (code : List Labeled)
    (draft onTrue onFalse : Draft) (source store : NamedStore) (s : S) :
    EStateM.Result Stop S Bool → Prop
  | .ok truth s' => ∃ store',
    Reaches perform code 1 (.running draft.size store s)
        (.running (if truth then onTrue else onFalse).size store' s') ∧
      Agree scope source store'
  | .error _ _ => ∃ s', Reaches perform code 1 (.running draft.size store s) (.stopped s')

/-- The place to go to where a condition holds is that of the label of its branch; the other one is
past the branch. -/
theorem decides_lowerCondition (fits : scope.parameters.length < UInt16.size) {expr : Expr}
    {cond : Condition} {target : String} {onTrue : Draft}
    (h : lowerCondition expr (.ofScope table scope) draft = .ok cond draft')
    (hcode : (draft'.write (.branch cond target)).listing <+: Code.listing code)
    (hplace : Code.place? code target = some onTrue.size) (agree : Agree scope source store) :
    Decides perform scope code draft onTrue (draft'.write (.branch cond target)) source store s
      (Source.test perform table scope source expr s) := by
  have hcode' := (draft'.grows_write _).trans hcode
  have hcomputes : Computes perform scope code draft draft' store s _
      (Source.test perform table scope source expr s) := computes_lowerCondition fits h hcode' agree
  cases htest : Source.test perform table scope source expr s with
  | ok truth s' =>
    rw [htest] at hcomputes
    obtain ⟨store', s₁, hreach, hkept, hcond⟩ := hcomputes
    have hexec : (namedMachine perform).exec store' (.branch cond target) s₁ =
        .ok (if truth then .jump target else .next store') s' := by
      rw [Executor.exec, Effect.bind_ok hcond]
      rfl
    have hstep := reaches_of_exec hcode hexec
    refine ⟨store', hreach.trans ?_, agree.trans hkept.agree⟩
    cases truth with
    | true => simpa only [if_true, Executor.proceed, hplace] using hstep
    | false =>
      rw [if_neg Bool.false_ne_true, Draft.size_write]
      exact hstep
  | error stop s' =>
    rw [htest] at hcomputes
    exact hcomputes.stops hcode fun store' => rfl

/-- What is to be done at either place. -/
theorem Decides.bind {rounds : Nat} {onTrue onFalse : Draft} {x : Effect S Bool}
    {f g : Effect S NamedStore}
    (h : Decides perform scope code draft onTrue onFalse source store s (x s))
    (hTrue : ∀ store' s', Agree scope source store' →
      Follows perform scope code onTrue draft' rounds store' s' (f s'))
    (hFalse : ∀ store' s', Agree scope source store' →
      Follows perform scope code onFalse draft' rounds store' s' (g s')) :
    Follows perform scope code draft draft' (1 + rounds) store s
      ((x >>= fun truth => if truth then f else g) s) := by
  cases hx : x s with
  | ok truth s' =>
    rw [hx] at h
    obtain ⟨store', hreach, agree⟩ := h
    rw [Effect.bind_ok hx]
    cases truth with
    | true => exact .prepend hreach (hTrue store' s' agree)
    | false => exact .prepend hreach (hFalse store' s' agree)
  | error stop s' =>
    rw [hx] at h
    obtain ⟨s'', hstop⟩ := h
    rw [Effect.bind_error hx]
    exact .of_stopped hstop (1 + rounds)

/-- The test goes to the first branch by a jump, or falls through to the second. -/
theorem follows_ifElse (fits : scope.parameters.length < UInt16.size) {rounds : Nat} {cond : Expr}
    {onTrue onFalse : Stmt} (distinct : (Code.listing code).labels.Nodup)
    (h : lowerStmt (.ifElse cond onTrue onFalse) (.ofScope table scope) draft = .ok () draft')
    (hcode : draft'.listing <+: Code.listing code) (agree : Agree scope source store)
    (ihTrue : ∀ {draft draft' store s},
      lowerStmt onTrue (.ofScope table scope) draft = .ok () draft' →
      draft'.listing <+: Code.listing code → Agree scope source store →
      Follows perform scope code draft draft' rounds store s
        (Source.exec perform table scope rounds onTrue source s))
    (ihFalse : ∀ {draft draft' store s},
      lowerStmt onFalse (.ofScope table scope) draft = .ok () draft' →
      draft'.listing <+: Code.listing code → Agree scope source store →
      Follows perform scope code draft draft' rounds store s
        (Source.exec perform table scope rounds onFalse source s)) :
    Follows perform scope code draft draft' rounds store s
      (Source.exec perform table scope rounds (.ifElse cond onTrue onFalse) source s) := by
  obtain ⟨test, draft₁, draft₂, draft₃, hcond, honFalse, honTrue, rfl⟩ := lowerStmt_ifElse h
  -- every draft on the way is a beginning of the code
  have hcode₃ := (draft₃.grows_mark _).trans hcode
  have hthen := (writes_lowerStmt honTrue).grows.trans hcode₃
  have hgoto := (Draft.grows_mark _ _).trans hthen
  have hcode₂ := (draft₂.grows_write _).trans hgoto
  have hbranch := (writes_lowerStmt honFalse).grows.trans hcode₂
  have hdecides : Decides perform scope code draft.withConditional _ _ source store s _ :=
    decides_lowerCondition fits hcond hbranch (place?_of_mark distinct hthen) agree
  rw [Source.exec]
  refine (Decides.bind hdecides (fun store' s' agree' => ?_) (fun store' s' agree' => ?_)).weaken
    (Nat.le_add_left _ _)
  · refine (ihTrue honTrue hcode₃ agree').append (fun store'' s'' => ?_)
    rw [Draft.size_mark]
    exact .refl _
  · exact (ihFalse honFalse hcode₂ agree').append
      (reaches_goto hgoto (place?_of_mark distinct hcode))

/-- The rounds of a loop that are left, from its test on. -/
theorem follows_loop {rounds : Nat} {holds : NamedStore → Effect S Bool}
    {body : NamedStore → Effect S NamedStore} {top start back leave final : Draft}
    (htest : ∀ source store s, Agree scope source store →
      Decides perform scope code top start leave source store s (holds source s))
    (hbody : ∀ source store s, Agree scope source store →
      Follows perform scope code start back rounds store s (body source s))
    (hback : ∀ store s, Reaches perform code 0 (.running back.size store s)
      (.running top.size store s))
    (hleave : ∀ store s, Reaches perform code 0 (.running leave.size store s)
      (.running final.size store s)) :
    ∀ {n}, n ≤ rounds → ∀ {source store s}, Agree scope source store →
      Follows perform scope code top final n store s (Source.loop holds body n source s) := by
  intro n
  induction n with
  | zero => exact fun _ _ _ _ _ => .of_running _ _ _
  | succ n ih =>
    intro hn source store s agree
    -- a round takes the step of its branch, so the steps keep up with the rounds
    rw [Source.loop]
    refine (Decides.bind (htest source store s agree) (fun store' s' agree' => ?_)
      (fun store' s' agree' => ?_)).weaken (Nat.le_of_eq (Nat.add_comm n 1))
    · have hround := ((hbody source store' s' agree').append hback).weaken (Nat.le_of_succ_le hn)
      exact hround.bind fun source'' store'' s'' agree'' => ih (Nat.le_of_succ_le hn) agree''
    · exact ⟨store', hleave store' s', agree'⟩

/-- The code tests the condition before each round, and jumps back to the test behind the body. -/
theorem follows_while (fits : scope.parameters.length < UInt16.size) {rounds : Nat} {cond : Expr}
    {body : Stmt} (distinct : (Code.listing code).labels.Nodup)
    (h : lowerStmt (.while cond body) (.ofScope table scope) draft = .ok () draft')
    (hcode : draft'.listing <+: Code.listing code) (agree : Agree scope source store)
    (ih : ∀ {draft draft' source store s},
      lowerStmt body (.ofScope table scope) draft = .ok () draft' →
      draft'.listing <+: Code.listing code → Agree scope source store →
      Follows perform scope code draft draft' rounds store s
        (Source.exec perform table scope rounds body source s)) :
    Follows perform scope code draft draft' rounds store s
      (Source.exec perform table scope rounds (.while cond body) source s) := by
  obtain ⟨test, draft₁, draft₂, hcond, hbody, rfl⟩ := lowerStmt_while h
  have hback := (Draft.grows_mark _ _).trans hcode
  have hcode₂ := (draft₂.grows_write _).trans hback
  have hstart := (writes_lowerStmt hbody).grows.trans hcode₂
  have hleave := (Draft.grows_mark _ _).trans hstart
  have hbranch := (Draft.grows_write _ _).trans hleave
  have htop := (plain_lowerCondition hcond).grows.trans ((draft₁.grows_write _).trans hbranch)
  have hbegin : Reaches perform code 0 (.running draft.size store s)
      (.running (draft.withLoop.mark (draft.newLabel .test)).size store s) := by
    rw [Draft.size_mark]
    exact .refl _
  rw [Source.exec]
  refine (Follows.prepend hbegin (follows_loop (fun source store s agree => ?_)
    (fun source store s agree => ih hbody hcode₂ agree)
    (reaches_goto hback (place?_of_mark distinct htop))
    (reaches_goto hleave (place?_of_mark distinct hcode)) (Nat.le_refl rounds) agree)).weaken
    (Nat.le_add_left _ _)
  exact decides_lowerCondition fits hcond hbranch (place?_of_mark distinct hstart) agree

theorem follows_lowerStmts {rounds : Nat} {stmts : List Stmt}
    (ih : ∀ stmt ∈ stmts, ∀ {draft draft' source store s},
      lowerStmt stmt (.ofScope table scope) draft = .ok () draft' →
      draft'.listing <+: Code.listing code → Agree scope source store →
      Follows perform scope code draft draft' rounds store s
        (Source.exec perform table scope rounds stmt source s)) :
    ∀ {draft source store s}, lowerStmts stmts (.ofScope table scope) draft = .ok () draft' →
      draft'.listing <+: Code.listing code → Agree scope source store →
      Follows perform scope code draft draft' rounds store s
        (Source.execAll perform table scope rounds stmts source s) := by
  induction stmts with
  | nil =>
    intro draft source store s h hcode agree
    cases h
    exact ⟨store, .refl _, agree⟩
  | cons first rest ihrest =>
    intro draft source store s h hcode agree
    obtain ⟨middle, hfirst, hrest⟩ := lowerStmts_cons h
    have hmiddle := (writes_lowerStmts_of (fun _ _ => writes_lowerStmt) hrest).grows.trans hcode
    rw [Source.execAll]
    refine Follows.bind (ih first List.mem_cons_self hfirst hmiddle agree) ?_
    intro source' store' s' agree'
    exact ihrest (fun stmt hstmt => ih stmt (List.mem_cons_of_mem _ hstmt)) hrest hcode agree'

/-- The code of a statement does what the statement says. By induction on the statement, where each
case is one construct. -/
theorem follows_lowerStmt (fits : scope.parameters.length < UInt16.size) {rounds : Nat}
    (distinct : (Code.listing code).labels.Nodup) (stmt : Stmt)
    (own : Source.OwnClass (stmt.assignedObjects table scope)) :
    ∀ {draft draft' source store s},
      lowerStmt stmt (.ofScope table scope) draft = .ok () draft' →
      draft'.listing <+: Code.listing code → Agree scope source store →
      Follows perform scope code draft draft' rounds store s
        (Source.exec perform table scope rounds stmt source s) := by
  induction stmt using stmt_induction with
  | block body ih =>
    intro draft draft' source store s h hcode agree
    rw [Source.Stmt.assignedObjects, Source.assignedObjectsOfBody_eq] at own
    rw [Source.exec]
    exact follows_lowerStmts (fun stmt hstmt => ih stmt hstmt (own.of_flatMap hstmt)) h hcode agree
  | ifElse cond onTrue onFalse ihTrue ihFalse =>
    intro draft draft' source store s h hcode agree
    rw [Source.Stmt.assignedObjects, Source.OwnClass, List.forall_mem_append] at own
    exact follows_ifElse fits distinct h hcode agree (ihTrue own.1) (ihFalse own.2)
  | «while» cond body ih =>
    intro draft draft' source store s h hcode agree
    rw [Source.Stmt.assignedObjects] at own
    exact follows_while fits distinct h hcode agree (ih own)
  | assign target value =>
    intro draft draft' source store s h hcode agree
    exact follows_lowerAssign fits own h hcode agree
  | assignElement target position value =>
    intro draft draft' source store s h hcode agree
    exact follows_lowerAssignElement fits h hcode agree
  | expr value =>
    intro draft draft' source store s h hcode agree
    exact follows_expr fits h hcode agree

end ClassCompiler.Lowering
