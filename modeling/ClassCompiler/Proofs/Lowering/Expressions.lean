import ClassCompiler.Proofs.Lowering.Values

/-!
# Lowered expressions compute their values

The code of an expression leaves the values of its parts in operands and changes nothing else that
the program can see. Where the expression has no value the code stops, or it goes on to an operand
that is the name of a class and stops there.
-/

namespace ClassCompiler.Lowering

open Code (Condition Config Executor Instr Key Labeled NamedStore Operand Variable put)
open Machine (Effect Listing Stop Value)
open Source (Expr Scope SymbolTable)

/-- Execution of code gets from one place to another in a number of steps that is not below a
bound. -/
abbrev Reaches {S : Type} (perform : Source.Request → Effect S Value) (code : List Labeled)
    (least : Nat) (config config' : Config NamedStore S) : Prop :=
  Machine.Reaches ((namedMachine perform).step code) least config config'

section

variable {S : Type} {perform : Source.Request → Effect S Value} {code : List Labeled}
  {draft : Draft} {instr : Instr} {store store' : NamedStore} {s s' : S}

theorem line_of_write (h : (draft.write instr).listing <+: Code.listing code) :
    ∃ line, code[draft.size]? = some line ∧ line.instr = instr := by
  obtain ⟨rest, hrest⟩ := h
  have hplace : Code.listing code = draft.listing ++ .inr instr :: rest := by
    rw [← hrest, Draft.listing_write, List.append_assoc]
    rfl
  have hinstr := Listing.instrs_getElem? hplace
  rw [Code.instrs_listing, List.getElem?_map] at hinstr
  exact Option.map_eq_some_iff.mp hinstr

theorem place?_of_mark {label : String} (distinct : (Code.listing code).labels.Nodup)
    (h : (draft.mark label).listing <+: Code.listing code) :
    Code.place? code label = some (draft.mark label).size := by
  obtain ⟨rest, hrest⟩ := h
  have hplace : Code.listing code = draft.listing ++ .inl label :: rest := by
    rw [← hrest, Draft.listing_mark, List.append_assoc]
    rfl
  rw [← Code.address?_listing, Draft.size_mark]
  exact Listing.address?_eq distinct hplace

theorem reaches_of_exec (h : (draft.write instr).listing <+: Code.listing code)
    {control : Code.Control NamedStore}
    (hexec : (namedMachine perform).exec store instr s = .ok control s') :
    Reaches perform code 1 (.running draft.size store s)
      (Executor.proceed code draft.size store s' control) := by
  obtain ⟨line, hline, rfl⟩ := line_of_write h
  refine Machine.Reaches.of_step ?_
  simp only [Executor.step, hline, hexec]

theorem reaches_next (h : (draft.write instr).listing <+: Code.listing code)
    (hexec : (namedMachine perform).exec store instr s = .ok (.next store') s') :
    Reaches perform code 1 (.running draft.size store s)
      (.running (draft.write instr).size store' s') := by
  rw [Draft.size_write]
  exact reaches_of_exec h hexec

theorem stops_of_exec (h : (draft.write instr).listing <+: Code.listing code) {stop : Stop}
    (hexec : (namedMachine perform).exec store instr s = .error stop s') :
    Reaches perform code 1 (.running draft.size store s) (.stopped s') := by
  obtain ⟨line, hline, rfl⟩ := line_of_write h
  refine Machine.Reaches.of_step ?_
  simp only [Executor.step, hline, hexec]

theorem exec_assign_var (ty : Code.Ty) {var : Variable} {key : Key} (hkey : var.key? = some key)
    (instr : Instr) (store : NamedStore) :
    (namedMachine perform).exec store (.assign (.var var) ty instr) =
      (namedMachine perform).value store instr >>= fun value =>
        pure (.next (put store key value)) := by
  have hupdate (value : Value) :
      (namedMachine perform).update store var value = pure (put store key value) := by
    simp [Executor.update, namedMachine, Code.named, hkey, Effect.require]
  simp [Executor.exec, Executor.assign, hupdate]

theorem exec_assign_of_ok {var : Variable} {key : Key} {value : Value} (ty : Code.Ty)
    (hkey : var.key? = some key) (h : (namedMachine perform).value store instr s = .ok value s') :
    (namedMachine perform).exec store (.assign (.var var) ty instr) s =
      .ok (.next (put store key value)) s' := by
  rw [exec_assign_var ty hkey, Effect.bind_ok h]
  rfl

theorem exec_assign_of_error {var : Variable} {key : Key} {stop : Stop} (ty : Code.Ty)
    (hkey : var.key? = some key) (h : (namedMachine perform).value store instr s = .error stop s') :
    (namedMachine perform).exec store (.assign (.var var) ty instr) s = .error stop s' := by
  rw [exec_assign_var ty hkey, Effect.bind_error h]

end

theorem Plain.grows {draft draft' : Draft} (h : Plain draft draft') :
    draft.listing <+: draft'.listing := by
  obtain ⟨instrs, hlisting, _⟩ := h.written
  exact ⟨instrs.map .inr, hlisting.symm⟩

section

variable {S α : Type} {perform : Source.Request → Effect S Value} {table : SymbolTable}
  {scope : Scope} {code : List Labeled} {draft draft' draft'' : Draft}
  {store store' : NamedStore} {s : S}

/-- Where the code between two drafts leads for the computation of a value: to a store that is good
for the value, or it stops, or it leads to a store that is bad. -/
def Leads (perform : Source.Request → Effect S Value) (scope : Scope) (code : List Labeled)
    (draft draft' : Draft) (store : NamedStore) (s : S)
    (good : α → S → NamedStore → S → Prop) (bad : NamedStore → S → Prop) :
    EStateM.Result Stop S α → Prop
  | .ok a s' => ∃ store' s₁,
    Reaches perform code 0 (.running draft.size store s) (.running draft'.size store' s₁) ∧
      Kept scope draft.lastTemporary store store' ∧ good a s' store' s₁
  | .error _ _ =>
    (∃ s', Reaches perform code 0 (.running draft.size store s) (.stopped s')) ∨
    ∃ store' s₁,
      Reaches perform code 0 (.running draft.size store s) (.running draft'.size store' s₁) ∧
        Kept scope draft.lastTemporary store store' ∧ bad store' s₁

/-- The code leads to where a computation on the store has the value. -/
def Computes (perform : Source.Request → Effect S Value) (scope : Scope) (code : List Labeled)
    (draft draft' : Draft) (store : NamedStore) (s : S) (y : NamedStore → Effect S α) :
    EStateM.Result Stop S α → Prop :=
  Leads perform scope code draft draft' store s
    (fun a s' store' s₁ => y store' s₁ = .ok a s')
    (fun store' s₁ => ∃ stop s', y store' s₁ = .error stop s')

abbrev Yields (perform : Source.Request → Effect S Value) (scope : Scope) (code : List Labeled)
    (draft draft' : Draft) (store : NamedStore) (s : S) (instr : Instr) :
    EStateM.Result Stop S Value → Prop :=
  Computes perform scope code draft draft' store s fun store =>
    (namedMachine perform).value store instr

def Supplies (perform : Source.Request → Effect S Value) (scope : Scope) (code : List Labeled)
    (draft draft' : Draft) (store : NamedStore) (s : S) (operand : Operand) :
    EStateM.Result Stop S Value → Prop :=
  Leads perform scope code draft draft' store s
    (fun value s' store' s₁ => s₁ = s' ∧ Holds scope draft'.lastTemporary store' operand value)
    (fun _ _ => Valueless operand)

def Delivers (perform : Source.Request → Effect S Value) (scope : Scope) (code : List Labeled)
    (draft draft' : Draft) (store : NamedStore) (s : S) (operands : List Operand) :
    EStateM.Result Stop S (List Value) → Prop :=
  Leads perform scope code draft draft' store s
    (fun values s' store' s₁ =>
      s₁ = s' ∧ List.Forall₂ (Holds scope draft'.lastTemporary store') operands values)
    (fun _ _ => ∃ operand ∈ operands, Valueless operand)

/-- One computation after another. The code of the second one runs even where the first one has no
value. -/
theorem Leads.seq {β γ : Type} {x : Effect S α} {y : Effect S β} {f : α → β → γ}
    {good : α → S → NamedStore → S → Prop} {good' : β → S → NamedStore → S → Prop}
    {good'' : γ → S → NamedStore → S → Prop} {bad bad' bad'' : NamedStore → S → Prop}
    (hle : draft.lastTemporary ≤ draft'.lastTemporary)
    (h : Leads perform scope code draft draft' store s good bad (x s))
    (h' : ∀ store' s', Kept scope draft.lastTemporary store store' →
      Leads perform scope code draft' draft'' store' s' good' bad' (y s'))
    (same : ∀ {a s' store' s₁}, good a s' store' s₁ → s₁ = s')
    (hgood : ∀ {a b s' store' s'' store'' s₁}, good a s' store' s' →
      Kept scope draft'.lastTemporary store' store'' → good' b s'' store'' s₁ →
      good'' (f a b) s'' store'' s₁)
    (hbad : ∀ {store' s' store'' s₁}, bad store' s' → bad'' store'' s₁)
    (hbad' : ∀ {a s' store' store'' s₁}, good a s' store' s' →
      Kept scope draft'.lastTemporary store' store'' → bad' store'' s₁ → bad'' store'' s₁) :
    Leads perform scope code draft draft'' store s good'' bad''
      ((do
        let a ← x
        let b ← y
        return f a b : Effect S γ) s) := by
  cases hx : x s with
  | ok a s' =>
    rw [hx] at h
    obtain ⟨store', s₁, hreach, hkept, hfirst⟩ := h
    obtain rfl := same hfirst
    have hsecond := h' store' s₁ hkept
    rw [Effect.bind_ok hx]
    cases hy : y s₁ with
    | ok b s'' =>
      rw [hy] at hsecond
      obtain ⟨store'', s₂, hreach', hkept', hsecond⟩ := hsecond
      rw [Effect.bind_ok hy]
      exact ⟨store'', s₂, hreach.trans hreach', hkept.trans hkept' hle,
        hgood hfirst hkept' hsecond⟩
    | error stop s'' =>
      rw [hy] at hsecond
      rw [Effect.bind_error hy]
      rcases hsecond with ⟨s₂, hstop⟩ | ⟨store'', s₂, hreach', hkept', hsecond⟩
      · exact .inl ⟨s₂, hreach.trans hstop⟩
      · exact .inr ⟨store'', s₂, hreach.trans hreach', hkept.trans hkept' hle,
          hbad' hfirst hkept' hsecond⟩
  | error stop s' =>
    rw [hx] at h
    rw [Effect.bind_error hx]
    rcases h with hstop | ⟨store', s₁, hreach, hkept, hfirst⟩
    · exact .inl hstop
    · have hsecond := h' store' s₁ hkept
      cases hy : y s₁ with
      | ok b s'' =>
        rw [hy] at hsecond
        obtain ⟨store'', s₂, hreach', hkept', _⟩ := hsecond
        exact .inr ⟨store'', s₂, hreach.trans hreach', hkept.trans hkept' hle, hbad hfirst⟩
      | error stop s'' =>
        rw [hy] at hsecond
        rcases hsecond with ⟨s₂, hstop⟩ | ⟨store'', s₂, hreach', hkept', _⟩
        · exact .inl ⟨s₂, hreach.trans hstop⟩
        · exact .inr ⟨store'', s₂, hreach.trans hreach', hkept.trans hkept' hle, hbad hfirst⟩

/-- An instruction stops where the computation that it begins with has no value. -/
theorem Computes.stops {instr : Instr} {stop : Stop} {s' : S} {y : NamedStore → Effect S α}
    {g : NamedStore → α → Effect S (Code.Control NamedStore)}
    (h : Computes perform scope code draft draft' store s y (.error stop s'))
    (hcode : (draft'.write instr).listing <+: Code.listing code)
    (hexec : ∀ store', (namedMachine perform).exec store' instr = y store' >>= g store') :
    ∃ s₂, Reaches perform code 1 (.running draft.size store s) (.stopped s₂) := by
  rcases h with ⟨s₂, hstop⟩ | ⟨store', s₁, hreach, _, stop', s₂, hy⟩
  · exact ⟨s₂, hstop.of_fixed rfl 1⟩
  · have hstep := (congrFun (hexec store') s₁).trans (Effect.bind_error hy (g store'))
    exact ⟨s₂, hreach.trans (stops_of_exec hcode hstep)⟩

/-- A variable that the instruction of an expression loads is of the program, or a temporary of the
expression. -/
theorem old_of_load {expr : Expr} {expected : Option Source.Ty} {var : Variable} {key : Key}
    (h : lowerExpr expr expected (.ofScope table scope) draft = .ok (.load (.var var)) draft')
    (hkey : var.key? = some key) : Old scope draft'.lastTemporary key := by
  rcases lowerExpr_eq_ok h with ⟨cls, _, hload, rfl⟩ | ⟨operands, _, hforms⟩
  · cases hload
    cases hkey
    exact .inr ⟨_, Nat.le_refl _, rfl⟩
  · cases hforms with
    | this =>
      cases hkey
      exact .inl trivial
    | slot hslot => exact .inl (visible_of_slot hslot hkey)
    | className hclass =>
      obtain ⟨meaning, _, hmeans⟩ := meaning?_of_binding? hclass
      cases meaning with
      | className name =>
        obtain rfl : var = Variable.className name := hmeans
        cases hkey
      | slot | field => cases hmeans

/-- A simple operand that has a value now keeps it while new temporaries are written. -/
theorem holds_of_operand {operand : Operand} {value : Value} {s' : S} {last : Nat}
    (hsimple : operand.isSimple)
    (hold : ∀ var key, operand = .var var → var.key? = some key → Old scope last key)
    (h : (namedMachine perform).operand store operand s = .ok value s') :
    s = s' ∧ Holds scope last store operand value := by
  cases operand with
  | element => cases hsimple
  | literal value ty =>
    cases h
    exact ⟨rfl, .literal value ty⟩
  | var var =>
    rw [Executor.operand] at h
    cases hkey : var.key? with
    | none =>
      rw [fetch_of_no_key perform store hkey] at h
      cases h
    | some key =>
      rw [fetch_of_key? perform store hkey] at h
      cases h
      exact ⟨rfl, .var hkey (hold var key rfl hkey)⟩

/-- The only simple operand that may be without a value is the name of a class. -/
theorem valueless_of_operand {operand : Operand} {stop : Stop} {s' : S}
    (hsimple : operand.isSimple)
    (h : (namedMachine perform).operand store operand s = .error stop s') : Valueless operand := by
  cases operand with
  | element => cases hsimple
  | literal value ty => cases h
  | var var =>
    rw [Executor.operand] at h
    cases hkey : var.key? with
    | none => exact ⟨var, rfl, hkey⟩
    | some key =>
      rw [fetch_of_key? perform store hkey] at h
      cases h

/-- Where an instruction loads the value of an expression, the operand that it loads has it. -/
theorem supplies_of_load {expr : Expr} {expected : Option Source.Ty} {operand : Operand}
    {result : EStateM.Result Stop S Value}
    (hexpr : lowerExpr expr expected (.ofScope table scope) draft = .ok (.load operand) draft')
    (hsimple : operand.isSimple)
    (h : Yields perform scope code draft draft' store s (.load operand) result) :
    Supplies perform scope code draft draft' store s operand result := by
  cases result with
  | ok value s' =>
    obtain ⟨store', s₁, hreach, hkept, hvalue⟩ := h
    refine ⟨store', s₁, hreach, hkept, ?_⟩
    refine holds_of_operand hsimple ?_ hvalue
    rintro var key rfl hkey
    exact old_of_load hexpr hkey
  | error stop s' =>
    rcases h with hstop | ⟨store', s₁, hreach, hkept, _, _, hvalue⟩
    · exact .inl hstop
    · exact .inr ⟨store', s₁, hreach, hkept, valueless_of_operand hsimple hvalue⟩

/-- A new temporary has the value that was just stored to it. -/
theorem holds_fresh (draft : Draft) (context : Context) (ty : Code.Ty) (store : NamedStore)
    (value : Value) :
    Holds context.scope (draft.withFresh context ty).lastTemporary
      (put store (.local (temporaryName (nextTemporary context draft.lastTemporary))) value)
      (.var (draft.fresh context ty)) value := by
  have hold : Old context.scope (draft.withFresh context ty).lastTemporary
      (.local (temporaryName (nextTemporary context draft.lastTemporary))) :=
    .inr ⟨_, Nat.le_refl _, rfl⟩
  have hvalue := Code.put_self store
    (.local (temporaryName (nextTemporary context draft.lastTemporary))) value
  generalize put store _ value = store' at hvalue
  subst hvalue
  exact .var (key?_fresh draft context ty) hold

/-- Where an instruction has the value of an expression, a temporary that keeps it has it. -/
theorem supplies_of_keep {instr : Instr} (ty : Code.Ty) {result : EStateM.Result Stop S Value}
    (hplain : Plain draft draft')
    (hcode : (draft'.keep (.ofScope table scope) ty instr).listing <+: Code.listing code)
    (h : Yields perform scope code draft draft' store s instr result) :
    Supplies perform scope code draft (draft'.keep (.ofScope table scope) ty instr) store s
      (.var (draft'.fresh (.ofScope table scope) ty)) result := by
  have hkey := key?_fresh draft' (.ofScope table scope) ty
  cases result with
  | ok value s' =>
    obtain ⟨store', s₁, hreach, hkept, hvalue⟩ := h
    have hreturned := (congrFun (value_returning store' ty instr) s₁).trans hvalue
    have hstep := reaches_next hcode (exec_assign_of_ok ty hkey hreturned)
    refine ⟨_, s', hreach.trans (hstep.weaken (Nat.zero_le 1)), ?_, rfl, ?_⟩
    · exact hkept.trans (kept_put_fresh (.ofScope table scope) _ store' value) hplain.lastTemporary
    · exact holds_fresh draft' (.ofScope table scope) ty store' value
  | error stop s' =>
    rcases h with hstop | ⟨store', s₁, hreach, hkept, _, s₂, hvalue⟩
    · exact .inl hstop
    · have hreturned := (congrFun (value_returning store' ty instr) s₁).trans hvalue
      have hstep := stops_of_exec hcode (exec_assign_of_error ty hkey hreturned)
      exact .inl ⟨s₂, hreach.trans (hstep.weaken (Nat.zero_le 1))⟩

/-- A value that is not simple goes through a temporary, which then supplies it. -/
theorem supplies_lowerValue {expr : Expr} {expected : Option Source.Ty} {operand : Operand}
    {x : Effect S Value}
    (hyields : ∀ {instr draft'}, lowerExpr expr expected (.ofScope table scope) draft =
      .ok instr draft' → draft'.listing <+: Code.listing code →
      Yields perform scope code draft draft' store s instr (x s))
    (h : lowerValue expr expected (.ofScope table scope) draft = .ok operand draft'')
    (hcode : draft''.listing <+: Code.listing code) :
    Supplies perform scope code draft draft'' store s operand (x s) := by
  obtain ⟨instr, draft', hexpr, hsimple⟩ := lowerValue_eq_ok h
  rcases hsimple with ⟨rfl, hsimple, rfl⟩ | ⟨ty, rfl, rfl⟩
  · exact supplies_of_load hexpr hsimple (hyields hexpr hcode)
  · have hkeep := Plain.keep draft' (.ofScope table scope) ty instr
    exact supplies_of_keep ty (plain_lowerExpr hexpr) hcode
      (hyields hexpr (hkeep.grows.trans hcode))

/-- Operands are delivered one after the other. The code of later ones runs even where an earlier
one has no value. -/
theorem delivers_cons {source : NamedStore} {expr : Expr} {rest : List Expr} {operand : Operand}
    {operands : List Operand} (hplain : Plain draft draft') (hplain' : Plain draft' draft'')
    (agree : Agree scope source store)
    (hfirst : Supplies perform scope code draft draft' store s operand
      (Source.eval perform table scope source expr s))
    (hrest : ∀ store' s', Agree scope source store' →
      Delivers perform scope code draft' draft'' store' s' operands
        (Source.evalAll perform table scope source rest s')) :
    Delivers perform scope code draft draft'' store s (operand :: operands)
      (Source.evalAll perform table scope source (expr :: rest) s) := by
  rw [Source.evalAll]
  refine Leads.seq hplain.lastTemporary hfirst
    (fun store' s' hkept => hrest store' s' (agree.trans hkept.agree)) And.left ?_ ?_ ?_
  · rintro value values s' store' s'' store'' s₁ ⟨_, hholds⟩ hkept ⟨hsame, hall⟩
    exact ⟨hsame, .cons (hholds.mono hkept hplain'.lastTemporary) hall⟩
  · intro store' s' store'' s₁ hvalueless
    exact ⟨operand, List.mem_cons_self, hvalueless⟩
  · rintro value s' store' store'' s₁ _ _ ⟨other, hmem, hvalueless⟩
    exact ⟨other, List.mem_cons_of_mem _ hmem, hvalueless⟩

/-- Operands are computed from left to right. Those computed first are kept by what follows. -/
theorem delivers_of_lowersAll {source : NamedStore} {list : List (Expr × Option Source.Ty)}
    {operands : List Operand}
    (hparts : ∀ part ∈ list, ∀ {expected instr draft draft' store s},
      lowerExpr part.1 expected (.ofScope table scope) draft = .ok instr draft' →
      draft'.listing <+: Code.listing code → Agree scope source store →
      Yields perform scope code draft draft' store s instr
        (Source.eval perform table scope source part.1 s))
    (h : LowersAll (.ofScope table scope) list draft operands draft')
    (hcode : draft'.listing <+: Code.listing code) (agree : Agree scope source store) :
    Delivers perform scope code draft draft' store s operands
      (Source.evalAll perform table scope source (list.map (·.1)) s) := by
  induction h generalizing store s with
  | nil draft => exact ⟨store, s, .refl _, .refl _ _ _, rfl, .nil⟩
  | cons first others ih =>
    have hplain := plain_lowersAll others
    have hhead := supplies_lowerValue (s := s)
      (fun hexpr hcode => hparts _ List.mem_cons_self hexpr hcode agree) first
      (hplain.grows.trans hcode)
    refine delivers_cons (plain_lowerValue first) hplain agree hhead ?_
    intro store' s' agree'
    exact ih (fun part hpart => hparts part (List.mem_cons_of_mem _ hpart)) hcode agree'

/-- A computation that reads the operands and goes on from their values, after the code that
delivers the operands. -/
theorem computes_of_delivers {operands : List Operand} {x : Effect S (List Value)}
    {f : List Value → Effect S α} {y : NamedStore → Effect S α}
    (h : Delivers perform scope code draft draft' store s operands (x s))
    (hy : ∀ store', Agree scope store store' →
      y store' = (namedMachine perform).operands store' operands >>= f) :
    Computes perform scope code draft draft' store s y ((x >>= f) s) := by
  cases hx : x s with
  | ok values s' =>
    rw [hx] at h
    obtain ⟨store', s₁, hreach, hkept, rfl, hall⟩ := h
    have hfinal : y store' s₁ = f values s₁ := by
      rw [hy store' hkept.agree, operands_of_holds hall, pure_bind]
    rw [Effect.bind_ok hx]
    cases hf : f values s₁ with
    | ok a s'' => exact ⟨store', s₁, hreach, hkept, hfinal.trans hf⟩
    | error stop s'' => exact .inr ⟨store', s₁, hreach, hkept, stop, s'', hfinal.trans hf⟩
  | error stop s' =>
    rw [hx] at h
    rw [Effect.bind_error hx]
    rcases h with hstop | ⟨store', s₁, hreach, hkept, operand, hmem, hvalueless⟩
    · exact .inl hstop
    · obtain ⟨stop', s'', herror⟩ := operands_of_valueless perform store' hmem hvalueless s₁
      refine .inr ⟨store', s₁, hreach, hkept, stop', s'', ?_⟩
      rw [hy store' hkept.agree, Effect.bind_error herror]

/-- A variable other than the receiver is constructed by the constructor of its own type. -/
theorem exec_construct (perform : Source.Request → Effect S Value) (store : NamedStore)
    {target : Variable} {key : Key} (hkey : target.key? = some key)
    (hrole : target.role ≠ .receiver) :
    (namedMachine perform).exec store (.construct (.var target)) =
      perform (.invoke (.constructor target.ty) [store key]) >>= fun _ => pure (.next store) := by
  have hoperands : (namedMachine perform).operands store [.var target] = pure [store key] := by
    simp [Executor.operands, Executor.operand, fetch_of_key? perform store hkey]
  have hexec : (namedMachine perform).exec store (.construct (.var target)) =
      ((namedMachine perform).operands store [.var target] >>= fun values =>
        (namedMachine perform).perform
          (.invoke (Code.constructorCallee (.var target)) [] .void values)) >>=
        fun _ => pure (.next store) := rfl
  rw [hexec, hoperands, pure_bind]
  simp only [Code.constructorCallee, hrole, if_false]
  rfl

/-- An object is allocated into a variable of its class and constructed there. -/
theorem leads_allocate (perform : Source.Request → Effect S Value) (table : SymbolTable)
    (scope : Scope) (source store : NamedStore) (s : S) {target : Variable} {key : Key}
    {cls : String} (hkey : target.key? = some key) (hrole : target.role ≠ .receiver)
    (hty : target.ty = .object cls)
    (hcode : (draft.allocate target cls).listing <+: Code.listing code) :
    match Source.eval perform table scope source (.newObject cls) s with
    | .ok value s' => Reaches perform code 1 (.running draft.size store s)
        (.running (draft.allocate target cls).size (put store key value) s')
    | .error _ _ => ∃ s', Reaches perform code 1 (.running draft.size store s) (.stopped s') := by
  have hassign : (draft.write (.assign (.var target) target.ty (.newObject cls))).listing <+:
      Code.listing code := (Draft.grows_write _ _).trans hcode
  rw [Source.eval]
  cases hnew : perform (.newObject cls) s with
  | error stop s' =>
    rw [Effect.bind_error hnew]
    exact ⟨s', stops_of_exec hassign (exec_assign_of_error target.ty hkey hnew)⟩
  | ok object s' =>
    rw [Effect.bind_ok hnew]
    have hfirst : Reaches perform code 1 (.running draft.size store s) _ :=
      reaches_next hassign (exec_assign_of_ok target.ty hkey hnew)
    have hexec := exec_construct perform (put store key object) hkey hrole
    rw [Code.put_self, hty] at hexec
    cases hconstruct : perform (.invoke (.constructor (.object cls)) [object]) s' with
    | error stop s'' =>
      rw [Effect.bind_error hconstruct]
      have hstop := stops_of_exec hcode
        (congrFun hexec s' |>.trans (Effect.bind_error hconstruct _))
      exact ⟨s'', hfirst.trans hstop⟩
    | ok unused s'' =>
      rw [Effect.bind_ok hconstruct]
      have hsecond := reaches_next hcode (congrFun hexec s' |>.trans (Effect.bind_ok hconstruct _))
      exact hfirst.trans hsecond

/-- The code of an expression leads to where its instruction has its value. -/
theorem yields_lowerExpr (fits : scope.parameters.length < UInt16.size) {source : NamedStore}
    {expr : Expr} {expected : Option Source.Ty} {instr : Instr}
    (h : lowerExpr expr expected (.ofScope table scope) draft = .ok instr draft')
    (hcode : draft'.listing <+: Code.listing code) (agree : Agree scope source store) :
    Yields perform scope code draft draft' store s instr
      (Source.eval perform table scope source expr s) := by
  induction expr using induction_on_parts (.ofScope table scope)
    generalizing expected instr draft draft' store s with
  | h expr ih =>
    rcases lowerExpr_eq_ok h with ⟨cls, rfl, rfl, rfl⟩ | ⟨operands, hparts, hforms⟩
    · have hkey := key?_fresh draft (.ofScope table scope) (.object cls)
      have hruns := leads_allocate perform table scope source store s hkey nofun rfl hcode
      cases heval : Source.eval perform table scope source (.newObject cls) s with
      | ok object s' =>
        rw [heval] at hruns
        refine ⟨_, s', hruns.weaken (Nat.zero_le 1),
          kept_put_fresh (.ofScope table scope) _ store object, ?_⟩
        have hholds := holds_fresh draft (.ofScope table scope) (.object cls) store object
        exact congrFun (operand_of_holds hholds) s'
      | error stop s' =>
        rw [heval] at hruns
        obtain ⟨s'', hstop⟩ := hruns
        exact .inl ⟨s'', hstop.weaken (Nat.zero_le 1)⟩
    · -- all other forms read their operands in one instruction, after the code of all the parts
      have hne : ∀ cls, expr ≠ .newObject cls := by
        rintro cls rfl
        cases hforms
      have hdelivers : Delivers perform scope code draft draft' store s operands _ :=
        delivers_of_lowersAll (fun part hpart => ih part hpart) hparts hcode agree
      rw [eval_eq_finish source hne]
      refine computes_of_delivers hdelivers ?_
      intro store' agree'
      exact value_of_forms fits (agree.trans agree') hforms

theorem supplies_value (fits : scope.parameters.length < UInt16.size) {source : NamedStore}
    {expr : Expr} {expected : Option Source.Ty} {operand : Operand}
    (h : lowerValue expr expected (.ofScope table scope) draft = .ok operand draft')
    (hcode : draft'.listing <+: Code.listing code) (agree : Agree scope source store) :
    Supplies perform scope code draft draft' store s operand
      (Source.eval perform table scope source expr s) :=
  supplies_lowerValue (fun hexpr hcode => yields_lowerExpr fits hexpr hcode agree) h hcode

/-- The condition of a branch is computed as the source tests it. -/
theorem computes_lowerCondition (fits : scope.parameters.length < UInt16.size)
    {source : NamedStore} {expr : Expr} {cond : Condition}
    (h : lowerCondition expr (.ofScope table scope) draft = .ok cond draft')
    (hcode : draft'.listing <+: Code.listing code) (agree : Agree scope source store) :
    Computes perform scope code draft draft' store s
      (fun store => (namedMachine perform).condition store cond)
      (Source.test perform table scope source expr s) := by
  obtain ⟨operands, hparts, htests⟩ := lowerCondition_eq_ok h
  have hdelivers : Delivers perform scope code draft draft' store s operands _ :=
    delivers_of_lowersAll (fun _ _ => yields_lowerExpr fits) hparts hcode agree
  rw [test_eq_finishTest]
  refine computes_of_delivers hdelivers ?_
  intro store' _
  exact condition_of_tests htests

end

end ClassCompiler.Lowering
