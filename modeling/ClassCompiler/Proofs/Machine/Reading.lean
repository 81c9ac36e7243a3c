import ClassCompiler.Proofs.Machine.Code

/-!
# What execution depends on

The effect of an instruction depends on the store only through the variables that the instruction
reads. So two machines with different stores, on instructions that differ in what is written at
their variables, have the same effects as long as they read the same values.
-/

namespace ClassCompiler.Code

open Machine

variable {F G S : Type}

/-- Two machines do the same after an instruction, where stores correspond. -/
inductive Control.Alike (R : F → G → Prop) : Control F → Control G → Prop where
  | next {store : F} {store' : G} (h : R store store') : Alike R (.next store) (.next store')
  | jump (label : String) : Alike R (.jump label) (.jump label)
  | leave (value : Option Value) : Alike R (.leave value) (.leave value)

/-- Two executions are at the same place with the same effects so far, and their stores correspond
as long as they run. -/
inductive Config.Alike (R : Nat → F → G → Prop) : Config F S → Config G S → Prop where
  | running {index : Nat} {store : F} {store' : G} (h : R index store store') (state : S) :
    Alike R (.running index store state) (.running index store' state)
  | returned {store : F} {store' : G} (value : Option Value) (state : S) :
    Alike R (.returned value store state) (.returned value store' state)
  | stopped (state : S) : Alike R (.stopped state) (.stopped state)

/-- Two machines execute in the same way, and a change to variables keeps all that execution looks
at except where a variable is stored. -/
structure Mirror (change : Variable → Variable) (left : Executor F S) (right : Executor G S) :
    Prop where
  fits : left.fits = right.fits
  perform : left.perform = right.perform
  name : ∀ var, (change var).name = var.name
  ty : ∀ var, (change var).ty = var.ty
  role : ∀ var, (change var).role = var.role

namespace Mirror

variable {change : Variable → Variable} {left : Executor F S} {right : Executor G S}
  {store : F} {store' : G}

@[simp] theorem operand_ty (mirror : Mirror change left right) (operand : Operand) :
    (operand.mapVars change).ty = operand.ty := by
  cases operand with
  | literal => rfl
  | var var => exact mirror.ty var
  | element => rfl

theorem staticCallee_eq (mirror : Mirror change left right) (target : Operand) (method : String) :
    staticCallee (target.mapVars change) method = staticCallee target method := by
  cases target with
  | literal => rfl
  | var var => simp [staticCallee, Operand.mapVars, mirror.name]
  | element => rfl

theorem constructorCallee_eq (mirror : Mirror change left right) (target : Operand) :
    constructorCallee (target.mapVars change) = constructorCallee target := by
  cases target with
  | literal => rfl
  | var var => simp [constructorCallee, Operand.mapVars, mirror.role, mirror.ty]
  | element => rfl

theorem fetch_eq (mirror : Mirror change left right) {var : Variable}
    (h : left.get store var = right.get store' (change var)) :
    left.fetch store var = right.fetch store' (change var) := by
  simp [Executor.fetch, h, mirror.fits, mirror.ty]

theorem operand_eq (mirror : Mirror change left right) {operand : Operand}
    (h : ∀ var ∈ operand.vars, left.get store var = right.get store' (change var)) :
    left.operand store operand = right.operand store' (operand.mapVars change) := by
  induction operand with
  | literal => rfl
  | var var => exact mirror.fetch_eq (h var List.mem_cons_self)
  | element array index ty ih =>
    simp only [Operand.mapVars, Executor.operand, mirror.perform]
    rw [mirror.fetch_eq (h array List.mem_cons_self),
      ih fun var hvar => h var (List.mem_cons_of_mem array hvar)]

theorem operands_eq (mirror : Mirror change left right) {operands : List Operand}
    (h : ∀ var ∈ operands.flatMap (·.vars), left.get store var = right.get store' (change var)) :
    left.operands store operands = right.operands store' (operands.map (·.mapVars change)) := by
  induction operands with
  | nil => rfl
  | cons first rest ih =>
    simp only [List.flatMap_cons, List.mem_append] at h
    rw [List.map_cons, Executor.operands, Executor.operands,
      mirror.operand_eq fun var hvar => h var (.inl hvar), ih fun var hvar => h var (.inr hvar)]

/-- Two machines that read the same values make the same request. -/
theorem call_eq (mirror : Mirror change left right) {kind : CallKind} {target : Operand}
    {method : Option String} {args : List Operand} {returnTy : Ty}
    (h : ∀ var ∈ (target :: args).flatMap (·.vars),
      left.get store var = right.get store' (change var)) :
    left.call store kind target method args returnTy =
      right.call store' kind (target.mapVars change) method (args.map (·.mapVars change))
        returnTy := by
  have hall := mirror.operands_eq h
  have hargs : left.operands store args =
      right.operands store' (args.map (·.mapVars change)) :=
    mirror.operands_eq fun var hvar => h var (by simp at hvar ⊢; exact .inr hvar)
  have htarget : left.operand store target = right.operand store' (target.mapVars change) :=
    mirror.operand_eq fun var hvar => h var (by simp [hvar])
  have htys : (args.map (·.mapVars change)).map (·.ty) = args.map (·.ty) := by
    simp [mirror.operand_ty]
  rw [List.map_cons] at hall
  cases kind with
  | virtual =>
    cases method with
    | none => rfl
    | some name => simp [Executor.call, hall, htys, mirror.perform, mirror.operand_ty]
  | static =>
    cases method with
    | none => rfl
    | some name => simp [Executor.call, hargs, htys, mirror.perform, mirror.staticCallee_eq]
  | special => simp [Executor.call, hall, htys, mirror.perform, mirror.constructorCallee_eq]
  | newObject =>
    cases target with
    | literal => rfl
    | var var => simp [Executor.call, Operand.mapVars, mirror.perform, mirror.name]
    | element => rfl
  | newArray => simp [Executor.call, htarget, mirror.perform]
  | arrayLength => simp [Executor.call, htarget, mirror.perform]

/-- Two machines that read the same values compute the same value, with the same effects. -/
theorem value_eq (mirror : Mirror change left right) {instr : Instr}
    (h : ∀ var ∈ instr.readOperands.flatMap (·.vars),
      left.get store var = right.get store' (change var)) :
    left.value store instr = right.value store' (instr.mapVars change) := by
  cases instr with
  | load operand =>
    exact mirror.operand_eq fun var hvar => h var (by simpa [Instr.readOperands, Instr.operands])
  | binary op first second =>
    have hfirst : left.operand store first = right.operand store' (first.mapVars change) :=
      mirror.operand_eq fun var hvar => h var (by simp [Instr.readOperands, Instr.operands, hvar])
    have hsecond : left.operand store second = right.operand store' (second.mapVars change) :=
      mirror.operand_eq fun var hvar => h var (by simp [Instr.readOperands, Instr.operands, hvar])
    simp [Executor.value, Instr.mapVars, hfirst, hsecond]
  | not operand =>
    have hoperand : left.operand store operand = right.operand store' (operand.mapVars change) :=
      mirror.operand_eq fun var hvar => h var (by simpa [Instr.readOperands, Instr.operands])
    simp [Executor.value, Instr.mapVars, hoperand]
  | call kind target method args returnTy => exact mirror.call_eq h
  | getField object field =>
    have hobject : left.operand store object = right.operand store' (object.mapVars change) :=
      mirror.operand_eq fun var hvar => h var (by simpa [Instr.readOperands, Instr.operands])
    simp [Executor.value, Instr.mapVars, hobject, mirror.perform]
  | assign | putField | branch | goto | ret => rfl

/-- Two machines that read the same values take the same branch. -/
theorem condition_eq (mirror : Mirror change left right) {cond : Condition}
    (h : ∀ var ∈ cond.operands.flatMap (·.vars),
      left.get store var = right.get store' (change var)) :
    left.condition store cond = right.condition store' (cond.mapVars change) := by
  cases cond with
  | binary op first second =>
    have hfirst : left.operand store first = right.operand store' (first.mapVars change) :=
      mirror.operand_eq fun var hvar => h var (by simp [Condition.operands, hvar])
    have hsecond : left.operand store second = right.operand store' (second.mapVars change) :=
      mirror.operand_eq fun var hvar => h var (by simp [Condition.operands, hvar])
    simp [Executor.condition, Condition.mapVars, hfirst, hsecond]
  | not operand | holds operand =>
    have hoperand : left.operand store operand = right.operand store' (operand.mapVars change) :=
      mirror.operand_eq fun var hvar => h var (by simpa [Condition.operands])
    simp [Executor.condition, Condition.mapVars, hoperand]

/-- Where one machine can store a value, so can the other. -/
theorem update_matched (mirror : Mirror change left right) {R : F → G → Prop} {var : Variable}
    {value : Value}
    (h : Option.Rel R (left.set store var value) (right.set store' (change var) value))
    (state : S) :
    Effect.Matched R (left.update store var value state)
      (right.update store' (change var) value state) := by
  rw [Executor.update, Executor.update, mirror.fits, mirror.ty]
  generalize left.set store var value = result at h
  generalize right.set store' (change var) value = result' at h
  split
  · cases h with
    | some h => exact .ok h state
    | none => exact .error .trap state
  · exact .error .trap state

/-- An instruction has the same effect on both machines if they read the same values, and their
stores correspond afterwards if they did or are made to by what is stored. -/
theorem exec_matched (mirror : Mirror change left right) {R : F → G → Prop} {instr : Instr}
    (reads : ∀ var ∈ instr.readOperands.flatMap (·.vars),
      left.get store var = right.get store' (change var))
    (kept : (∀ dest ty value, instr ≠ .assign (.var dest) ty value) → R store store')
    (stored : ∀ dest ty value, instr = .assign (.var dest) ty value → ∀ result,
      Option.Rel R (left.set store dest result) (right.set store' (change dest) result))
    (state : S) :
    Effect.Matched (Control.Alike R) (left.exec store instr state)
      (right.exec store' (instr.mapVars change) state) := by
  cases instr with
  | assign dest ty value =>
    cases dest with
    | var dest =>
      have hvalue : left.value store value = right.value store' (value.mapVars change) :=
        mirror.value_eq reads
      simp only [Executor.exec, Executor.assign, Instr.mapVars, Operand.mapVars, hvalue, bind_assoc]
      refine Effect.Matched.bind_same (fun result state => ?_) state
      refine Effect.Matched.bind (mirror.update_matched (stored dest ty value rfl result) state) ?_
      exact fun _ _ h state => .ok (.next h) state
    | element array index elementTy =>
      simp only [Instr.readOperands, List.flatMap_cons, Operand.vars, List.cons_append,
        List.mem_cons, List.mem_append] at reads
      have hvalue : left.value store value = right.value store' (value.mapVars change) :=
        mirror.value_eq fun var hvar => reads var (.inr (.inr hvar))
      have harray := mirror.fetch_eq (reads array (.inl rfl))
      have hindex : left.operand store index = right.operand store' (index.mapVars change) :=
        mirror.operand_eq fun var hvar => reads var (.inr (.inl hvar))
      simp only [Executor.exec, Executor.assign, Instr.mapVars, Operand.mapVars, hvalue, harray,
        hindex, mirror.perform, bind_assoc, pure_bind]
      refine Effect.Matched.bind_same (fun array state => ?_) state
      refine Effect.Matched.bind_same (fun index state => ?_) state
      refine Effect.Matched.bind_same (fun result state => ?_) state
      refine Effect.Matched.bind_same (fun _ state => ?_) state
      exact .ok (.next (kept (by simp))) state
    | literal => exact .error .trap state
  | putField object field value =>
    have hobject : left.operand store object = right.operand store' (object.mapVars change) :=
      mirror.operand_eq fun var hvar => reads var (by
        simp [Instr.readOperands, Instr.operands, hvar])
    have hvalue : left.operand store value = right.operand store' (value.mapVars change) :=
      mirror.operand_eq fun var hvar => reads var (by
        simp [Instr.readOperands, Instr.operands, hvar])
    simp only [Executor.exec, Instr.mapVars, hobject, hvalue, mirror.perform]
    refine Effect.Matched.bind_same (fun object state => ?_) state
    refine Effect.Matched.bind_same (fun value state => ?_) state
    refine Effect.Matched.bind_same (fun _ state => ?_) state
    exact .ok (.next (kept (by simp))) state
  | branch cond target =>
    simp only [Executor.exec, Instr.mapVars, mirror.condition_eq reads]
    refine Effect.Matched.bind_same (fun truth state => ?_) state
    cases truth with
    | true => exact .ok (.jump target) state
    | false => exact .ok (.next (kept (by simp))) state
  | goto target => exact .ok (.jump target) state
  | ret ty value =>
    cases value with
    | none => exact .ok (.leave none) state
    | some value =>
      have hvalue : left.operand store value = right.operand store' (value.mapVars change) :=
        mirror.operand_eq fun var hvar => reads var (by
          simpa [Instr.readOperands, Instr.operands] using hvar)
      simp only [Executor.exec, Instr.mapVars, Option.map_some, hvalue, mirror.fits]
      refine Effect.Matched.bind_same (fun result state => ?_) state
      split
      · exact .ok (.leave (some result)) state
      · exact .error .trap state
  | binary | not | call | getField | load =>
    have hvalue := mirror.value_eq reads
    simp only [Executor.exec, hvalue]
    exact Effect.Matched.bind_same (fun _ state => .ok (.next (kept (by simp))) state) state

end Mirror

end ClassCompiler.Code
