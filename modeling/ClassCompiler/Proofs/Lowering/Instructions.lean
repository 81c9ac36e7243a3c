import Mathlib.Logic.Relation
import ClassCompiler.Proofs.Code.Form
import ClassCompiler.Proofs.Lowering.Values
import ClassCompiler.Proofs.Source.Mentions

/-!
# Instructions of lowered code

A draft grows by elementary steps: a temporary is taken, a label or a number is taken, or an
instruction is written. What may be written is said once, for every instruction that lowering has.
All that is known of the variables of lowered code follows by induction over these steps.
-/

namespace ClassCompiler.Lowering

open Code (Condition Instr Labeled Operand Variable)
open Source (Expr Mention Stmt)

/-- Variables that lowering assigns: locals, parameters, and temporaries that have been taken. -/
inductive Stored (context : Context) (temporaries : List Variable) : Variable → Prop where
  | slot {name : String} {ty : Source.Ty} {var : Variable}
      (h : context.place? name = some (ty, .slot var)) : Stored context temporaries var
  | temporary {var : Variable} (h : var ∈ temporaries) : Stored context temporaries var

/-- Variables that may stand in lowered code. The receiver may only if `receives` holds. -/
inductive Known (context : Context) (receives : Prop) (temporaries : List Variable) :
    Variable → Prop where
  | stored {var : Variable} (h : Stored context temporaries var) :
      Known context receives temporaries var
  | receiver (h : receives) : Known context receives temporaries context.receiver
  | className (name : String) : Known context receives temporaries (.className name)

structure Usable (context : Context) (receives : Prop) (temporaries : List Variable)
    (operand : Operand) : Prop where
  simple : operand.isSimple
  known : ∀ var ∈ operand.vars, Known context receives temporaries var

structure Yielding (context : Context) (receives : Prop) (temporaries : List Variable)
    (instr : Instr) : Prop where
  yields : instr.Yields
  known : ∀ var ∈ instr.vars, Known context receives temporaries var

structure Writable (context : Context) (receives : Prop) (temporaries : List Variable)
    (instr : Instr) : Prop where
  flat : instr.Flat
  known : ∀ var ∈ instr.vars, Known context receives temporaries var
  stored : ∀ target ∈ instr.written?, Stored context temporaries target

/-- One step of writing code. -/
inductive Step (context : Context) (receives : Prop) : Draft → Draft → Prop where
  | write (draft : Draft) {instr : Instr}
      (h : Writable context receives draft.temporaries.toList instr) :
      Step context receives draft (draft.write instr)
  | fresh (draft : Draft) (ty : Code.Ty) : Step context receives draft (draft.withFresh context ty)
  | mark (draft : Draft) (label : String) : Step context receives draft (draft.mark label)
  | conditional (draft : Draft) : Step context receives draft draft.withConditional
  | loop (draft : Draft) : Step context receives draft draft.withLoop

abbrev Steps (context : Context) (receives : Prop) : Draft → Draft → Prop :=
  Relation.ReflTransGen (Step context receives)

variable {context : Context} {receives : Prop} {temporaries temporaries' : List Variable}
  {draft draft' draft'' : Draft} {var : Variable} {operand : Operand} {instr : Instr}

theorem Stored.mono (h : Stored context temporaries var) (hsub : temporaries ⊆ temporaries') :
    Stored context temporaries' var := by
  cases h with
  | slot h => exact .slot h
  | temporary h => exact .temporary (hsub h)

theorem Known.mono (h : Known context receives temporaries var)
    (hsub : temporaries ⊆ temporaries') : Known context receives temporaries' var := by
  cases h with
  | stored h => exact .stored (h.mono hsub)
  | receiver h => exact .receiver h
  | className name => exact .className name

theorem Usable.mono (h : Usable context receives temporaries operand)
    (hsub : temporaries ⊆ temporaries') : Usable context receives temporaries' operand :=
  ⟨h.simple, fun var hvar => (h.known var hvar).mono hsub⟩

theorem Yielding.mono (h : Yielding context receives temporaries instr)
    (hsub : temporaries ⊆ temporaries') : Yielding context receives temporaries' instr :=
  ⟨h.yields, fun var hvar => (h.known var hvar).mono hsub⟩

theorem Writable.mono (h : Writable context receives temporaries instr)
    (hsub : temporaries ⊆ temporaries') : Writable context receives temporaries' instr :=
  ⟨h.flat, fun var hvar => (h.known var hvar).mono hsub,
    fun target htarget => (h.stored target htarget).mono hsub⟩

theorem Usable.of_var (h : Known context receives temporaries var) :
    Usable context receives temporaries (.var var) := by
  refine ⟨rfl, fun other hother => ?_⟩
  obtain rfl := List.mem_singleton.mp hother
  exact h

theorem Usable.of_literal (value : Int32) (ty : Code.Ty) :
    Usable context receives temporaries (.literal value ty) := ⟨rfl, nofun⟩

/-- The variables of usable operands are known. -/
theorem known_of_usable {operands : List Operand}
    (h : ∀ operand ∈ operands, Usable context receives temporaries operand) :
    ∀ var ∈ operands.flatMap (·.vars), Known context receives temporaries var := by
  intro var hvar
  obtain ⟨operand, hoperand, hmem⟩ := List.mem_flatMap.mp hvar
  exact (h operand hoperand).known var hmem

/-- An instruction that takes usable operands and stores nothing. -/
theorem Yielding.of_operands (yields : instr.Yields)
    (h : ∀ operand ∈ instr.operands, Usable context receives temporaries operand) :
    Yielding context receives temporaries instr := ⟨yields, known_of_usable h⟩

theorem Yielding.load (h : Usable context receives temporaries operand) :
    Yielding context receives temporaries (.load operand) :=
  .of_operands (.load h.simple) (List.forall_mem_singleton.mpr h)

/-- A value that is used for itself and not stored. -/
theorem Yielding.writable (h : Yielding context receives temporaries instr) :
    Writable context receives temporaries instr := by
  refine ⟨.yields h.yields, h.known, fun target htarget => ?_⟩
  obtain ⟨yields, _⟩ := h
  cases yields <;> cases htarget

theorem Writable.store {target : Variable} (htarget : Stored context temporaries target)
    (ty : Code.Ty) (h : Yielding context receives temporaries instr) :
    Writable context receives temporaries (.assign (.var target) ty instr) := by
  refine ⟨.store target ty h.yields, fun var hvar => ?_, fun other hother => ?_⟩
  · rcases List.mem_cons.mp hvar with rfl | hvar
    · exact .stored htarget
    · exact h.known var hvar
  · cases hother
    exact htarget

theorem Writable.storeElement {array : Variable} (harray : Stored context temporaries array)
    (hindex : Usable context receives temporaries operand) (ty : Code.Ty)
    (h : Yielding context receives temporaries instr) :
    Writable context receives temporaries (.assign (.element array operand ty) ty instr) := by
  refine ⟨.storeElement array ty ty hindex.simple h.yields, fun var hvar => ?_,
    fun other hother => ?_⟩
  · rcases List.mem_append.mp hvar with hvar | hvar
    · rcases List.mem_cons.mp hvar with rfl | hvar
      · exact .stored harray
      · exact hindex.known var hvar
    · exact h.known var hvar
  · cases hother
    exact harray

theorem Writable.construct {target : Variable} (htarget : Stored context temporaries target) :
    Writable context receives temporaries (.construct (.var target)) := by
  refine ⟨.construct target, fun var hvar => ?_, nofun⟩
  obtain rfl := List.mem_singleton.mp hvar
  exact .stored htarget

theorem Writable.putField (hreceives : receives) (field : Variable)
    (h : Usable context receives temporaries operand) :
    Writable context receives temporaries (.putField (.var context.receiver) field operand) := by
  refine ⟨.putField _ field h.simple, ?_, nofun⟩
  have hoperands : ∀ other ∈ [.var context.receiver, operand],
      Usable context receives temporaries other := by
    simpa using ⟨Usable.of_var (.receiver hreceives), h⟩
  exact known_of_usable hoperands

theorem Writable.branch {cond : Condition}
    (h : ∀ operand ∈ cond.operands, Usable context receives temporaries operand) (target : String) :
    Writable context receives temporaries (.branch cond target) :=
  ⟨.branch target fun operand hoperand => (h operand hoperand).simple, known_of_usable h, nofun⟩

theorem Writable.goto (target : String) :
    Writable context receives temporaries (.goto target) := ⟨.goto target, nofun, nofun⟩

theorem Writable.ret (ty : Code.Ty) {value : Option Operand}
    (h : ∀ operand ∈ value, Usable context receives temporaries operand) :
    Writable context receives temporaries (.ret ty value) :=
  ⟨.ret ty fun operand hoperand => (h operand hoperand).simple,
    known_of_usable fun operand hoperand => h operand (Option.mem_toList.mp hoperand), nofun⟩

theorem temporaries_subset_withFresh (draft : Draft) (context : Context) (ty : Code.Ty) :
    draft.temporaries.toList ⊆ (draft.withFresh context ty).temporaries.toList := by
  simp [Draft.withFresh]

theorem Steps.temporaries_subset (h : Steps context receives draft draft') :
    draft.temporaries.toList ⊆ draft'.temporaries.toList := by
  induction h with
  | refl => exact List.Subset.refl _
  | tail _ step ih =>
    refine List.Subset.trans ih ?_
    cases step with
    | fresh ty => exact temporaries_subset_withFresh _ context ty
    | write | mark | conditional | loop => exact List.Subset.refl _

theorem mem_temporaries_withFresh (draft : Draft) (context : Context) (ty : Code.Ty) :
    draft.fresh context ty ∈ (draft.withFresh context ty).temporaries.toList := by
  simp [Draft.withFresh]

theorem Yielding.returning (h : Yielding context receives temporaries instr) (ty : Code.Ty) :
    Yielding context receives temporaries (returning ty instr) := by
  obtain ⟨yields, known⟩ := h
  cases yields with
  | static cls method returnTy hargs =>
    cases returnTy <;> exact ⟨.static cls method _ hargs, known⟩
  | virtual method returnTy htarget hargs =>
    cases returnTy <;> exact ⟨.virtual method _ htarget hargs, known⟩
  | load h => exact ⟨.load h, known⟩
  | element array elementTy h => exact ⟨.element array elementTy h, known⟩
  | binary op hleft hright => exact ⟨.binary op hleft hright, known⟩
  | not h => exact ⟨.not h, known⟩
  | length h => exact ⟨.length h, known⟩
  | newIntArray h => exact ⟨.newIntArray h, known⟩
  | newObject cls name => exact ⟨.newObject cls name, known⟩
  | getField object field => exact ⟨.getField object field, known⟩

/-- Keeping a value in a new temporary. -/
theorem steps_keep (ty : Code.Ty) (h : Yielding context receives draft.temporaries.toList instr) :
    Steps context receives draft (draft.keep context ty instr) ∧
      Stored context (draft.keep context ty instr).temporaries.toList
        (draft.fresh context ty) := by
  have hfresh := mem_temporaries_withFresh draft context ty
  have hvalue := (h.mono (temporaries_subset_withFresh draft context ty)).returning ty
  have hwrite := Writable.store (.temporary hfresh) ty hvalue
  exact ⟨.tail (.single (.fresh draft ty)) (.write _ hwrite), .temporary hfresh⟩

/-- Allocating an object into a variable and constructing it there. -/
theorem steps_allocate {target : Variable}
    (h : Stored context draft.temporaries.toList target) (cls : String) :
    Steps context receives draft (draft.allocate target cls) := by
  have hnew : Yielding context receives draft.temporaries.toList (.newObject cls) :=
    .of_operands (.newObject _ cls) (List.forall_mem_singleton.mpr (.of_var (.className cls)))
  exact .tail (.single (.write draft (.store h target.ty hnew))) (.write _ (.construct h))

/-- Words that stand for the receiver or a field may be used only if `receives` holds. -/
def Grants (context : Context) (receives : Prop) (mentions : List Mention) : Prop :=
  ∀ mention ∈ mentions, mention.ofReceiver context.table context.scope = true → receives

theorem Grants.mono {mentions mentions' : List Mention} (h : Grants context receives mentions)
    (hsub : mentions' ⊆ mentions) : Grants context receives mentions' :=
  fun mention hmention => h mention (hsub hmention)

/-- The parts of an expression mention nothing that the expression does not. -/
theorem mentions_of_mem_parts {expr : Expr} {part : Expr × Option Source.Ty}
    (h : part ∈ parts context expr) : part.1.mentions ⊆ expr.mentions := by
  have hargs {args : List Expr} (h : part ∈ args.map (·, none)) :
      part.1.mentions ⊆ Source.mentionsOfArgs args := by
    obtain ⟨arg, harg, rfl⟩ := List.mem_map.mp h
    exact Source.mentions_subset_args harg
  cases expr with
  | call receiver method args ty =>
    simp only [parts] at h
    split at h
    · exact List.subset_append_of_subset_right _ (hargs h)
    · rcases List.mem_cons.mp h with rfl | h
      · exact List.subset_append_left _ _
      · exact List.subset_append_of_subset_right _ (hargs h)
  | binary op left right =>
    simp only [parts, List.mem_cons, List.not_mem_nil, or_false] at h
    rcases h with rfl | rfl
    · exact List.subset_append_left _ _
    · exact List.subset_append_right _ _
  | index array position =>
    simp only [parts, List.mem_cons, List.not_mem_nil, or_false] at h
    rcases h with rfl | rfl
    · exact List.subset_append_left _ _
    · exact List.subset_append_right _ _
  | not operand | length operand | newIntArray operand =>
    obtain rfl := List.mem_singleton.mp h
    exact List.Subset.refl _
  | int | bool | this | name | newObject => cases h

theorem mentions_of_mem_conditionParts {expr : Expr} {part : Expr × Option Source.Ty}
    (h : part ∈ conditionParts expr) : part.1.mentions ⊆ expr.mentions := by
  unfold conditionParts at h
  split at h
  · simp only [List.mem_cons, List.not_mem_nil, or_false] at h
    rcases h with rfl | rfl
    · exact List.subset_append_left _ _
    · exact List.subset_append_right _ _
  · simp only [List.mem_cons, List.not_mem_nil, or_false] at h
    rcases h with rfl | rfl
    · exact List.subset_append_left _ _
    · exact List.subset_append_right _ _
  · obtain rfl := List.mem_singleton.mp h
    exact List.Subset.refl _
  · obtain rfl := List.mem_singleton.mp h
    exact List.Subset.refl _

theorem ofReceiver_of_field {name : String} {field : Variable}
    (h : context.binding? name = some (.place (.field field))) :
    Mention.ofReceiver context.table context.scope (.name name) = true := by
  have hbinding : (Context.ofScope context.table context.scope).binding? name =
      some (.place (.field field)) := h
  simp [Mention.ofReceiver, meaning?_of_field hbinding]

theorem exists_place?_of_binding? {name : String} {place : Place}
    (h : context.binding? name = some (.place place)) :
    ∃ ty, context.place? name = some (ty, place) := by
  unfold Context.binding? at h
  split at h
  · next ty place' hplace =>
    cases h
    exact ⟨ty, hplace⟩
  · split at h <;> cases h

theorem eq_className_of_binding? {name : String} {cls : Variable}
    (h : context.binding? name = some (.className cls)) : cls = .className name := by
  unfold Context.binding? at h
  split at h
  · cases h
  · split at h
    · cases h
      rfl
    · cases h

theorem exists_className_of_namedClass? {receiver : Expr} {cls : Variable}
    (h : namedClass? context receiver = some cls) : ∃ name, cls = .className name := by
  unfold namedClass? at h
  split at h
  · split at h
    · next hbinding =>
      cases h
      exact ⟨_, eq_className_of_binding? hbinding⟩
    · cases h
  · cases h

/-- An expression whose parts are in usable operands becomes an instruction of them. -/
theorem yielding_of_forms {expr : Expr} {operands : List Operand}
    (grants : Grants context receives expr.mentions) (h : Forms context expr operands instr)
    (hoperands : ∀ operand ∈ operands, Usable context receives temporaries operand) :
    Yielding context receives temporaries instr := by
  cases h with
  | int value => exact .load (.of_literal value .int)
  | bool value => exact .load (.of_literal _ .bool)
  | this => exact .load (.of_var (.receiver (grants .this (by simp [Expr.mentions]) rfl)))
  | slot h =>
    obtain ⟨ty, hplace⟩ := exists_place?_of_binding? h
    exact .load (.of_var (.stored (.slot hplace)))
  | field h =>
    have hreceives : receives := grants _ (by simp [Expr.mentions]) (ofReceiver_of_field h)
    exact .of_operands (.getField _ _)
      (List.forall_mem_singleton.mpr (.of_var (.receiver hreceives)))
  | className h =>
    rw [eq_className_of_binding? h]
    exact .load (.of_var (.className _))
  | binary op left right leftOperand rightOperand =>
    have hleft := (hoperands leftOperand (by simp)).simple
    have hright := (hoperands rightOperand (by simp)).simple
    exact .of_operands (.binary op hleft hright) hoperands
  | not expr operand => exact .of_operands (.not (hoperands operand (by simp)).simple) hoperands
  | static h method args ty _ returnTy =>
    refine .of_operands (.static _ method returnTy fun arg harg => (hoperands arg harg).simple) ?_
    intro operand hoperand
    rcases List.mem_cons.mp hoperand with rfl | hoperand
    · obtain ⟨name, rfl⟩ := exists_className_of_namedClass? h
      exact .of_var (.className name)
    · exact hoperands operand hoperand
  | virtual h method args ty target args' returnTy =>
    have htarget := (hoperands target (by simp)).simple
    have hargs : ∀ arg ∈ args', arg.isSimple :=
      fun arg harg => (hoperands arg (List.mem_cons_of_mem _ harg)).simple
    exact .of_operands (.virtual method returnTy htarget hargs) hoperands
  | length expr array =>
    exact .of_operands (.length (hoperands array (by simp)).simple) hoperands
  | newIntArray expr size =>
    exact .of_operands (.newIntArray (hoperands size (by simp)).simple) hoperands
  | index expr position array operand ty =>
    refine ⟨.element array ty (hoperands operand (by simp)).simple, fun var hvar => ?_⟩
    refine known_of_usable hoperands var ?_
    simpa [Instr.vars, Instr.operands, Operand.vars] using hvar

/-- Operands stay usable while further operands are written, as temporaries are only added. -/
theorem steps_of_lowersAll {list : List (Expr × Option Source.Ty)} {operands : List Operand}
    (hparts : ∀ part ∈ list, ∀ {expected instr draft draft'},
      lowerExpr part.1 expected context draft = .ok instr draft' →
        Steps context receives draft draft' ∧
          Yielding context receives draft'.temporaries.toList instr)
    (h : LowersAll context list draft operands draft') :
    Steps context receives draft draft' ∧
      ∀ operand ∈ operands, Usable context receives draft'.temporaries.toList operand := by
  induction h with
  | nil draft => exact ⟨.refl, nofun⟩
  | @cons expr expected rest draft middle last operand operands first others ih =>
    obtain ⟨hrest, hothers⟩ := ih fun part hpart => hparts part (List.mem_cons_of_mem _ hpart)
    obtain ⟨instr, draft', hexpr, hsimple⟩ := lowerValue_eq_ok first
    obtain ⟨hsteps, hyields⟩ := hparts _ List.mem_cons_self hexpr
    have hfirst : Steps context receives draft middle ∧
        Usable context receives middle.temporaries.toList operand := by
      rcases hsimple with ⟨rfl, hsimple, rfl⟩ | ⟨ty, rfl, rfl⟩
      · refine ⟨hsteps, hsimple, fun var hvar => hyields.known var ?_⟩
        simpa [Instr.vars, Instr.operands] using hvar
      · obtain ⟨hkeep, hstored⟩ := steps_keep ty hyields
        exact ⟨hsteps.trans hkeep, .of_var (.stored hstored)⟩
    refine ⟨hfirst.1.trans hrest, fun other hother => ?_⟩
    rcases List.mem_cons.mp hother with rfl | hother
    · exact hfirst.2.mono hrest.temporaries_subset
    · exact hothers other hother

/-- The code of an expression is written step by step, each instruction from what is known by then.
-/
theorem steps_lowerExpr {expr : Expr} {expected : Option Source.Ty}
    (grants : Grants context receives expr.mentions)
    (h : lowerExpr expr expected context draft = .ok instr draft') :
    Steps context receives draft draft' ∧
      Yielding context receives draft'.temporaries.toList instr := by
  induction expr using induction_on_parts context generalizing expected instr draft draft' with
  | h expr ih =>
    rcases lowerExpr_eq_ok h with ⟨cls, _, rfl, rfl⟩ | ⟨operands, hparts, hforms⟩
    · have hstored : Stored context (draft.withFresh context (.object cls)).temporaries.toList
          (draft.fresh context (.object cls)) := .temporary (mem_temporaries_withFresh _ _ _)
      refine ⟨Relation.ReflTransGen.head (.fresh draft _) (steps_allocate hstored cls), ?_⟩
      exact .load (.of_var (.stored hstored))
    · obtain ⟨hsteps, hoperands⟩ := steps_of_lowersAll
        (fun part hpart => ih part hpart (grants.mono (mentions_of_mem_parts hpart))) hparts
      exact ⟨hsteps, yielding_of_forms grants hforms hoperands⟩

theorem steps_lowersAll {list : List (Expr × Option Source.Ty)} {operands : List Operand}
    (grants : ∀ part ∈ list, Grants context receives part.1.mentions)
    (h : LowersAll context list draft operands draft') :
    Steps context receives draft draft' ∧
      ∀ operand ∈ operands, Usable context receives draft'.temporaries.toList operand :=
  steps_of_lowersAll (fun part hpart => steps_lowerExpr (grants part hpart)) h

theorem steps_lowerValue {expr : Expr} {expected : Option Source.Ty}
    (grants : Grants context receives expr.mentions)
    (h : lowerValue expr expected context draft = .ok operand draft') :
    Steps context receives draft draft' ∧
      Usable context receives draft'.temporaries.toList operand := by
  obtain ⟨hsteps, hoperands⟩ := steps_lowersAll (by simpa using grants) (.cons h (.nil draft'))
  exact ⟨hsteps, hoperands operand List.mem_cons_self⟩

theorem steps_lowerCondition {expr : Expr} {cond : Condition}
    (grants : Grants context receives expr.mentions)
    (h : lowerCondition expr context draft = .ok cond draft') :
    Steps context receives draft draft' ∧
      ∀ operand ∈ cond.operands, Usable context receives draft'.temporaries.toList operand := by
  obtain ⟨operands, hlowers, htests⟩ := lowerCondition_eq_ok h
  obtain ⟨hsteps, hoperands⟩ := steps_lowersAll
    (fun part hpart => grants.mono (mentions_of_mem_conditionParts hpart)) hlowers
  have heq : cond.operands = operands := by cases htests <;> rfl
  exact ⟨hsteps, heq ▸ hoperands⟩

/-- An array that is a field is copied to a temporary, which may then be stored into. -/
theorem steps_of_held {place : Place} {array : Variable} {name : String} {ty : Source.Ty}
    (grants : Grants context receives [.name name])
    (hplace : context.place? name = some (ty, place)) (h : Held context draft place array draft') :
    Steps context receives draft draft' ∧ Stored context draft'.temporaries.toList array := by
  cases h with
  | slot => exact ⟨.refl, .slot hplace⟩
  | field field =>
    have hreceives : receives :=
      grants _ List.mem_cons_self (ofReceiver_of_field (binding?_of_place? hplace))
    have hload : Yielding context receives draft.temporaries.toList
        (.getField (.var context.receiver) field) :=
      .of_operands (.getField _ field)
        (List.forall_mem_singleton.mpr (.of_var (.receiver hreceives)))
    exact steps_keep field.ty hload

theorem steps_lowerAssign {target : String} {value : Expr}
    (grants : Grants context receives (.name target :: value.mentions))
    (h : lowerAssign target value context draft = .ok () draft') :
    Steps context receives draft draft' := by
  have hvalue := grants.mono (List.subset_cons_self (.name target) value.mentions)
  rcases lowerAssign_eq_ok h with
    ⟨ty, var, hplace, ⟨cls, rfl, rfl⟩ | ⟨instr, middle, _, hexpr, rfl⟩⟩ |
    ⟨ty, field, operand, middle, hplace, hlower, rfl⟩
  · exact steps_allocate (.slot hplace) cls
  · obtain ⟨hsteps, hyields⟩ := steps_lowerExpr hvalue hexpr
    exact hsteps.tail (.write middle (.store (.slot hplace) var.ty hyields))
  · obtain ⟨hsteps, husable⟩ := steps_lowerValue hvalue hlower
    have hreceives : receives :=
      grants _ List.mem_cons_self (ofReceiver_of_field (binding?_of_place? hplace))
    exact hsteps.tail (.write middle (.putField hreceives field husable))

theorem steps_lowerAssignElement {target : String} {position value : Expr}
    (grants : Grants context receives (.name target :: (position.mentions ++ value.mentions)))
    (h : lowerAssignElement target position value context draft = .ok () draft') :
    Steps context receives draft draft' := by
  obtain ⟨_, _, array, draft₁, operand, draft₂, _, instr, draft₃, codeTy, hplace, hheld, hposition,
    hvalue, rfl⟩ := lowerAssignElement_eq_ok h
  obtain ⟨hsteps₁, hstored⟩ := steps_of_held (grants.mono (by simp)) hplace hheld
  obtain ⟨hsteps₂, husable⟩ := steps_lowerValue (grants.mono (by simp)) hposition
  obtain ⟨hsteps₃, hyields⟩ := steps_lowerExpr (grants.mono (by simp)) hvalue
  -- the array and the index were there before the value was
  have harray := (hstored.mono hsteps₂.temporaries_subset).mono hsteps₃.temporaries_subset
  have hindex := husable.mono hsteps₃.temporaries_subset
  have hwrite := Step.write draft₃ (.storeElement harray hindex codeTy hyields)
  exact ((hsteps₁.trans hsteps₂).trans hsteps₃).tail hwrite

theorem steps_lowerStmts_of {body : List Stmt}
    (grants : Grants context receives (Source.mentionsOfBody body))
    (hbody : ∀ stmt ∈ body, ∀ {draft draft'}, Grants context receives stmt.mentions →
      lowerStmt stmt context draft = .ok () draft' → Steps context receives draft draft')
    (h : lowerStmts body context draft = .ok () draft') : Steps context receives draft draft' := by
  induction body generalizing draft with
  | nil =>
    obtain ⟨_, rfl⟩ := pure_eq_ok.mp h
    exact .refl
  | cons first rest ih =>
    obtain ⟨middle, hfirst, hrest⟩ := lowerStmts_cons h
    have hhead := hbody first List.mem_cons_self
      (grants.mono (Source.mentions_subset_body List.mem_cons_self)) hfirst
    refine hhead.trans (ih (grants.mono ?_) ?_ hrest)
    · exact List.subset_append_right first.mentions (Source.mentionsOfBody rest)
    · exact fun stmt hstmt => hbody stmt (List.mem_cons_of_mem _ hstmt)

/-- The code of a statement is written step by step. By induction on the statement. -/
theorem steps_lowerStmt {stmt : Stmt} (grants : Grants context receives stmt.mentions)
    (h : lowerStmt stmt context draft = .ok () draft') : Steps context receives draft draft' := by
  induction stmt using stmt_induction generalizing draft draft' with
  | block body ih => exact steps_lowerStmts_of grants (fun stmt hstmt => ih stmt hstmt) h
  | ifElse cond onTrue onFalse ihTrue ihFalse =>
    obtain ⟨test, draft₁, draft₂, draft₃, hcond, honFalse, honTrue, rfl⟩ := lowerStmt_ifElse h
    have hgrants : Grants context receives
        (cond.mentions ++ (onTrue.mentions ++ onFalse.mentions)) := grants
    obtain ⟨htest, hoperands⟩ := steps_lowerCondition (hgrants.mono (by simp)) hcond
    have hbranch := htest.tail (.write draft₁ (.branch hoperands (draft.newLabel .onTrue)))
    have hfirst := hbranch.trans (ihFalse (hgrants.mono (by simp)) honFalse)
    have hgoto := hfirst.tail (.write draft₂ (.goto (draft.newLabel .endif)))
    have hthen := hgoto.tail (.mark _ (draft.newLabel .onTrue))
    have hsecond := hthen.trans (ihTrue (hgrants.mono (by simp)) honTrue)
    exact Relation.ReflTransGen.head (.conditional draft)
      (hsecond.tail (.mark draft₃ (draft.newLabel .endif)))
  | «while» cond body ih =>
    obtain ⟨test, draft₁, draft₂, hcond, hbody, rfl⟩ := lowerStmt_while h
    have hgrants : Grants context receives (cond.mentions ++ body.mentions) := grants
    have htop : Steps context receives draft (draft.withLoop.mark (draft.newLabel .test)) :=
      .tail (.single (.loop draft)) (.mark _ _)
    obtain ⟨htest, hoperands⟩ := steps_lowerCondition (hgrants.mono (by simp)) hcond
    have hbranch := (htop.trans htest).tail
      (.write draft₁ (.branch hoperands (draft.newLabel .body)))
    have hleave := hbranch.tail (.write _ (.goto (draft.newLabel .endloop)))
    have hstart := hleave.tail (.mark _ (draft.newLabel .body))
    have hround := hstart.trans (ih (hgrants.mono (by simp)) hbody)
    have hback := hround.tail (.write draft₂ (.goto (draft.newLabel .test)))
    exact hback.tail (.mark _ (draft.newLabel .endloop))
  | assign target value => exact steps_lowerAssign grants h
  | assignElement target position value => exact steps_lowerAssignElement grants h
  | expr value =>
    obtain ⟨instr, middle, hexpr, rfl⟩ := lowerStmt_expr h
    obtain ⟨hsteps, hyields⟩ := steps_lowerExpr grants hexpr
    exact hsteps.tail (.write middle hyields.writable)

theorem steps_lowerBody {method : Source.Method} (grants : Grants context receives method.mentions)
    (h : lowerBody method context draft = .ok () draft') : Steps context receives draft draft' := by
  obtain ⟨middle, hbody, hend⟩ := lowerBody_eq_ok h
  have hstmts := steps_lowerStmts_of (grants.mono (List.subset_append_left _ _))
    (fun _ _ => steps_lowerStmt) hbody
  rcases hend with ⟨_, rfl⟩ | ⟨result, operand, middle', _, hresult, hvalue, rfl⟩
  · exact hstmts.tail (.write middle (.ret .void nofun))
  · have hgrants : Grants context receives result.mentions := by
      refine grants.mono ?_
      simp [Source.Method.mentions, hresult]
    obtain ⟨hsteps, husable⟩ := steps_lowerValue hgrants hvalue
    exact (hstmts.trans hsteps).tail (.write middle' (.ret _ (by simpa using husable)))

/-- All that has been written may be written, with the temporaries there are in the end. -/
theorem Steps.writable (h : Steps context receives draft draft')
    (hdraft : ∀ line ∈ draft.code.toList,
      Writable context receives draft.temporaries.toList line.instr) :
    ∀ line ∈ draft'.code.toList,
      Writable context receives draft'.temporaries.toList line.instr := by
  induction h with
  | refl => exact hdraft
  | @tail middle last _ step ih =>
    cases step with
    | write h =>
      intro line hline
      rcases Array.mem_push.mp (Array.mem_toList_iff.mp hline) with hline | rfl
      · exact ih line (Array.mem_toList_iff.mpr hline)
      · exact h
    | fresh ty =>
      exact fun line hline => (ih line hline).mono (temporaries_subset_withFresh middle context ty)
    | mark | conditional | loop => exact ih

/-- The temporaries of a draft have names that nothing else has. -/
structure Apart (context : Context) (draft : Draft) : Prop where
  numbered : ∀ var ∈ draft.temporaries.toList, ∃ number ≤ draft.lastTemporary, ∃ ty,
    var = .temporary (temporaryName number) ty ∧
      context.isDeclared (temporaryName number) = false
  distinct : (draft.temporaries.toList.map (·.name)).Nodup

/-- A new temporary has a number that no other one has, and a name that is not declared. -/
theorem Steps.apart (h : Steps context receives draft draft') (hdraft : Apart context draft) :
    Apart context draft' := by
  induction h with
  | refl => exact hdraft
  | @tail middle last _ step ih =>
    cases step with
    | fresh ty =>
      have hlt := lt_nextTemporary context middle.lastTemporary
      have htemporaries : (middle.withFresh context ty).temporaries.toList =
          middle.temporaries.toList ++ [middle.fresh context ty] := by
        simp [Draft.withFresh]
      constructor
      · intro var hvar
        rw [htemporaries] at hvar
        rcases List.mem_append.mp hvar with hvar | hvar
        · obtain ⟨number, hnumber, ty, hvar⟩ := ih.numbered var hvar
          exact ⟨number, Nat.le_trans hnumber (Nat.le_of_lt hlt), ty, hvar⟩
        · obtain rfl := List.mem_singleton.mp hvar
          exact ⟨_, Nat.le_refl _, ty, rfl, isDeclared_nextTemporary context _⟩
      · rw [htemporaries, List.map_append, List.nodup_append]
        refine ⟨ih.distinct, List.nodup_singleton _, ?_⟩
        intro name hname name' hname' heq
        obtain ⟨var, hvar, rfl⟩ := List.mem_map.mp hname
        obtain ⟨number, hnumber, ty', rfl, _⟩ := ih.numbered var hvar
        obtain rfl := List.mem_singleton.mp hname'
        have hsame := temporaryName_inj heq
        omega
    | write | mark | conditional | loop => exact ⟨ih.numbered, ih.distinct⟩

end ClassCompiler.Lowering
