import ClassCompiler.Proofs.Lowering.Methods

/-!
# Blocks of lowered code

Lowering writes code in blocks. A block is entered at its first instruction, which alone may carry
labels, and left at its last one, which alone may jump or return. Before its last instruction a
block only computes values into temporaries of its own. Each of them is assigned once, and only
later instructions of the same block mention it.
-/

namespace ClassCompiler.Code.Instr

/-- Whether execution may go elsewhere after the instruction than to the next one. -/
def isControl : Instr → Bool
  | .goto _ | .branch .. | .ret .. => true
  | _ => false

def isReturn : Instr → Bool
  | .ret .. => true
  | _ => false

/-- The variable that the instruction assigns as a whole. -/
def dest? : Instr → Option Variable
  | .assign (.var target) _ _ => some target
  | _ => none

theorem dest?_eq_some {instr : Instr} {dest : Variable} :
    instr.dest? = some dest ↔ ∃ ty value, instr = .assign (.var dest) ty value := by
  constructor
  · intro h
    unfold dest? at h
    split at h
    · next target ty value =>
      cases h
      exact ⟨ty, value, rfl⟩
    · cases h
  · rintro ⟨ty, value, rfl⟩
    rfl

theorem isReturn_of_isControl {instr : Instr} (h : instr.isControl = false) :
    instr.isReturn = false := by
  cases instr with
  | ret => cases h
  | _ => rfl

end ClassCompiler.Code.Instr

def ClassCompiler.Code.Method.temporaries (method : Method) : List Variable :=
  method.locals.filter (·.role = .temporary)

namespace ClassCompiler.Lowering

open Code (Condition Instr Labeled Operand Variable)
open Source (Expr Stmt)

def Own (temporaries vars : List Variable) : Prop :=
  ∀ var ∈ vars, var.role = .temporary → var ∈ temporaries

/-- Code that computes values into temporaries one after the other. An instruction takes only those
temporaries that have been assigned before it. -/
inductive Straight : List Variable → List Instr → Prop where
  | nil : Straight [] []
  | assign {temporaries : List Variable} {instrs : List Instr} {value : Instr}
      (h : Straight temporaries instrs) {temporary : Variable} (hrole : temporary.role = .temporary)
      (ty : Code.Ty) (hvalue : Own temporaries value.vars) :
      Straight (temporaries ++ [temporary]) (instrs ++ [.assign (.var temporary) ty value])
  | construct {temporaries : List Variable} {instrs : List Instr} {temporary : Variable}
      (h : Straight temporaries instrs) (hmem : temporary ∈ temporaries) :
      Straight temporaries (instrs ++ [.construct (.var temporary)])

section

variable {temporaries temporaries' vars vars' : List Variable} {instrs instrs' : List Instr}

theorem Own.mono (h : Own temporaries vars) (hsub : temporaries ⊆ temporaries') :
    Own temporaries' vars :=
  fun var hvar hrole => hsub (h var hvar hrole)

theorem Own.subset (h : Own temporaries vars) (hsub : vars' ⊆ vars) : Own temporaries vars' :=
  fun var hvar => h var (hsub hvar)

theorem Own.append (h : Own temporaries vars) (h' : Own temporaries vars') :
    Own temporaries (vars ++ vars') := by
  intro var hvar
  rcases List.mem_append.mp hvar with hvar | hvar
  · exact h var hvar
  · exact h' var hvar

theorem own_nil (temporaries : List Variable) : Own temporaries [] := nofun

theorem own_of_mem {var : Variable} (h : var ∈ temporaries) : Own temporaries [var] := by
  intro other hother _
  rw [List.mem_singleton.mp hother]
  exact h

theorem own_of_role {var : Variable} (h : var.role ≠ .temporary) : Own temporaries [var] := by
  intro other hother hrole
  rw [List.mem_singleton.mp hother] at hrole
  exact absurd hrole h

namespace Straight

theorem append (h : Straight temporaries instrs) (h' : Straight temporaries' instrs') :
    Straight (temporaries ++ temporaries') (instrs ++ instrs') := by
  induction h' with
  | nil => simpa using h
  | assign _ hrole ty hvalue ih =>
    rw [← List.append_assoc, ← List.append_assoc]
    exact ih.assign hrole ty (hvalue.mono (List.subset_append_right _ _))
  | construct _ hmem ih =>
    rw [← List.append_assoc]
    exact ih.construct (List.mem_append_right _ hmem)

theorem role (h : Straight temporaries instrs) : ∀ var ∈ temporaries, var.role = .temporary := by
  induction h with
  | nil => nofun
  | assign _ hrole _ _ ih => simpa [or_imp, forall_and] using ⟨ih, hrole⟩
  | construct _ _ ih => exact ih

/-- Straight-line code mentions no temporaries but those it was given. -/
theorem own (h : Straight temporaries instrs) : ∀ instr ∈ instrs, Own temporaries instr.vars := by
  induction h with
  | nil => nofun
  | @assign temporaries instrs value _ temporary _ ty hvalue ih =>
    have hsub := List.subset_append_left temporaries [temporary]
    intro instr hinstr
    rcases List.mem_append.mp hinstr with hinstr | hlast
    · exact (ih instr hinstr).mono hsub
    · rw [List.mem_singleton.mp hlast]
      have htarget : temporary ∈ temporaries ++ [temporary] := by simp
      exact (own_of_mem htarget).append (hvalue.mono hsub)
  | construct _ hmem ih =>
    intro instr hinstr
    rcases List.mem_append.mp hinstr with hinstr | hlast
    · exact ih instr hinstr
    · rw [List.mem_singleton.mp hlast]
      exact own_of_mem hmem

theorem isControl_eq_false (h : Straight temporaries instrs) :
    ∀ instr ∈ instrs, instr.isControl = false := by
  induction h with
  | nil => nofun
  | assign _ _ _ _ ih => simpa [or_imp, forall_and] using ⟨ih, rfl⟩
  | construct _ _ ih => simpa [or_imp, forall_and] using ⟨ih, rfl⟩

end Straight

end

def labeled (labels : List String) : List Instr → List Labeled
  | [] => []
  | first :: rest => ⟨labels, first⟩ :: rest.map (⟨[], ·⟩)

theorem labeled_append (labels : List String) (instrs instrs' : List Instr) :
    labeled labels (instrs ++ instrs') =
      labeled labels instrs ++ labeled (if instrs.isEmpty then labels else []) instrs' := by
  cases instrs with
  | nil => rfl
  | cons first rest => cases instrs' <;> simp [labeled]

theorem mem_of_mem_labeled {labels : List String} {instrs : List Instr} {line : Labeled}
    (h : line ∈ labeled labels instrs) : line.instr ∈ instrs := by
  have hinstrs : (labeled labels instrs).map (·.instr) = instrs := by
    cases instrs with
    | nil => rfl
    | cons first rest => simp [labeled, Function.comp_def]
  rw [← hinstrs]
  exact List.mem_map_of_mem h

structure Block where
  labels : List String
  body : List Instr
  last : Instr
  temporaries : List Variable
  straight : Straight temporaries body
  own : Own temporaries last.vars
  keeps : ∀ target ∈ last.dest?, target.role ≠ .temporary

namespace Block

def instrs (block : Block) : List Instr := block.body ++ [block.last]

def lines (block : Block) : List Labeled := labeled block.labels block.instrs

theorem own_of_mem_lines (block : Block) {line : Labeled} (h : line ∈ block.lines) :
    Own block.temporaries line.instr.vars := by
  rcases List.mem_append.mp (mem_of_mem_labeled h) with hbody | hlast
  · exact block.straight.own _ hbody
  · rw [List.mem_singleton.mp hlast]
    exact block.own

/-- The last line of a block is the only one that may return. -/
theorem lines_eq (block : Block) :
    ∃ lines labels, block.lines = lines ++ [⟨labels, block.last⟩] ∧
      ∀ line ∈ lines, line.instr.isReturn = false := by
  have happend := labeled_append block.labels block.body [block.last]
  refine ⟨labeled block.labels block.body, _, happend, ?_⟩
  intro line hline
  have hcontrol := block.straight.isControl_eq_false _ (mem_of_mem_labeled hline)
  exact Instr.isReturn_of_isControl hcontrol

end Block

variable {context : Context} {draft draft' draft'' : Draft}
  {temporaries temporaries' : List Variable} {instrs instrs' : List Instr}

/-- Between two drafts some instructions were written and no label was placed. The labels that
waited are on the first of them. -/
structure Written (instrs : List Instr) (draft draft' : Draft) : Prop where
  code : draft'.code.toList = draft.code.toList ++ labeled draft.pending instrs
  pending : draft'.pending = if instrs.isEmpty then draft.pending else []

namespace Written

theorem refl (draft : Draft) : Written [] draft draft := ⟨by simp [labeled], rfl⟩

theorem trans (h : Written instrs draft draft') (h' : Written instrs' draft' draft'') :
    Written (instrs ++ instrs') draft draft'' := by
  constructor
  · rw [h'.code, h.code, h.pending, labeled_append, List.append_assoc]
  · rw [h'.pending, h.pending]
    cases instrs <;> simp

theorem single (draft : Draft) (instr : Instr) : Written [instr] draft (draft.write instr) :=
  ⟨by simp [Draft.write, labeled], rfl⟩

theorem write (h : Written instrs draft draft') (instr : Instr) :
    Written (instrs ++ [instr]) draft (draft'.write instr) := h.trans (single draft' instr)

theorem withFresh (h : Written instrs draft draft') (context : Context) (ty : Code.Ty) :
    Written instrs draft (draft'.withFresh context ty) := ⟨h.code, h.pending⟩

end Written

/-- Between two drafts straight-line code was written, for which some temporaries were taken. -/
structure Fills (temporaries : List Variable) (draft draft' : Draft) : Prop where
  written : ∃ instrs, Straight temporaries instrs ∧ Written instrs draft draft'
  taken : draft'.temporaries.toList = draft.temporaries.toList ++ temporaries

/-- Between two drafts blocks were written, none of which returns. -/
def InBlocks (draft draft' : Draft) : Prop :=
  ∃ blocks : List Block, draft'.code.toList = draft.code.toList ++ blocks.flatMap (·.lines) ∧
    draft'.temporaries.toList = draft.temporaries.toList ++ blocks.flatMap (·.temporaries) ∧
    ∀ block ∈ blocks, block.last.isReturn = false

namespace Fills

theorem refl (draft : Draft) : Fills [] draft draft := ⟨⟨[], .nil, .refl draft⟩, by simp⟩

theorem trans (h : Fills temporaries draft draft') (h' : Fills temporaries' draft' draft'') :
    Fills (temporaries ++ temporaries') draft draft'' := by
  obtain ⟨⟨instrs, hinstrs, hwritten⟩, htaken⟩ := h
  obtain ⟨⟨instrs', hinstrs', hwritten'⟩, htaken'⟩ := h'
  refine ⟨⟨_, hinstrs.append hinstrs', hwritten.trans hwritten'⟩, ?_⟩
  rw [htaken', htaken, List.append_assoc]

/-- A value is assigned to a new temporary. -/
theorem assign {value : Instr} (h : Fills temporaries draft draft')
    (own : Own temporaries value.vars) (context : Context) (ty ty' : Code.Ty) :
    Fills (temporaries ++ [draft'.fresh context ty]) draft
      ((draft'.withFresh context ty).write
        (.assign (.var (draft'.fresh context ty)) ty' value)) := by
  obtain ⟨⟨instrs, hinstrs, hwritten⟩, htaken⟩ := h
  refine ⟨⟨_, hinstrs.assign rfl ty' own, (hwritten.withFresh context ty).write _⟩, ?_⟩
  simp [Draft.write, Draft.withFresh, htaken]

/-- An object that is in a temporary is constructed. -/
theorem construct {temporary : Variable} (h : Fills temporaries draft draft')
    (hmem : temporary ∈ temporaries) :
    Fills temporaries draft (draft'.write (.construct (.var temporary))) := by
  obtain ⟨⟨instrs, hinstrs, hwritten⟩, htaken⟩ := h
  exact ⟨⟨_, hinstrs.construct hmem, hwritten.write _⟩, htaken⟩

/-- One more instruction makes a block of straight-line code. -/
theorem exists_block {last : Instr} (h : Fills temporaries draft draft')
    (own : Own temporaries last.vars) (keeps : ∀ target ∈ last.dest?, target.role ≠ .temporary) :
    ∃ block : Block, block.last = last ∧
      (draft'.write last).code.toList = draft.code.toList ++ block.lines ∧
      (draft'.write last).temporaries.toList = draft.temporaries.toList ++ block.temporaries := by
  obtain ⟨⟨instrs, hinstrs, hwritten⟩, htaken⟩ := h
  exact ⟨⟨draft.pending, instrs, last, temporaries, hinstrs, own, keeps⟩, rfl,
    (hwritten.write last).code, htaken⟩

theorem write {last : Instr} (h : Fills temporaries draft draft')
    (own : Own temporaries last.vars) (keeps : ∀ target ∈ last.dest?, target.role ≠ .temporary)
    (hlast : last.isReturn = false) : InBlocks draft (draft'.write last) := by
  obtain ⟨block, rfl, hcode, htaken⟩ := h.exists_block own keeps
  exact ⟨[block], by simpa using hcode, by simpa using htaken, by simpa using hlast⟩

end Fills

namespace InBlocks

/-- Labels and numbers are taken between blocks. -/
theorem of_eq (hcode : draft'.code = draft.code) (htaken : draft'.temporaries = draft.temporaries) :
    InBlocks draft draft' := ⟨[], by simp [hcode], by simp [htaken], nofun⟩

theorem trans (h : InBlocks draft draft') (h' : InBlocks draft' draft'') :
    InBlocks draft draft'' := by
  obtain ⟨blocks, hcode, htaken, hlast⟩ := h
  obtain ⟨blocks', hcode', htaken', hlast'⟩ := h'
  refine ⟨blocks ++ blocks', ?_, ?_, List.forall_mem_append.mpr ⟨hlast, hlast'⟩⟩
  · rw [hcode', hcode, List.flatMap_append, List.append_assoc]
  · rw [htaken', htaken, List.flatMap_append, List.append_assoc]

/-- A block of one instruction. -/
theorem write (draft : Draft) {last : Instr} (own : Own [] last.vars)
    (keeps : ∀ target ∈ last.dest?, target.role ≠ .temporary) (hlast : last.isReturn = false) :
    InBlocks draft (draft.write last) := (Fills.refl draft).write own keeps hlast

theorem goto (draft : Draft) (target : String) : InBlocks draft (draft.write (.goto target)) :=
  write draft (own_nil []) nofun rfl

theorem mark (h : InBlocks draft draft') (label : String) : InBlocks draft (draft'.mark label) :=
  h.trans (.of_eq rfl rfl)

end InBlocks

theorem role_slot {name : String} {ty : Source.Ty} {var : Variable}
    (h : context.place? name = some (ty, .slot var)) : var.role ≠ .temporary := by
  rcases slot_of_place? h with ⟨symbol, _, rfl⟩ | ⟨position, symbol, _, rfl⟩
  · nofun
  · nofun

theorem vars_returning (ty : Code.Ty) (instr : Instr) : (returning ty instr).vars = instr.vars := by
  cases instr with
  | call kind target method args returnTy => cases returnTy <;> rfl
  | _ => rfl

/-- Keeping a value in a new temporary. -/
theorem Fills.keep {instr : Instr} (h : Fills temporaries draft draft')
    (own : Own temporaries instr.vars) (context : Context) (ty : Code.Ty) :
    Fills (temporaries ++ [draft'.fresh context ty]) draft (draft'.keep context ty instr) :=
  h.assign (by rwa [vars_returning]) context ty ty

/-- The temporaries that the instruction of an expression takes are those of its operands. -/
theorem own_of_forms {expr : Expr} {operands : List Operand} {instr : Instr}
    (h : Forms context expr operands instr)
    (hoperands : Own temporaries (operands.flatMap (·.vars))) : Own temporaries instr.vars := by
  cases h with
  | int | bool => exact own_nil temporaries
  | this => exact own_of_role nofun
  | field h => exact own_of_role nofun
  | slot h =>
    obtain ⟨ty, hplace⟩ := exists_place?_of_binding? h
    exact own_of_role (role_slot hplace)
  | className h =>
    rw [eq_className_of_binding? h]
    exact own_of_role nofun
  | static h method args ty operands returnTy =>
    obtain ⟨name, rfl⟩ := exists_className_of_namedClass? h
    exact Own.append (own_of_role nofun) hoperands
  | binary | not | virtual | length | newIntArray => exact hoperands
  | index expr position array operand ty =>
    refine hoperands.subset ?_
    simp [Instr.vars, Instr.operands, Operand.vars]

/-- The code of operands is straight-line code, one after the other, with temporaries of its own. -/
theorem fills_of_lowersAll {list : List (Expr × Option Source.Ty)} {operands : List Operand}
    (hparts : ∀ part ∈ list, ∀ {expected instr draft draft'},
      lowerExpr part.1 expected context draft = .ok instr draft' →
        ∃ temporaries, Fills temporaries draft draft' ∧ Own temporaries instr.vars)
    (h : LowersAll context list draft operands draft') :
    ∃ temporaries, Fills temporaries draft draft' ∧
      Own temporaries (operands.flatMap (·.vars)) := by
  induction h with
  | nil draft => exact ⟨[], .refl draft, own_nil []⟩
  | @cons expr expected rest draft middle last operand operands first others ih =>
    obtain ⟨later, hlater, hothers⟩ := ih fun part hpart =>
      hparts part (List.mem_cons_of_mem _ hpart)
    obtain ⟨instr, draft', hexpr, hsimple⟩ := lowerValue_eq_ok first
    obtain ⟨inner, hinner, hinstr⟩ := hparts _ List.mem_cons_self hexpr
    have hfirst : ∃ temporaries, Fills temporaries draft middle ∧ Own temporaries operand.vars := by
      rcases hsimple with ⟨rfl, _, rfl⟩ | ⟨ty, rfl, rfl⟩
      · exact ⟨inner, hinner, by simpa [Instr.vars, Instr.operands] using hinstr⟩
      · exact ⟨_, hinner.keep hinstr context ty, own_of_mem (by simp)⟩
    obtain ⟨earlier, hearlier, hoperand⟩ := hfirst
    refine ⟨earlier ++ later, hearlier.trans hlater, ?_⟩
    exact (hoperand.mono (List.subset_append_left _ _)).append
      (hothers.mono (List.subset_append_right _ _))

/-- What is written for an expression fills temporaries, and its instruction takes no others. -/
theorem fills_lowerExpr {expr : Expr} {expected : Option Source.Ty} {instr : Instr}
    (h : lowerExpr expr expected context draft = .ok instr draft') :
    ∃ temporaries, Fills temporaries draft draft' ∧ Own temporaries instr.vars := by
  induction expr using induction_on_parts context generalizing expected instr draft draft' with
  | h expr ih =>
    rcases lowerExpr_eq_ok h with ⟨cls, _, rfl, rfl⟩ | ⟨operands, hparts, hforms⟩
    · have hnew : Own [] (Instr.newObject cls).vars := own_of_role nofun
      have hmem : draft.fresh context (.object cls) ∈ [draft.fresh context (.object cls)] := by simp
      exact ⟨_, ((Fills.refl draft).assign hnew context _ _).construct hmem, own_of_mem hmem⟩
    · obtain ⟨temporaries, hfills, hoperands⟩ :=
        fills_of_lowersAll (fun part hpart => ih part hpart) hparts
      exact ⟨temporaries, hfills, own_of_forms hforms hoperands⟩

theorem fills_lowersAll {list : List (Expr × Option Source.Ty)} {operands : List Operand}
    (h : LowersAll context list draft operands draft') :
    ∃ temporaries, Fills temporaries draft draft' ∧ Own temporaries (operands.flatMap (·.vars)) :=
  fills_of_lowersAll (fun _ _ => fills_lowerExpr) h

theorem fills_lowerValue {expr : Expr} {expected : Option Source.Ty} {operand : Operand}
    (h : lowerValue expr expected context draft = .ok operand draft') :
    ∃ temporaries, Fills temporaries draft draft' ∧ Own temporaries operand.vars := by
  obtain ⟨temporaries, hfills, hoperands⟩ := fills_lowersAll (.cons h (.nil draft'))
  exact ⟨temporaries, hfills, by simpa using hoperands⟩

theorem fills_lowerCondition {expr : Expr} {cond : Condition}
    (h : lowerCondition expr context draft = .ok cond draft') :
    ∃ temporaries, Fills temporaries draft draft' ∧
      Own temporaries (cond.operands.flatMap (·.vars)) := by
  obtain ⟨operands, hlowers, htests⟩ := lowerCondition_eq_ok h
  have heq : cond.operands = operands := by cases htests <;> rfl
  rw [heq]
  exact fills_lowersAll hlowers

/-- The instruction of an expression neither assigns nor returns. -/
theorem dest?_isReturn_lowerExpr {expr : Expr} {expected : Option Source.Ty} {instr : Instr}
    (h : lowerExpr expr expected context draft = .ok instr draft') :
    instr.dest? = none ∧ instr.isReturn = false := by
  rcases lowerExpr_eq_ok h with ⟨cls, _, rfl, _⟩ | ⟨operands, _, hforms⟩
  · exact ⟨rfl, rfl⟩
  · cases hforms <;> exact ⟨rfl, rfl⟩

/-- An assignment is one block, which a store ends. -/
theorem inBlocks_lowerAssign {target : String} {value : Expr}
    (h : lowerAssign target value context draft = .ok () draft') : InBlocks draft draft' := by
  rcases lowerAssign_eq_ok h with
    ⟨ty, var, hplace, ⟨cls, _, rfl⟩ | ⟨instr, middle, _, hexpr, rfl⟩⟩ |
    ⟨ty, field, operand, middle, _, hvalue, rfl⟩
  · have hvar : Own [] [var] := own_of_role (role_slot hplace)
    have hnew : InBlocks draft (draft.write (.assign (.var var) var.ty (.newObject cls))) :=
      .write draft (hvar.append (own_of_role nofun)) (by simpa [Instr.dest?] using role_slot hplace)
        rfl
    exact hnew.trans (.write _ hvar nofun rfl)
  · obtain ⟨temporaries, hfills, hown⟩ := fills_lowerExpr hexpr
    exact hfills.write ((own_of_role (role_slot hplace)).append hown)
      (by simpa [Instr.dest?] using role_slot hplace) rfl
  · obtain ⟨temporaries, hfills, hown⟩ := fills_lowerValue hvalue
    have hreceiver : Own temporaries [context.receiver] := own_of_role nofun
    have hall := hreceiver.append hown
    exact hfills.write (by simpa [Instr.vars, Instr.operands, Operand.vars] using hall) nofun rfl

theorem fills_of_held {place : Place} {array : Variable} {name : String} {ty : Source.Ty}
    (hplace : context.place? name = some (ty, place)) (h : Held context draft place array draft') :
    ∃ temporaries, Fills temporaries draft draft' ∧ Own temporaries [array] := by
  cases h with
  | slot => exact ⟨[], .refl draft, own_of_role (role_slot hplace)⟩
  | field field =>
    have hload : Own [] (Instr.getField (.var context.receiver) field).vars := own_of_role nofun
    exact ⟨_, (Fills.refl draft).keep hload context field.ty, own_of_mem (by simp)⟩

theorem inBlocks_lowerAssignElement {target : String} {position value : Expr}
    (h : lowerAssignElement target position value context draft = .ok () draft') :
    InBlocks draft draft' := by
  obtain ⟨_, _, array, draft₁, operand, draft₂, _, instr, draft₃, codeTy, hplace, hheld, hposition,
    hvalue, rfl⟩ := lowerAssignElement_eq_ok h
  obtain ⟨first, hfirst, harray⟩ := fills_of_held hplace hheld
  obtain ⟨second, hsecond, hindex⟩ := fills_lowerValue hposition
  obtain ⟨third, hthird, hinstr⟩ := fills_lowerExpr hvalue
  -- the array, the position and the value are all filled in the same block
  have hstored : Own (first ++ second) (array :: operand.vars) :=
    (harray.mono (List.subset_append_left _ _)).append (hindex.mono (List.subset_append_right _ _))
  have hall : Own (first ++ second ++ third) (array :: operand.vars ++ instr.vars) :=
    (hstored.mono (List.subset_append_left _ _)).append (hinstr.mono (List.subset_append_right _ _))
  exact ((hfirst.trans hsecond).trans hthird).write hall nofun rfl

theorem inBlocks_branch {cond : Expr} {test : Condition} (target : String)
    (h : lowerCondition cond context draft = .ok test draft') :
    InBlocks draft (draft'.write (.branch test target)) := by
  obtain ⟨temporaries, hfills, hown⟩ := fills_lowerCondition h
  exact hfills.write hown nofun rfl

theorem inBlocks_lowerStmts_of {body : List Stmt}
    (hbody : ∀ stmt ∈ body, ∀ {draft draft'},
      lowerStmt stmt context draft = .ok () draft' → InBlocks draft draft')
    (h : lowerStmts body context draft = .ok () draft') : InBlocks draft draft' := by
  induction body generalizing draft with
  | nil =>
    obtain ⟨_, rfl⟩ := pure_eq_ok.mp h
    exact .of_eq rfl rfl
  | cons first rest ih =>
    obtain ⟨middle, hfirst, hrest⟩ := lowerStmts_cons h
    have hhead := hbody first List.mem_cons_self hfirst
    exact hhead.trans (ih (fun stmt hstmt => hbody stmt (List.mem_cons_of_mem _ hstmt)) hrest)

/-- The code of a statement falls into blocks, each with its own temporaries. -/
theorem inBlocks_lowerStmt {stmt : Stmt} (h : lowerStmt stmt context draft = .ok () draft') :
    InBlocks draft draft' := by
  induction stmt using stmt_induction generalizing draft draft' with
  | block body ih => exact inBlocks_lowerStmts_of (fun stmt hstmt => ih stmt hstmt) h
  | ifElse cond onTrue onFalse ihTrue ihFalse =>
    obtain ⟨test, draft₁, draft₂, draft₃, hcond, honFalse, honTrue, rfl⟩ := lowerStmt_ifElse h
    have hbranch := inBlocks_branch (draft.newLabel .onTrue) hcond
    have hfalse := hbranch.trans (ihFalse honFalse)
    have hgoto := hfalse.trans (.goto draft₂ (draft.newLabel .endif))
    have htrue := (hgoto.mark (draft.newLabel .onTrue)).trans (ihTrue honTrue)
    exact htrue.mark (draft.newLabel .endif)
  | «while» cond body ih =>
    obtain ⟨test, draft₁, draft₂, hcond, hbody, rfl⟩ := lowerStmt_while h
    have hbranch := inBlocks_branch (draft.newLabel .body) hcond
    have hleave := hbranch.trans (.goto _ (draft.newLabel .endloop))
    have hround := (hleave.mark (draft.newLabel .body)).trans (ih hbody)
    have hback := hround.trans (.goto draft₂ (draft.newLabel .test))
    exact hback.mark (draft.newLabel .endloop)
  | assign target value => exact inBlocks_lowerAssign h
  | assignElement target position value => exact inBlocks_lowerAssignElement h
  | expr value =>
    obtain ⟨instr, middle, hexpr, rfl⟩ := lowerStmt_expr h
    obtain ⟨temporaries, hfills, hown⟩ := fills_lowerExpr hexpr
    obtain ⟨hdest, hreturn⟩ := dest?_isReturn_lowerExpr hexpr
    exact hfills.write hown (by simp [hdest]) hreturn

/-- The body of a method is a sequence of blocks, of which the last one returns. -/
theorem blocks_lowerBody {method : Source.Method}
    (h : lowerBody method context draft = .ok () draft') :
    ∃ middle ty value, ∃ final : Block, InBlocks draft middle ∧ final.last = .ret ty value ∧
      draft'.code.toList = middle.code.toList ++ final.lines ∧
      draft'.temporaries.toList = middle.temporaries.toList ++ final.temporaries := by
  obtain ⟨middle, hbody, hend⟩ := lowerBody_eq_ok h
  have hstmts := inBlocks_lowerStmts_of (fun _ _ => inBlocks_lowerStmt) hbody
  rcases hend with ⟨_, rfl⟩ | ⟨result, operand, middle', _, _, hvalue, rfl⟩
  · have hret : Own [] (Instr.ret .void none).vars := own_nil []
    obtain ⟨final, hlast, hcode, htaken⟩ :=
      (Fills.refl middle).exists_block hret (by simp [Instr.dest?])
    exact ⟨middle, _, _, final, hstmts, hlast, hcode, htaken⟩
  · obtain ⟨temporaries, hfills, hown⟩ := fills_lowerValue hvalue
    have hret : Own temporaries (Instr.ret (.ofSource method.returnTy) (some operand)).vars := by
      simpa [Instr.vars, Instr.operands] using hown
    obtain ⟨final, hlast, hcode, htaken⟩ := hfills.exists_block hret (by simp [Instr.dest?])
    exact ⟨middle, _, _, final, hstmts, hlast, hcode, htaken⟩

theorem temporaries_eq {code : Code.Method} {scope : Source.Scope} {temporaries : List Variable}
    (hlocals : code.locals = declaredLocals scope ++ temporaries)
    (hrole : ∀ var ∈ temporaries, var.role = .temporary) : code.temporaries = temporaries := by
  have hdeclared : (declaredLocals scope).filter (·.role = .temporary) = [] := by
    simp [declaredLocals, Variable.declared]
  have htemporaries : temporaries.filter (·.role = .temporary) = temporaries := by
    simpa using hrole
  rw [Code.Method.temporaries, hlocals, List.filter_append, hdeclared, htemporaries,
    List.nil_append]

/-- A lowered method is a sequence of blocks, of which only the last one returns. Its temporaries
are those of the blocks. -/
theorem blocks_lowerMethod {table : Source.SymbolTable} {method : Source.Method}
    {code : Code.Method} (h : lowerMethod table method = .ok code) :
    ∃ (blocks : List Block) (final : Block) (ty : Code.Ty) (value : Option Operand),
      code.body = (blocks ++ [final]).flatMap (·.lines) ∧
      code.temporaries = (blocks ++ [final]).flatMap (·.temporaries) ∧
      (∀ block ∈ blocks, block.last.isReturn = false) ∧ final.last = .ret ty value := by
  obtain ⟨scope, draft, _, hbody, _, hcode, hlocals⟩ := lowerMethod_eq_ok h
  obtain ⟨middle, ty, value, final, ⟨blocks, hblocks, htaken, hreturns⟩, hlast, hlines, htaken'⟩ :=
    blocks_lowerBody hbody
  have hdrafted : draft.temporaries.toList = (blocks ++ [final]).flatMap (·.temporaries) := by
    simp [htaken', htaken, Draft.initial]
  refine ⟨blocks, final, ty, value, ?_, ?_, hreturns, hlast⟩
  · simp [hcode, hlines, hblocks, Draft.initial]
  · rw [temporaries_eq hlocals, hdrafted]
    rw [hdrafted]
    intro var hvar
    obtain ⟨block, _, hmem⟩ := List.mem_flatMap.mp hvar
    exact block.straight.role var hmem

end ClassCompiler.Lowering
