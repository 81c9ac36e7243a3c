import ClassCompiler.Proofs.Lowering.Steps
import ClassCompiler.Proofs.Text.Numbered

/-!
# Labels of lowered code

Expressions have no labels and no jumps. The labels of a statement are numbered from the counters of
the draft, so they are new and differ from one another, and a statement only jumps to labels of its
own. A lowered method therefore has distinct labels, defines all that it jumps to, and ends in a
return.
-/

namespace ClassCompiler.Lowering

open Code (Condition Instr Labeled Operand Variable)
open Machine (Listing)
open Source (Expr Stmt)

variable {context : Context} {draft draft' draft'' : Draft}

theorem isStem_stem (kind : LabelKind) : Text.IsStem kind.stem := by
  cases kind <;> decide

theorem label_inj {kind kind' : LabelKind} {m n : Nat} (h : kind.label m = kind'.label n) :
    kind = kind' ∧ m = n := by
  obtain ⟨hstem, hnumber⟩ := Text.numbered_inj (isStem_stem kind) (isStem_stem kind') h
  refine ⟨?_, hnumber⟩
  revert hstem
  cases kind <;> cases kind' <;> decide

/-- Between two drafts only instructions were written, none of which jumps. -/
structure Plain (draft draft' : Draft) : Prop where
  written : ∃ instrs : List Instr,
    draft'.listing = draft.listing ++ instrs.map .inr ∧ ∀ instr ∈ instrs, instr.target? = none
  lastTemporary : draft.lastTemporary ≤ draft'.lastTemporary
  last : ∀ kind : LabelKind, kind.last draft' = kind.last draft

namespace Plain

theorem refl (draft : Draft) : Plain draft draft :=
  ⟨⟨[], by simp⟩, Nat.le_refl _, fun _ => rfl⟩

theorem trans (h : Plain draft draft') (h' : Plain draft' draft'') : Plain draft draft'' := by
  obtain ⟨first, hfirst, hplain⟩ := h.written
  obtain ⟨second, hsecond, hplain'⟩ := h'.written
  refine ⟨⟨first ++ second, ?_, ?_⟩, Nat.le_trans h.lastTemporary h'.lastTemporary,
    ?_⟩
  · rw [hsecond, hfirst, List.map_append, List.append_assoc]
  · intro instr hinstr
    rcases List.mem_append.mp hinstr with hmem | hmem
    · exact hplain instr hmem
    · exact hplain' instr hmem
  · intro kind
    rw [h'.last, h.last]

theorem write (draft : Draft) {instr : Instr} (h : instr.target? = none) :
    Plain draft (draft.write instr) := by
  refine ⟨⟨[instr], by simp, ?_⟩, Nat.le_refl _, fun kind => Draft.last_write kind draft instr⟩
  intro other hother
  rw [List.mem_singleton.mp hother]
  exact h

theorem withFresh (draft : Draft) (context : Context) (ty : Code.Ty) :
    Plain draft (draft.withFresh context ty) :=
  ⟨⟨[], by simp⟩, Nat.le_of_lt (lt_nextTemporary context draft.lastTemporary),
    fun kind => Draft.last_withFresh kind draft context ty⟩

theorem allocate (draft : Draft) (target : Variable) (cls : String) :
    Plain draft (draft.allocate target cls) :=
  (write draft rfl).trans (write _ rfl)

theorem keep (draft : Draft) (context : Context) (ty : Code.Ty) (instr : Instr) :
    Plain draft (draft.keep context ty instr) :=
  (withFresh draft context ty).trans (write _ rfl)

end Plain

theorem target?_of_forms {expr : Expr} {operands : List Operand} {instr : Instr}
    (h : Forms context expr operands instr) : instr.target? = none := by
  cases h <;> rfl

theorem plain_of_lowersAll {list : List (Expr × Option Source.Ty)} {operands : List Operand}
    (hparts : ∀ part ∈ list, ∀ {expected instr draft draft'},
      lowerExpr part.1 expected context draft = .ok instr draft' → Plain draft draft')
    (h : LowersAll context list draft operands draft') : Plain draft draft' := by
  induction h with
  | nil draft => exact .refl draft
  | cons first others ih =>
    have hrest := ih fun part hpart => hparts part (List.mem_cons_of_mem _ hpart)
    obtain ⟨instr, middle, hexpr, hsimple⟩ := lowerValue_eq_ok first
    have hfirst := hparts _ List.mem_cons_self hexpr
    rcases hsimple with ⟨_, _, rfl⟩ | ⟨ty, _, rfl⟩
    · exact hfirst.trans hrest
    · exact (hfirst.trans (.keep middle context ty instr)).trans hrest

theorem plain_lowerExpr {expr : Expr} {expected : Option Source.Ty} {instr : Instr}
    (h : lowerExpr expr expected context draft = .ok instr draft') : Plain draft draft' := by
  induction expr using induction_on_parts context generalizing expected instr draft draft' with
  | h expr ih =>
    rcases lowerExpr_eq_ok h with ⟨cls, _, _, rfl⟩ | ⟨operands, hparts, _⟩
    · exact (Plain.withFresh draft context (.object cls)).trans (.allocate _ _ cls)
    · exact plain_of_lowersAll (fun part hpart => ih part hpart) hparts

theorem target?_lowerExpr {expr : Expr} {expected : Option Source.Ty} {instr : Instr}
    (h : lowerExpr expr expected context draft = .ok instr draft') : instr.target? = none := by
  rcases lowerExpr_eq_ok h with ⟨cls, _, rfl, _⟩ | ⟨operands, _, hforms⟩
  · rfl
  · exact target?_of_forms hforms

theorem plain_lowersAll {list : List (Expr × Option Source.Ty)} {operands : List Operand}
    (h : LowersAll context list draft operands draft') : Plain draft draft' :=
  plain_of_lowersAll (fun _ _ => plain_lowerExpr) h

theorem plain_lowerValue {expr : Expr} {expected : Option Source.Ty} {operand : Operand}
    (h : lowerValue expr expected context draft = .ok operand draft') : Plain draft draft' :=
  plain_lowersAll (.cons h (.nil draft'))

theorem plain_lowerCondition {expr : Expr} {cond : Condition}
    (h : lowerCondition expr context draft = .ok cond draft') : Plain draft draft' := by
  obtain ⟨operands, hparts, _⟩ := lowerCondition_eq_ok h
  exact plain_lowersAll hparts

def Taken (draft draft' : Draft) (label : String) : Prop :=
  ∃ (kind : LabelKind) (number : Nat),
    label = kind.label number ∧ kind.last draft < number ∧ number ≤ kind.last draft'

theorem Taken.mono {low low' high high' : Draft} {label : String} (h : Taken low' high label)
    (hlow : ∀ kind : LabelKind, kind.last low ≤ kind.last low')
    (hhigh : ∀ kind : LabelKind, kind.last high ≤ kind.last high') : Taken low high' label := by
  obtain ⟨kind, number, rfl, hlt, hle⟩ := h
  exact ⟨kind, number, rfl, Nat.lt_of_le_of_lt (hlow kind) hlt, Nat.le_trans hle (hhigh kind)⟩

theorem Taken.ne {low high low' high' : Draft} {label label' : String} (h : Taken low high label)
    (h' : Taken low' high' label') (hle : ∀ kind : LabelKind, kind.last high ≤ kind.last low') :
    label ≠ label' := by
  obtain ⟨kind, number, rfl, _, hnumber⟩ := h
  obtain ⟨kind', number', rfl, hnumber', _⟩ := h'
  intro heq
  obtain ⟨rfl, rfl⟩ := label_inj heq
  have := hle kind
  omega

/-- Between two drafts some labels from outside were placed, and besides them only new labels that
are distinct. Jumps go to the new labels, or to those that are known from outside. -/
structure Writes (known placed : List String) (draft draft' : Draft) : Prop where
  written : ∃ (part : Listing Instr) (own : List String),
    draft'.listing = draft.listing ++ part ∧ part.labels.Perm (placed ++ own) ∧ own.Nodup ∧
    (∀ label ∈ own, Taken draft draft' label) ∧
    ∀ instr ∈ part.instrs, ∀ target ∈ instr.target?, target ∈ known ∨ target ∈ own
  lastTemporary : draft.lastTemporary ≤ draft'.lastTemporary
  last : ∀ kind : LabelKind, kind.last draft ≤ kind.last draft'

namespace Writes

variable {known placed placed' : List String}

/-- Code without jumps asks nothing of the labels around it. -/
theorem of_plain (h : Plain draft draft') : Writes known [] draft draft' := by
  obtain ⟨instrs, hlisting, hplain⟩ := h.written
  have hlabels : Listing.labels (instrs.map .inr : Listing Instr) = [] := by
    simp [Listing.labels, List.filterMap_map, Function.comp_def]
  have hinstrs : Listing.instrs (instrs.map .inr : Listing Instr) = instrs := by
    simp [Listing.instrs, List.filterMap_map, Function.comp_def]
  refine ⟨⟨instrs.map .inr, [], hlisting, ?_, List.nodup_nil, nofun, ?_⟩, h.lastTemporary,
    fun kind => Nat.le_of_eq (h.last kind).symm⟩
  · simp [hlabels]
  · intro instr hinstr target htarget
    rw [hinstrs] at hinstr
    rw [hplain instr hinstr] at htarget
    cases htarget

theorem jump (draft : Draft) {instr : Instr} {target : String} (h : instr.target? = some target)
    (hknown : target ∈ known) : Writes known [] draft (draft.write instr) := by
  refine ⟨⟨[.inr instr], [], by simp, by simp, List.nodup_nil, nofun, ?_⟩, Nat.le_refl _,
    fun kind => Nat.le_of_eq (Draft.last_write kind draft instr).symm⟩
  intro other hother target' htarget'
  obtain rfl := List.mem_singleton.mp hother
  rw [h] at htarget'
  cases htarget'
  exact .inl hknown

theorem branch (draft : Draft) (cond : Condition) {target : String} (h : target ∈ known) :
    Writes known [] draft (draft.write (.branch cond target)) := jump draft rfl h

theorem goto (draft : Draft) {target : String} (h : target ∈ known) :
    Writes known [] draft (draft.write (.goto target)) := jump draft rfl h

theorem mark (draft : Draft) (label : String) : Writes known [label] draft (draft.mark label) :=
  ⟨⟨[.inl label], [], by simp, by simp, List.nodup_nil, nofun, nofun⟩, Nat.le_refl _,
    fun kind => Nat.le_of_eq (Draft.last_mark kind draft label).symm⟩

theorem weaken (h : Writes [] placed draft draft') : Writes known placed draft draft' := by
  obtain ⟨part, own, hlisting, hperm, hnodup, htaken, htargets⟩ := h.written
  refine ⟨⟨part, own, hlisting, hperm, hnodup, htaken, ?_⟩, h.lastTemporary, h.last⟩
  intro instr hinstr target htarget
  rcases htargets instr hinstr target htarget with hmem | hmem
  · cases hmem
  · exact .inr hmem

theorem trans (h : Writes known placed draft draft') (h' : Writes known placed' draft' draft'') :
    Writes known (placed ++ placed') draft draft'' := by
  obtain ⟨part, own, hlisting, hperm, hnodup, htaken, htargets⟩ := h.written
  obtain ⟨part', own', hlisting', hperm', hnodup', htaken', htargets'⟩ := h'.written
  refine ⟨⟨part ++ part', own ++ own', ?_, ?_, ?_, ?_, ?_⟩,
    Nat.le_trans h.lastTemporary h'.lastTemporary,
    fun kind => Nat.le_trans (h.last kind) (h'.last kind)⟩
  · rw [hlisting', hlisting, List.append_assoc]
  · rw [Listing.labels_append]
    refine (hperm.append hperm').trans ?_
    rw [List.append_assoc, List.append_assoc]
    exact List.Perm.append_left placed
      (List.perm_append_comm_assoc own placed' own')
  · rw [List.nodup_append]
    refine ⟨hnodup, hnodup', ?_⟩
    intro label hlabel label' hlabel'
    exact (htaken label hlabel).ne (htaken' label' hlabel') fun kind => Nat.le_refl _
  · intro label hlabel
    rcases List.mem_append.mp hlabel with hmem | hmem
    · exact (htaken label hmem).mono (fun kind => Nat.le_refl _) h'.last
    · exact (htaken' label hmem).mono h.last fun kind => Nat.le_refl _
  · intro instr hinstr target htarget
    rw [Listing.instrs_append] at hinstr
    rcases List.mem_append.mp hinstr with hmem | hmem
    · exact (htargets instr hmem target htarget).imp_right (List.mem_append_left _)
    · exact (htargets' instr hmem target htarget).imp_right (List.mem_append_right _)

/-- A construct that takes a number, places all the labels with that number and jumps to no others
from outside needs nothing from outside. -/
theorem close {opened : Draft} {kinds : List LabelKind}
    (h : Writes (kinds.map draft.newLabel) placed opened draft')
    (hlisting : opened.listing = draft.listing)
    (htemporary : opened.lastTemporary = draft.lastTemporary)
    (hlast : ∀ kind : LabelKind, kind.last draft ≤ kind.last opened)
    (htook : ∀ kind ∈ kinds, kind.last draft + 1 = kind.last opened)
    (hkinds : kinds.Nodup) (hplaced : placed.Perm (kinds.map draft.newLabel)) :
    Writes [] [] draft draft' := by
  obtain ⟨part, own, hpart, hperm, hnodup, htaken, htargets⟩ := h.written
  -- the number was taken when the construct was opened, so nothing inside it has the same labels
  have hnew : ∀ label ∈ kinds.map draft.newLabel, Taken draft opened label := by
    intro label hlabel
    obtain ⟨kind, hkind, rfl⟩ := List.mem_map.mp hlabel
    exact ⟨kind, _, rfl, Nat.lt_succ_self _, Nat.le_of_eq (htook kind hkind)⟩
  refine ⟨⟨part, kinds.map draft.newLabel ++ own, ?_, ?_, ?_, ?_, ?_⟩,
    Nat.le_trans (Nat.le_of_eq htemporary.symm) h.lastTemporary,
    fun kind => Nat.le_trans (hlast kind) (h.last kind)⟩
  · rw [hpart, hlisting]
  · exact hperm.trans (hplaced.append_right own)
  · rw [List.nodup_append]
    refine ⟨?_, hnodup, ?_⟩
    · refine List.Pairwise.map _ ?_ hkinds
      intro kind kind' hne heq
      exact hne (label_inj heq).1
    · intro label hlabel label' hlabel'
      exact (hnew label hlabel).ne (htaken label' hlabel') fun kind => Nat.le_refl _
  · intro label hlabel
    rcases List.mem_append.mp hlabel with hmem | hmem
    · exact (hnew label hmem).mono (fun kind => Nat.le_refl _) h.last
    · exact (htaken label hmem).mono hlast fun kind => Nat.le_refl _
  · intro instr hinstr target htarget
    exact .inr (List.mem_append.mpr (htargets instr hinstr target htarget))

end Writes

theorem last_le_withConditional (kind : LabelKind) (draft : Draft) :
    kind.last draft ≤ kind.last draft.withConditional := by
  cases kind <;> simp [LabelKind.last, Draft.withConditional]

theorem last_le_withLoop (kind : LabelKind) (draft : Draft) :
    kind.last draft ≤ kind.last draft.withLoop := by
  cases kind <;> simp [LabelKind.last, Draft.withLoop]

theorem plain_of_held {place : Place} {array : Variable}
    (h : Held context draft place array draft') : Plain draft draft' := by
  cases h with
  | slot => exact .refl draft
  | field field => exact .keep draft context field.ty _

theorem plain_lowerAssign {target : String} {value : Expr}
    (h : lowerAssign target value context draft = .ok () draft') : Plain draft draft' := by
  rcases lowerAssign_eq_ok h with
    ⟨ty, var, _, ⟨cls, _, rfl⟩ | ⟨instr, middle, _, hexpr, rfl⟩⟩ |
    ⟨ty, field, operand, middle, _, hvalue, rfl⟩
  · exact .allocate draft var cls
  · exact (plain_lowerExpr hexpr).trans (.write middle rfl)
  · exact (plain_lowerValue hvalue).trans (.write middle rfl)

theorem plain_lowerAssignElement {target : String} {position value : Expr}
    (h : lowerAssignElement target position value context draft = .ok () draft') :
    Plain draft draft' := by
  obtain ⟨_, _, array, draft₁, operand, draft₂, _, instr, draft₃, codeTy, _, hheld, hposition,
    hvalue, rfl⟩ := lowerAssignElement_eq_ok h
  have hplaces := (plain_of_held hheld).trans (plain_lowerValue hposition)
  exact (hplaces.trans (plain_lowerExpr hvalue)).trans (.write draft₃ rfl)

theorem writes_lowerStmts_of {body : List Stmt}
    (hbody : ∀ stmt ∈ body, ∀ {draft draft'},
      lowerStmt stmt context draft = .ok () draft' → Writes [] [] draft draft')
    (h : lowerStmts body context draft = .ok () draft') : Writes [] [] draft draft' := by
  induction body generalizing draft with
  | nil =>
    obtain ⟨_, rfl⟩ := pure_eq_ok.mp h
    exact .of_plain (.refl draft)
  | cons first rest ih =>
    obtain ⟨middle, hfirst, hrest⟩ := lowerStmts_cons h
    have hhead := hbody first List.mem_cons_self hfirst
    exact hhead.trans (ih (fun stmt hstmt => hbody stmt (List.mem_cons_of_mem _ hstmt)) hrest)

/-- Each construct takes new numbers for its labels, so labels of parts are distinct. -/
theorem writes_lowerStmt {stmt : Stmt} (h : lowerStmt stmt context draft = .ok () draft') :
    Writes [] [] draft draft' := by
  induction stmt using stmt_induction generalizing draft draft' with
  | block body ih => exact writes_lowerStmts_of (fun stmt hstmt => ih stmt hstmt) h
  | ifElse cond onTrue onFalse ihTrue ihFalse =>
    obtain ⟨test, draft₁, draft₂, draft₃, hcond, honFalse, honTrue, rfl⟩ := lowerStmt_ifElse h
    have mem (kind : LabelKind) (hkind : kind ∈ [.onTrue, .endif]) :
        draft.newLabel kind ∈ [.onTrue, .endif].map draft.newLabel := List.mem_map_of_mem hkind
    have htest : Writes ([.onTrue, .endif].map draft.newLabel) [] draft.withConditional draft₁ :=
      .of_plain (plain_lowerCondition hcond)
    have hbranch := htest.trans (.branch draft₁ test (mem .onTrue (by decide)))
    have hfirst := hbranch.trans (ihFalse honFalse).weaken
    have hgoto := hfirst.trans (.goto draft₂ (mem .endif (by decide)))
    have hthen := hgoto.trans (.mark _ (draft.newLabel .onTrue))
    have hsecond := hthen.trans (ihTrue honTrue).weaken
    have hend := hsecond.trans (.mark _ (draft.newLabel .endif))
    exact hend.close rfl rfl (last_le_withConditional · draft)
      (by simp [LabelKind.last, Draft.withConditional]) (by decide) (.refl _)
  | «while» cond body ih =>
    obtain ⟨test, draft₁, draft₂, hcond, hbody, rfl⟩ := lowerStmt_while h
    have mem (kind : LabelKind) (hkind : kind ∈ [.test, .body, .endloop]) :
        draft.newLabel kind ∈ [.test, .body, .endloop].map draft.newLabel :=
      List.mem_map_of_mem hkind
    have htop : Writes ([.test, .body, .endloop].map draft.newLabel) [draft.newLabel .test]
        draft.withLoop (draft.withLoop.mark (draft.newLabel .test)) := .mark _ _
    have htest := htop.trans (.of_plain (plain_lowerCondition hcond))
    have hbranch := htest.trans (.branch draft₁ test (mem .body (by decide)))
    have hleave := hbranch.trans (.goto _ (mem .endloop (by decide)))
    have hstart := hleave.trans (.mark _ (draft.newLabel .body))
    have hround := hstart.trans (ih hbody).weaken
    have hback := hround.trans (.goto draft₂ (mem .test (by decide)))
    have hend := hback.trans (.mark _ (draft.newLabel .endloop))
    exact hend.close rfl rfl (last_le_withLoop · draft) (by simp [LabelKind.last, Draft.withLoop])
      (by decide) (.refl _)
  | assign target value => exact .of_plain (plain_lowerAssign h)
  | assignElement target position value => exact .of_plain (plain_lowerAssignElement h)
  | expr value =>
    obtain ⟨instr, middle, hexpr, rfl⟩ := lowerStmt_expr h
    exact .of_plain ((plain_lowerExpr hexpr).trans (.write middle (target?_lowerExpr hexpr)))

/-- The code of a method is written up to its only return, which is its last instruction. -/
theorem writes_lowerBody {method : Source.Method}
    (h : lowerBody method context draft = .ok () draft'') :
    ∃ draft' ty value, Writes [] [] draft draft' ∧ draft'' = draft'.write (.ret ty value) := by
  obtain ⟨middle, hbody, hend⟩ := lowerBody_eq_ok h
  have hstmts := writes_lowerStmts_of (fun _ _ => writes_lowerStmt) hbody
  rcases hend with ⟨_, rfl⟩ | ⟨result, operand, middle', _, _, hvalue, rfl⟩
  · exact ⟨middle, _, _, hstmts, rfl⟩
  · exact ⟨middle', _, _, hstmts.trans (.of_plain (plain_lowerValue hvalue)), rfl⟩

section

variable {table : Source.SymbolTable} {method : Source.Method} {code : Code.Method}

/-- A lowered method has labels of the known kinds, each once, and jumps to no others. -/
theorem labels_lowerMethod (h : lowerMethod table method = .ok code) :
    (Code.listing code.body).labels.Nodup ∧
    (∀ label ∈ (Code.listing code.body).labels, ∃ (kind : LabelKind) (number : Nat),
      label = kind.label number) ∧
    ∀ instr ∈ (Code.listing code.body).instrs, ∀ target ∈ instr.target?,
      target ∈ (Code.listing code.body).labels := by
  obtain ⟨scope, draft, _, hbody, hpending, hcode, _⟩ := lowerMethod_eq_ok h
  obtain ⟨draft', ty, value, hwrites, rfl⟩ := writes_lowerBody hbody
  have hret : Plain draft' (draft'.write (.ret ty value)) := .write draft' rfl
  have hall := hwrites.trans (.of_plain hret)
  obtain ⟨part, own, hpart, hperm, hnodup, htaken, htargets⟩ := hall.written
  have hlisting : Code.listing code.body = part := by
    rw [hcode, Draft.listing_of_pending hpending, hpart]
    rfl
  rw [hlisting]
  refine ⟨hperm.nodup_iff.mpr hnodup, ?_, ?_⟩
  · intro label hlabel
    obtain ⟨kind, number, hkind, _⟩ := htaken label (hperm.mem_iff.mp hlabel)
    exact ⟨kind, number, hkind⟩
  · intro instr hinstr target htarget
    rcases htargets instr hinstr target htarget with hmem | hmem
    · cases hmem
    · exact hperm.mem_iff.mpr hmem

theorem getLast?_lowerMethod (h : lowerMethod table method = .ok code) :
    ∃ labels ty value, code.body.getLast? = some ⟨labels, .ret ty value⟩ := by
  obtain ⟨scope, draft, _, hbody, _, hcode, _⟩ := lowerMethod_eq_ok h
  obtain ⟨draft', ty, value, _, rfl⟩ := writes_lowerBody hbody
  refine ⟨draft'.pending, ty, value, ?_⟩
  simp [hcode, Draft.write]

end

end ClassCompiler.Lowering
