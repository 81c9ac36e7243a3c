import ClassCompiler.Proofs.Outcome
import ClassCompiler.Proofs.Stack.Machine
import ClassCompiler.Proofs.Text.Numbered

/-!
# The layout of a body

A body has one segment for each line of code: the labels of the line, then the items of its
instruction. Where the labels of the code are distinct and none looks like a label of a comparison,
all labels of the body are distinct, and a label of the code stands where the segment of its line
begins.
-/

namespace ClassCompiler.Stack

open Code (Labeled Operand Variable place?)
open Machine (Listing)
open Machine.Listing (Stands)

@[simp] theorem listing_append (left right : List Item) :
    listing (left ++ right) = listing left ++ listing right := List.map_append

@[simp] theorem listing_nil : listing [] = [] := rfl

@[simp] theorem listing_label (name : String) (rest : List Item) :
    listing (.label name :: rest) = .inl name :: listing rest := rfl

@[simp] theorem listing_instr (instr : Instr) (rest : List Item) :
    listing (.instr instr :: rest) = .inr instr :: listing rest := rfl

@[simp] theorem listing_instrs_cons (instr : Instr) (rest : List Instr) :
    listing (instrs (instr :: rest)) = .inr instr :: listing (instrs rest) := rfl

@[simp] theorem listing_instrs_nil : listing (instrs []) = [] := rfl

theorem branchItems_eq {op : BinOp} (hop : op ≠ .lt) (target : String) :
    branchItems target op = operatorItems 0 op ++ instrs [.ifne target] := by
  cases op <;> first | rfl | exact absurd rfl hop

def segment (cls : Code.Class) (method : String) (optimize : Bool) (number : Nat)
    (line : Labeled) : Except Fault (List Item) := do
  let items ← statementItems cls method optimize number line.instr
  return line.labels.map .label ++ items

/-- The segments of some lines; comparisons are numbered from the given number. -/
def segments (cls : Code.Class) (method : String) (optimize : Bool) (number : Nat) :
    List Labeled → Except Fault (List (List Item))
  | [] => .ok []
  | line :: rest => do
    let first ← segment cls method optimize number line
    let others ← segments cls method optimize
      (if isComparison line.instr then number + 1 else number) rest
    return first :: others

section

variable {cls : Code.Class} {method : String} {optimize : Bool} {number : Nat}

theorem add_of_le {draft : Draft} {instr : Instr} (h : instr.taken ≤ draft.depth) :
    draft.add (.instr instr) = .ok (draft.push instr) := by
  rw [Draft.add, Draft.attempt, if_neg (UInt16.not_lt.mpr h)]

theorem add_of_lt {draft : Draft} {instr : Instr} (h : draft.depth < instr.taken) :
    draft.add (.instr instr) = .error (.underflow instr) := by
  rw [Draft.add, Draft.attempt, if_pos h]

/-- An item is written, or it is an instruction that takes more than the stack holds. -/
theorem add_cases (draft : Draft) (item : Item) :
    (∃ label, item = .label label ∧ draft.add item = .ok (draft.mark label)) ∨
    (∃ instr, item = .instr instr ∧ instr.taken ≤ draft.depth ∧
      draft.add item = .ok (draft.push instr)) ∨
    ∃ instr, item = .instr instr ∧ draft.depth < instr.taken ∧
      draft.add item = .error (.underflow instr) := by
  cases item with
  | label label => exact .inl ⟨label, rfl, rfl⟩
  | instr instr =>
    by_cases h : draft.depth < instr.taken
    · exact .inr (.inr ⟨instr, rfl, h, add_of_lt h⟩)
    · exact .inr (.inl ⟨instr, rfl, UInt16.not_lt.mp h, add_of_le (UInt16.not_lt.mp h)⟩)

theorem items_of_add {draft next : Draft} {item : Item} (h : draft.add item = .ok next) :
    next.items.toList = draft.items.toList ++ [item] := by
  rcases add_cases draft item with
    ⟨label, rfl, hadd⟩ | ⟨instr, rfl, _, hadd⟩ | ⟨instr, rfl, _, hadd⟩
  · cases hadd.symm.trans h
    simp [Draft.mark]
  · cases hadd.symm.trans h
    simp [Draft.push]
  · cases hadd.symm.trans h

theorem items_of_foldlM_add {draft next : Draft} {items : List Item}
    (h : items.foldlM Draft.add draft = .ok next) :
    next.items.toList = draft.items.toList ++ items := by
  induction items generalizing draft with
  | nil => cases h; simp
  | cons item rest ih =>
    rw [List.foldlM_cons] at h
    obtain ⟨middle, hitem, hrest⟩ := Outcome.bind_eq_ok.mp h
    rw [ih hrest, items_of_add hitem, List.append_assoc, List.singleton_append]

theorem items_of_foldl_mark (draft : Draft) (labels : List String) :
    (labels.foldl Draft.mark draft).items.toList =
      draft.items.toList ++ labels.map .label := by
  induction labels generalizing draft with
  | nil => simp
  | cons label rest ih =>
    rw [List.foldl_cons, ih]
    simp [Draft.mark]

/-- What writing a line takes: its items, written after its labels, leave nothing on the stack. -/
theorem addLine_eq_ok {draft next : Draft} {line : Labeled} :
    draft.addLine cls method optimize number line = .ok next ↔
      ∃ items, statementItems cls method optimize number line.instr = .ok items ∧
        items.foldlM Draft.add (line.labels.foldl Draft.mark draft) = .ok next ∧
        next.depth = 0 := by
  rw [Draft.addLine]
  constructor
  · intro h
    obtain ⟨items, hitems, h⟩ := Outcome.bind_eq_ok.mp h
    obtain ⟨next', hnext, h⟩ := Outcome.bind_eq_ok.mp h
    split at h
    · next hdepth =>
      obtain rfl := Outcome.pure_eq_ok.mp h
      exact ⟨items, hitems, hnext, hdepth⟩
    · cases h
  · rintro ⟨items, hitems, hnext, hdepth⟩
    refine Outcome.bind_eq_ok.mpr ⟨items, hitems, Outcome.bind_eq_ok.mpr ⟨next, hnext, ?_⟩⟩
    rw [if_pos hdepth]
    rfl

theorem segment_of_addLine {draft next : Draft} {line : Labeled}
    (h : draft.addLine cls method optimize number line = .ok next) :
    ∃ items, segment cls method optimize number line = .ok items ∧
      next.items.toList = draft.items.toList ++ items := by
  obtain ⟨items, hitems, hnext, _⟩ := addLine_eq_ok.mp h
  refine ⟨line.labels.map .label ++ items, ?_, ?_⟩
  · rw [segment, hitems]
    rfl
  · rw [items_of_foldlM_add hnext, items_of_foldl_mark, List.append_assoc]

/-- Writing lines adds their segments, whatever the depths are. -/
theorem segments_of_addLines {draft next : Draft} {lines : List Labeled}
    (h : Draft.addLines cls method optimize number draft lines = .ok next) :
    ∃ segs, segments cls method optimize number lines = .ok segs ∧
      next.items.toList = draft.items.toList ++ segs.flatten := by
  induction lines generalizing draft number with
  | nil =>
    cases h
    exact ⟨[], rfl, by simp⟩
  | cons line rest ih =>
    rw [Draft.addLines] at h
    obtain ⟨middle, hline, hrest⟩ := Outcome.bind_eq_ok.mp h
    obtain ⟨items, hsegment, hitems⟩ := segment_of_addLine hline
    obtain ⟨segs, hsegs, hflatten⟩ := ih hrest
    refine ⟨items :: segs, ?_, ?_⟩
    · rw [segments, hsegment, Outcome.ok_bind, hsegs]
      rfl
    · rw [hflatten, hitems, List.flatten_cons, List.append_assoc]

/-- The body of a method is made of its segments. -/
theorem segments_of_bodyOf {code : Code.Method} {body : Body}
    (h : bodyOf cls code optimize = .ok body) :
    ∃ segs draft, segments cls code.name optimize 1 code.body = .ok segs ∧
      body.items = segs.flatten ∧
      Draft.addLines cls code.name optimize 1 Draft.initial code.body = .ok draft ∧
      body = draft.finish := by
  rw [bodyOf] at h
  obtain ⟨draft, hdraft, h⟩ := Outcome.bind_eq_ok.mp h
  obtain rfl := Outcome.pure_eq_ok.mp h
  obtain ⟨segs, hsegs, hitems⟩ := segments_of_addLines hdraft
  exact ⟨segs, draft, hsegs, by simpa [Draft.finish, Draft.initial] using hitems, hdraft, rfl⟩

/-- Every line has a segment, at its own index. -/
theorem segments_getElem? {lines : List Labeled} {segs : List (List Item)} {index : Nat}
    {line : Labeled} (h : segments cls method optimize number lines = .ok segs)
    (hline : lines[index]? = some line) :
    ∃ number' items, segment cls method optimize number' line = .ok items ∧
      segs[index]? = some items := by
  induction lines generalizing number segs index with
  | nil => simp at hline
  | cons first rest ih =>
    rw [segments] at h
    obtain ⟨items, hitems, h⟩ := Outcome.bind_eq_ok.mp h
    obtain ⟨others, hothers, h⟩ := Outcome.bind_eq_ok.mp h
    obtain rfl := Outcome.pure_eq_ok.mp h
    cases index with
    | zero =>
      obtain rfl : first = line := by simpa using hline
      exact ⟨number, items, hitems, by simp⟩
    | succ index =>
      obtain ⟨number', items', hitems', hget⟩ := ih hothers (by simpa using hline)
      exact ⟨number', items', hitems', by simpa using hget⟩

/-- Every segment is that of a line. -/
theorem line_of_segments {lines : List Labeled} {segs : List (List Item)} {index : Nat}
    {seg : List Item} (h : segments cls method optimize number lines = .ok segs)
    (hseg : segs[index]? = some seg) :
    ∃ line number' items, lines[index]? = some line ∧
      statementItems cls method optimize number' line.instr = .ok items ∧
      seg = line.labels.map .label ++ items := by
  induction lines generalizing number segs index with
  | nil =>
    cases h
    cases hseg
  | cons first rest ih =>
    rw [segments] at h
    obtain ⟨firstSeg, hfirst, h⟩ := Outcome.bind_eq_ok.mp h
    obtain ⟨others, hothers, h⟩ := Outcome.bind_eq_ok.mp h
    obtain rfl := Outcome.pure_eq_ok.mp h
    cases index with
    | zero =>
      obtain rfl : firstSeg = seg := by simpa using hseg
      obtain ⟨items, hitems, hfirst⟩ := Outcome.bind_eq_ok.mp hfirst
      exact ⟨first, number, items, rfl, hitems, (Outcome.pure_eq_ok.mp hfirst).symm⟩
    | succ index => exact ih hothers (by simpa using hseg)

@[simp] theorem labels_instrs (list : List Instr) : (listing (instrs list)).labels = [] := by
  induction list with
  | nil => rfl
  | cons instr rest ih => exact ih

theorem labels_loadVariable {var : Variable} {items : List Item}
    (h : loadVariable method var = .ok items) : (listing items).labels = [] := by
  rw [loadVariable] at h
  obtain ⟨slot, _, h⟩ := Outcome.bind_eq_ok.mp h
  obtain rfl := Outcome.pure_eq_ok.mp h
  exact labels_instrs _

theorem labels_loadOperand {operand : Operand} {items : List Item}
    (h : loadOperand method operand = .ok items) : (listing items).labels = [] := by
  induction operand generalizing items with
  | literal => cases h; rfl
  | var var => exact labels_loadVariable h
  | element array index ty ih =>
    rw [loadOperand] at h
    obtain ⟨arrayItems, harray, h⟩ := Outcome.bind_eq_ok.mp h
    obtain ⟨indexItems, hindex, h⟩ := Outcome.bind_eq_ok.mp h
    obtain rfl := Outcome.pure_eq_ok.mp h
    simp [labels_loadVariable harray, ih hindex]

theorem labels_loadOperands {operands : List Operand} {items : List Item}
    (h : loadOperands method operands = .ok items) : (listing items).labels = [] := by
  induction operands generalizing items with
  | nil => cases h; rfl
  | cons first rest ih =>
    rw [loadOperands] at h
    obtain ⟨firstItems, hfirst, h⟩ := Outcome.bind_eq_ok.mp h
    obtain ⟨restItems, hrest, h⟩ := Outcome.bind_eq_ok.mp h
    obtain rfl := Outcome.pure_eq_ok.mp h
    simp [labels_loadOperand hfirst, ih hrest]

theorem labels_storeVariable {var : Variable} {items : List Item}
    (h : storeVariable method var = .ok items) : (listing items).labels = [] := by
  rw [storeVariable] at h
  split at h
  · cases h
  · obtain ⟨slot, _, h⟩ := Outcome.bind_eq_ok.mp h
    obtain rfl := Outcome.pure_eq_ok.mp h
    exact labels_instrs _

theorem labels_invocationItems {kind : InvokeKind} {owner name : String}
    {operands args : List Operand} {returnTy : Code.Ty} {items : List Item}
    (h : invocationItems cls method kind owner name operands args returnTy = .ok items) :
    (listing items).labels = [] := by
  rw [invocationItems] at h
  obtain ⟨loads, hloads, h⟩ := Outcome.bind_eq_ok.mp h
  obtain rfl := Outcome.pure_eq_ok.mp h
  simp [labels_loadOperands hloads]

/-- The items of a call have no labels. -/
theorem labels_callItems {kind : Code.CallKind} {target : Operand} {name? : Option String}
    {args : List Operand} {returnTy : Code.Ty} {items : List Item}
    (h : callItems cls method kind target name? args returnTy = .ok items) :
    (listing items).labels = [] := by
  cases kind with
  | special =>
    obtain ⟨owner, _, h⟩ := Outcome.bind_eq_ok.mp h
    exact labels_invocationItems h
  | virtual | static =>
    cases name? with
    | none => cases h
    | some name =>
      obtain ⟨owner, _, h⟩ := Outcome.bind_eq_ok.mp h
      exact labels_invocationItems h
  | newObject =>
    cases target with
    | var var => cases h; rfl
    | literal | element => cases h
  | newArray =>
    obtain ⟨size, hsize, h⟩ := Outcome.bind_eq_ok.mp h
    split at h
    · obtain rfl := Outcome.pure_eq_ok.mp h
      simp [labels_loadOperand hsize]
    · cases h
  | arrayLength =>
    obtain ⟨array, harray, h⟩ := Outcome.bind_eq_ok.mp h
    obtain rfl := Outcome.pure_eq_ok.mp h
    simp [labels_loadOperand harray]

def labelsOfComparison (number : Nat) : List String :=
  [(comparisonLabels number).1, (comparisonLabels number).2]

/-- Only a comparison has labels of its own. -/
theorem labels_valueItems {instr : Code.Instr} {items : List Item}
    (h : valueItems cls method number instr = .ok items) :
    (listing items).labels = if isComparison instr then labelsOfComparison number else [] := by
  cases instr with
  | load operand => exact labels_loadOperand h
  | binary op left right =>
    obtain ⟨loads, hloads, h⟩ := Outcome.bind_eq_ok.mp h
    obtain rfl := Outcome.pure_eq_ok.mp h
    rw [listing_append, Listing.labels_append, labels_loadOperands hloads]
    cases op <;> rfl
  | not operand =>
    obtain ⟨load, hload, h⟩ := Outcome.bind_eq_ok.mp h
    obtain rfl := Outcome.pure_eq_ok.mp h
    simp [labels_loadOperand hload, isComparison]
  | call kind target name? args returnTy =>
    rw [valueItems] at h
    split at h
    · cases h
    · exact labels_callItems h
  | getField object field =>
    obtain ⟨load, hload, h⟩ := Outcome.bind_eq_ok.mp h
    obtain rfl := Outcome.pure_eq_ok.mp h
    simp [labels_loadOperand hload, isComparison]
  | assign | putField | branch | goto | ret => cases h

theorem isComparison_of_increment? {dest : Operand} {value : Code.Instr} {slot : UInt16}
    {delta : Int32} (h : increment? dest value = some (slot, delta)) :
    isComparison value = false := by
  cases value with
  | binary op left right =>
    cases op with
    | lt =>
      cases dest with
      | var var => simp [increment?, addedConstant?] at h
      | literal | element => cases h
    | add | sub | mul | div | and => rfl
  | assign dest' ty value' =>
    cases dest with
    | var var => simp [increment?, addedConstant?] at h
    | literal | element => cases h
  | not | call | getField | putField | branch | goto | ret | load => rfl

theorem labels_assignItems {dest : Operand} {value : Code.Instr} {items : List Item}
    (h : assignItems cls method optimize number dest value = .ok items) :
    (listing items).labels = if isComparison value then labelsOfComparison number else [] := by
  unfold assignItems at h
  split at h
  · next slot delta hincrement =>
    cases h
    have hvalue : isComparison value = false := by
      split at hincrement
      · exact isComparison_of_increment? hincrement
      · cases hincrement
    rw [hvalue]
    rfl
  · cases dest with
    | var var =>
      obtain ⟨valueItems, hvalue, h⟩ := Outcome.bind_eq_ok.mp h
      obtain ⟨store, hstore, h⟩ := Outcome.bind_eq_ok.mp h
      obtain rfl := Outcome.pure_eq_ok.mp h
      simp [labels_valueItems hvalue, labels_storeVariable hstore]
    | element array index ty =>
      obtain ⟨arrayItems, harray, h⟩ := Outcome.bind_eq_ok.mp h
      obtain ⟨indexItems, hindex, h⟩ := Outcome.bind_eq_ok.mp h
      obtain ⟨valueItems, hvalue, h⟩ := Outcome.bind_eq_ok.mp h
      obtain rfl := Outcome.pure_eq_ok.mp h
      simp [labels_valueItems hvalue, labels_loadVariable harray, labels_loadOperand hindex]
    | literal => cases h

/-- An instruction has labels in its items only if it is a comparison. -/
theorem labels_statementItems {instr : Code.Instr} {items : List Item}
    (h : statementItems cls method optimize number instr = .ok items) :
    (listing items).labels = if isComparison instr then labelsOfComparison number else [] := by
  cases instr with
  | assign dest ty value =>
    have hassign : assignItems cls method optimize number dest value = .ok items := h
    rw [labels_assignItems hassign]
    rfl
  | call kind target name? args returnTy =>
    obtain ⟨call, hcall, h⟩ := Outcome.bind_eq_ok.mp h
    obtain rfl := Outcome.pure_eq_ok.mp h
    split <;> simp [labels_callItems hcall, isComparison]
  | putField object field value =>
    obtain ⟨loads, hloads, h⟩ := Outcome.bind_eq_ok.mp h
    obtain rfl := Outcome.pure_eq_ok.mp h
    simp [labels_loadOperands hloads, isComparison]
  | branch cond target =>
    rw [statementItems] at h
    cases cond with
    | binary op left right =>
      obtain ⟨loads, hloads, h⟩ := Outcome.bind_eq_ok.mp h
      obtain rfl := Outcome.pure_eq_ok.mp h
      rw [listing_append, Listing.labels_append, labels_loadOperands hloads]
      cases op <;> rfl
    | not operand | holds operand =>
      obtain ⟨load, hload, h⟩ := Outcome.bind_eq_ok.mp h
      obtain rfl := Outcome.pure_eq_ok.mp h
      simp [labels_loadOperand hload, isComparison]
  | goto target => cases h; rfl
  | ret ty value =>
    cases value with
    | none => cases h; rfl
    | some value =>
      obtain ⟨load, hload, h⟩ := Outcome.bind_eq_ok.mp h
      obtain rfl := Outcome.pure_eq_ok.mp h
      simp [labels_loadOperand hload, isComparison]
  | binary | not | getField | load =>
    obtain ⟨value, hvalue, h⟩ := Outcome.bind_eq_ok.mp h
    obtain rfl := Outcome.pure_eq_ok.mp h
    simp [labels_valueItems hvalue]

theorem labels_segment {line : Labeled} {items : List Item}
    (h : segment cls method optimize number line = .ok items) :
    (listing items).labels =
      line.labels ++ if isComparison line.instr then labelsOfComparison number else [] := by
  obtain ⟨stmt, hstmt, h⟩ := Outcome.bind_eq_ok.mp h
  obtain rfl := Outcome.pure_eq_ok.mp h
  have hlabels : (listing (line.labels.map .label)).labels = line.labels := by
    induction line.labels with
    | nil => rfl
    | cons label rest ih => simp [ih]
  rw [listing_append, Listing.labels_append, hlabels, labels_statementItems hstmt]

end

def labelsOf (lines : List Labeled) : List String := lines.flatMap (·.labels)

/-- Code whose labels are distinct and defined, and none is kept for comparisons. -/
structure WellLabeled (lines : List Labeled) : Prop where
  distinct : (labelsOf lines).Nodup
  defined : ∀ line ∈ lines, ∀ target ∈ line.instr.target?, target ∈ labelsOf lines
  plain : ∀ label ∈ labelsOf lines, ∀ number, label ∉ labelsOfComparison number

/-- A label that is defined has a place. -/
theorem place?_of_mem_labelsOf {lines : List Labeled} {label : String}
    (h : label ∈ labelsOf lines) : ∃ index, place? lines label = some index := by
  obtain ⟨line, hline, hlabel⟩ := List.mem_flatMap.mp h
  cases hplace : place? lines label with
  | some index => exact ⟨index, rfl⟩
  | none =>
    have hnot := List.findIdx?_eq_none_iff.mp hplace line hline
    exact absurd hlabel (of_decide_eq_false hnot)

theorem comparisonLabels_inj {label : String} {m n : Nat} (hm : label ∈ labelsOfComparison m)
    (hn : label ∈ labelsOfComparison n) : m = n := by
  have stem : Text.IsStem "cmp_true_" ∧ Text.IsStem "cmp_end_" := by decide
  simp only [labelsOfComparison, comparisonLabels, List.mem_cons, List.not_mem_nil,
    or_false] at hm hn
  rcases hm with rfl | rfl <;> rcases hn with hn | hn
  · exact (Text.numbered_inj stem.1 stem.1 hn).2
  · exact (Text.numbered_inj stem.1 stem.2 hn).2
  · exact (Text.numbered_inj stem.2 stem.1 hn).2
  · exact (Text.numbered_inj stem.2 stem.2 hn).2

theorem nodup_labelsOfComparison (number : Nat) : (labelsOfComparison number).Nodup := by
  have stem : Text.IsStem "cmp_true_" ∧ Text.IsStem "cmp_end_" := by decide
  have hne : (comparisonLabels number).1 ≠ (comparisonLabels number).2 := by
    intro heq
    have hstems := (Text.numbered_inj stem.1 stem.2 heq).1
    revert hstems
    decide
  simp [labelsOfComparison, hne]

section

variable {cls : Code.Class} {method : String} {optimize : Bool} {number : Nat}
  {lines : List Labeled} {segs : List (List Item)}

/-- Every label of the segments is one of the code or of a comparison. -/
theorem mem_labels_segments (h : segments cls method optimize number lines = .ok segs)
    {label : String} (hmem : label ∈ (listing segs.flatten).labels) :
    label ∈ labelsOf lines ∨ ∃ number' ≥ number, label ∈ labelsOfComparison number' := by
  induction lines generalizing number segs with
  | nil =>
    cases h
    cases hmem
  | cons line rest ih =>
    rw [segments] at h
    obtain ⟨items, hitems, h⟩ := Outcome.bind_eq_ok.mp h
    obtain ⟨others, hothers, h⟩ := Outcome.bind_eq_ok.mp h
    obtain rfl := Outcome.pure_eq_ok.mp h
    rw [List.flatten_cons, listing_append, Listing.labels_append, labels_segment hitems,
      List.mem_append, List.mem_append] at hmem
    rw [labelsOf, List.flatMap_cons, List.mem_append]
    rcases hmem with (hline | hcomparison) | hrest
    · exact .inl (.inl hline)
    · split at hcomparison
      · exact .inr ⟨number, Nat.le_refl number, hcomparison⟩
      · cases hcomparison
    · rcases ih hothers hrest with hlabel | ⟨number', hle, hlabel⟩
      · exact .inl (.inr hlabel)
      · refine .inr ⟨number', Nat.le_trans ?_ hle, hlabel⟩
        split <;> omega

/-- Labels of lines are distinct, and those of comparisons are told apart by their numbers. -/
theorem nodup_labels_segments (h : segments cls method optimize number lines = .ok segs)
    (distinct : (labelsOf lines).Nodup)
    (plain : ∀ label ∈ labelsOf lines, ∀ number, label ∉ labelsOfComparison number) :
    (listing segs.flatten).labels.Nodup := by
  induction lines generalizing number segs with
  | nil =>
    cases h
    exact List.nodup_nil
  | cons line rest ih =>
    rw [segments] at h
    obtain ⟨items, hitems, h⟩ := Outcome.bind_eq_ok.mp h
    obtain ⟨others, hothers, h⟩ := Outcome.bind_eq_ok.mp h
    obtain rfl := Outcome.pure_eq_ok.mp h
    rw [labelsOf, List.flatMap_cons] at distinct plain
    obtain ⟨hline, hrest, hdisjoint⟩ := List.nodup_append.mp distinct
    rw [List.flatten_cons, listing_append, Listing.labels_append, labels_segment hitems,
      List.append_assoc]
    have hplain : ∀ label ∈ line.labels, ∀ number', label ∉ labelsOfComparison number' :=
      fun label hlabel => plain label (List.mem_append_left _ hlabel)
    have hplain' : ∀ label ∈ labelsOf rest, ∀ number', label ∉ labelsOfComparison number' :=
      fun label hlabel => plain label (List.mem_append_right _ hlabel)
    have hothers' := ih hothers hrest hplain'
    refine List.nodup_append.mpr ⟨hline, List.nodup_append.mpr ⟨?_, hothers', ?_⟩, ?_⟩
    · split
      · exact nodup_labelsOfComparison number
      · exact List.nodup_nil
    · -- the comparisons of later lines have higher numbers
      rintro label hlabel _ hlater rfl
      split at hlabel
      · next hcomparison =>
        rw [if_pos hcomparison] at hothers
        rcases mem_labels_segments hothers hlater with hcode | ⟨number', hle, hlabel'⟩
        · exact hplain' label hcode number hlabel
        · have := comparisonLabels_inj hlabel hlabel'
          omega
      · cases hlabel
    · rintro label hlabel _ hlater rfl
      rcases List.mem_append.mp hlater with hcomparison | hothers''
      · split at hcomparison
        · exact hplain label hlabel number hcomparison
        · cases hcomparison
      · rcases mem_labels_segments hothers hothers'' with hcode | ⟨number', _, hlabel'⟩
        · exact hdisjoint label hlabel label hcode rfl
        · exact hplain label hlabel number' hlabel'

end

/-- The address at which the segment of a line begins. -/
def entry (segs : List (List Item)) (index : Nat) : Nat :=
  (listing (segs.take index).flatten).size

theorem stands_segment {segs : List (List Item)} {index : Nat} {items : List Item}
    (h : segs[index]? = some items) :
    Stands (listing segs.flatten) (entry segs index) (listing items) := by
  obtain ⟨hlt, rfl⟩ := List.getElem?_eq_some_iff.mp h
  refine ⟨listing (segs.take index).flatten, listing (segs.drop (index + 1)).flatten, ?_, rfl⟩
  have hsplit : segs = segs.take index ++ segs[index] :: segs.drop (index + 1) := by
    rw [← List.drop_eq_getElem_cons hlt, List.take_append_drop]
  rw [← listing_append, ← listing_append]
  refine congrArg listing ((congrArg List.flatten hsplit).trans ?_)
  simp only [List.flatten_append, List.flatten_cons, List.append_assoc]

theorem entry_succ {segs : List (List Item)} {index : Nat} {items : List Item}
    (h : segs[index]? = some items) :
    entry segs (index + 1) = entry segs index + (listing items).size := by
  rw [entry, entry, List.take_add_one, h]
  simp

theorem size_labels (labels : List String) : (listing (labels.map .label)).size = 0 := by
  induction labels with
  | nil => rfl
  | cons label rest ih => exact ih

/-- A label of the code is the address at which the segment of its line begins. -/
theorem address?_of_place? {cls : Code.Class} {method : String} {optimize : Bool} {number : Nat}
    {lines : List Labeled} {segs : List (List Item)} {label : String} {index : Nat}
    (h : segments cls method optimize number lines = .ok segs)
    (distinct : (listing segs.flatten).labels.Nodup) (hplace : place? lines label = some index) :
    (listing segs.flatten).address? label = some (entry segs index) := by
  obtain ⟨hlt, hmem, _⟩ := List.findIdx?_eq_some_iff_getElem.mp hplace
  obtain ⟨number', items, hitems, hget⟩ := segments_getElem? h (List.getElem?_eq_getElem hlt)
  obtain ⟨stmt, _, hitems⟩ := Outcome.bind_eq_ok.mp hitems
  obtain rfl := Outcome.pure_eq_ok.mp hitems
  obtain ⟨before, after, hlabels⟩ := List.append_of_mem (of_decide_eq_true hmem)
  have hstands := stands_segment hget
  rw [hlabels] at hstands
  simp only [List.map_append, List.map_cons, List.append_assoc, listing_append] at hstands
  have hlabel := hstands.right
  rw [size_labels, Nat.add_zero] at hlabel
  exact Stands.address?_eq hlabel distinct

end ClassCompiler.Stack
