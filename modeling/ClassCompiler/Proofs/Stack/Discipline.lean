import ClassCompiler.Proofs.Stack.Calls
import ClassCompiler.Proofs.Stack.Compiled
import Mathlib.Data.List.Chain

/-!
# Stack discipline

Every item of a body has one depth of the operand stack, whichever way control gets to it. Between
the lines of the code the stack is empty, so that is the depth at all labels of the code; the labels
of a comparison are reached from inside it only. The depth that the frame provides for is the
greatest of them, unless 16 bits are too few for it.
-/

namespace ClassCompiler.Stack

open Code (Labeled)

/-- Items, each with the depth of the stack before it. -/
abbrev Trace := List (Item × Nat)

def Item.pops : Item → Nat
  | .label _ => 0
  | .instr step => step.pops

def Item.after (depth : Nat) : Item → Nat
  | .label _ => depth
  | .instr step => depth - step.pops + step.pushes

def Item.endsBlock : Item → Bool
  | .label _ => false
  | .instr step => step.endsBlock

def Item.target? : Item → Option String
  | .label _ => none
  | .instr step => step.target?

/-- Depths that agree with what the items do, whether control falls through or jumps. -/
structure Consistent (trace : Trace) : Prop where
  first : ∃ item rest, trace = (item, 0) :: rest
  pops : ∀ entry ∈ trace, entry.1.pops ≤ entry.2
  falls : trace.IsChain fun entry next =>
    entry.1.endsBlock = false → next.2 = entry.1.after entry.2
  jumps : ∀ entry ∈ trace, ∀ target ∈ entry.1.target?,
    (.label target, entry.1.after entry.2) ∈ trace

/-- A body whose labels are in order, which ends in a return, and whose items have depths that are
consistent. -/
structure Disciplined (body : Body) (trace : Trace) : Prop where
  distinct : (listing body.items).labels.Nodup
  defined : ∀ item ∈ body.items, ∀ target ∈ item.target?, .label target ∈ body.items
  returns : ∃ instr ∈ [Instr.ireturn, .areturn, .return], body.items.getLast? = some (.instr instr)
  items : trace.map (·.1) = body.items
  consistent : Consistent trace

/-- A trace from one depth to another, along which control falls through. -/
inductive Threads : Nat → Trace → Nat → Prop where
  | nil (depth : Nat) : Threads depth [] depth
  | cons {item : Item} {depth next last : Nat} {rest : Trace} (pops : item.pops ≤ depth)
    (falls : item.endsBlock = false → next = item.after depth) (h : Threads next rest last) :
    Threads depth ((item, depth) :: rest) last

namespace Threads

variable {first middle last : Nat} {trace trace' : Trace}

theorem append (h : Threads first trace middle) (h' : Threads middle trace' last) :
    Threads first (trace ++ trace') last := by
  induction h with
  | nil => exact h'
  | cons pops falls _ ih => exact .cons pops falls (ih h')

theorem pops (h : Threads first trace last) : ∀ entry ∈ trace, entry.1.pops ≤ entry.2 := by
  induction h with
  | nil => nofun
  | cons pops _ _ ih =>
    intro entry hentry
    rcases List.mem_cons.mp hentry with rfl | hmem
    · exact pops
    · exact ih entry hmem

theorem head (h : Threads first trace last) : ∀ entry ∈ trace.head?, entry.2 = first := by
  intro entry hentry
  cases h with
  | nil => cases hentry
  | cons => cases hentry; rfl

theorem isChain (h : Threads first trace last) : trace.IsChain fun entry next =>
    entry.1.endsBlock = false → next.2 = entry.1.after entry.2 := by
  induction h with
  | nil => exact .nil
  | cons _ falls h ih =>
    refine ih.cons ?_
    intro entry hentry hfalls
    rw [h.head entry hentry]
    exact falls hfalls

end Threads

/-- Part of the body of a method: jumps stay inside, or go to labels of the code when the stack is
empty. -/
structure Part (lines : List Labeled) (trace : Trace) : Prop where
  threads : Threads 0 trace 0
  jumps : ∀ entry ∈ trace, ∀ target ∈ entry.1.target?,
    (.label target, entry.1.after entry.2) ∈ trace ∨
      target ∈ labelsOf lines ∧ entry.1.after entry.2 = 0

theorem Part.append {lines : List Labeled} {trace trace' : Trace} (h : Part lines trace)
    (h' : Part lines trace') : Part lines (trace ++ trace') := by
  refine ⟨h.threads.append h'.threads, ?_⟩
  intro entry hentry target htarget
  rcases List.mem_append.mp hentry with hmem | hmem
  · rcases h.jumps entry hmem target htarget with hinside | houtside
    · exact .inl (List.mem_append_left _ hinside)
    · exact .inr houtside
  · rcases h'.jumps entry hmem target htarget with hinside | houtside
    · exact .inl (List.mem_append_right _ hinside)
    · exact .inr houtside

/-- A comparison of the two values on top of others. -/
def comparisonTrace (number depth : Nat) : Trace :=
  [(.instr (.ifIcmplt (comparisonLabels number).1), depth + 2), (.instr (.iconst 0), depth),
    (.instr (.goto (comparisonLabels number).2), depth + 1),
    (.label (comparisonLabels number).1, depth), (.instr (.iconst 1), depth),
    (.label (comparisonLabels number).2, depth + 1)]

theorem threads_comparisonTrace (number depth : Nat) :
    Threads (depth + 2) (comparisonTrace number depth) (depth + 1) := by
  have htrue : Threads depth [(.label (comparisonLabels number).1, depth),
      (.instr (.iconst 1), depth), (.label (comparisonLabels number).2, depth + 1)] (depth + 1) :=
    .cons (Nat.zero_le _) (fun _ => rfl) (.cons (Nat.zero_le _) (fun _ => rfl)
      (.cons (Nat.zero_le _) (fun _ => rfl) (.nil _)))
  -- control does not get past the jump to the end
  have hgoto : Threads (depth + 1) ((.instr (.goto (comparisonLabels number).2), depth + 1) :: _)
      (depth + 1) := .cons (Nat.zero_le _) nofun htrue
  exact .cons (Nat.le_add_left 2 depth) (fun _ => rfl) (.cons (Nat.zero_le _) (fun _ => rfl) hgoto)

/-- The jumps of a comparison go to labels in it, at the depth that the labels have. -/
theorem jumps_comparisonTrace {number depth : Nat} :
    ∀ entry ∈ comparisonTrace number depth, ∀ target ∈ entry.1.target?,
      (.label target, entry.1.after entry.2) ∈ comparisonTrace number depth := by
  intro entry hentry target htarget
  simp only [comparisonTrace, List.mem_cons, List.not_mem_nil, or_false] at hentry
  rcases hentry with rfl | rfl | rfl | rfl | rfl | rfl
  · obtain rfl : (comparisonLabels number).1 = target := Option.some.inj htarget
    have hmem : (.label (comparisonLabels number).1, depth) ∈ comparisonTrace number depth := by
      simp [comparisonTrace]
    exact hmem
  · cases htarget
  · obtain rfl : (comparisonLabels number).2 = target := Option.some.inj htarget
    have hmem : (.label (comparisonLabels number).2, depth + 1) ∈ comparisonTrace number depth := by
      simp [comparisonTrace]
    exact hmem
  · cases htarget
  · cases htarget
  · cases htarget

/-- Items that pass through, with their depths. -/
theorem exists_trace_of_passes {first last : Nat} {items : List Item} {depths : List Nat}
    (h : Passes first items depths last) :
    ∃ trace : Trace, trace.map (·.1) = items ∧ trace.map (·.2) = depths ∧
      Threads first trace last ∧
      ∀ entry ∈ trace, ∀ target ∈ entry.1.target?,
        (.label target, entry.1.after entry.2) ∈ trace := by
  induction h with
  | nil depth => exact ⟨[], rfl, rfl, .nil depth, nofun⟩
  | @instr depth instr rest depths last pops noTarget noEnd _ ih =>
    obtain ⟨trace, hitems, hdepths, hthreads, hjumps⟩ := ih
    refine ⟨(.instr instr, depth) :: trace, ?_, ?_, .cons pops (fun _ => rfl) hthreads, ?_⟩
    · rw [List.map_cons, hitems]
    · rw [List.map_cons, hdepths]
    · intro entry hentry target htarget
      rcases List.mem_cons.mp hentry with rfl | hmem
      · simp [Item.target?, noTarget] at htarget
      · exact List.mem_cons_of_mem _ (hjumps entry hmem target htarget)
  | @comparison number depth rest depths last _ ih =>
    obtain ⟨trace, hitems, hdepths, hthreads, hjumps⟩ := ih
    refine ⟨comparisonTrace number depth ++ trace, ?_, ?_,
      (threads_comparisonTrace number depth).append hthreads, ?_⟩
    · rw [List.map_append, hitems]
      rfl
    · rw [List.map_append, hdepths]
      rfl
    · intro entry hentry target htarget
      rcases List.mem_append.mp hentry with hmem | hmem
      · exact List.mem_append_left _ (jumps_comparisonTrace entry hmem target htarget)
      · exact List.mem_append_right _ (hjumps entry hmem target htarget)

/-- How many values an instruction that stands for itself leaves. Only an allocation or a length
whose type is void would leave one. -/
def leftOver : Code.Instr → Nat
  | .call kind _ _ _ returnTy => if returnTy = .void then callResults kind returnTy else 0
  | _ => 0

/-- The items of an instruction pass through and leave a number of values, or they end in a jump or
a return that empties the stack. -/
inductive Shape (target? : Option String) (count height : Nat) : List Item → Prop where
  | passes {items : List Item} (h : Adds items count height) : Shape target? count height items
  | ends {items : List Item} {last : Instr} (h : Adds items last.pops height)
    (noLabels : (listing items).labels = []) (empties : last.pushes = 0)
    (target : last.target? = target?) : Shape target? count height (items ++ instrs [last])

def statementHeight : Code.Instr → Nat
  | .assign (.element _ index _) _ value => max (operandHeight index + 1) (valueHeight value + 2)
  | .assign _ _ value => valueHeight value
  | .putField object _ value => operandsHeight [object, value]
  | .branch cond _ => operandsHeight cond.operands
  | .ret _ (some value) => operandHeight value
  | instr => valueHeight instr

def bodyHeight (lines : List Labeled) : Nat := peak (lines.map (statementHeight ·.instr))

section

variable {cls : Code.Class} {method : String} {optimize : Bool} {number : Nat} {items : List Item}

/-- An assignment leaves the stack as it was. -/
theorem adds_assignItems {dest : Code.Operand} {ty : Code.Ty} {value : Code.Instr}
    (h : assignItems cls method optimize number dest value = .ok items) :
    Adds items 0 (statementHeight (.assign dest ty value)) := by
  unfold assignItems at h
  split at h
  · cases h
    exact (adds_nil _).instr (Nat.le_refl 0) rfl (Nat.zero_le _) rfl rfl
  · cases dest with
    | var var =>
      obtain ⟨valueItems, hvalue, h⟩ := Outcome.bind_eq_ok.mp h
      obtain ⟨store, hstore, h⟩ := Outcome.bind_eq_ok.mp h
      obtain rfl := Outcome.pure_eq_ok.mp h
      exact adds_storeVariable hstore (adds_valueItems hvalue) (Nat.zero_le _)
    | element array index elementTy =>
      obtain ⟨arrayItems, harray, h⟩ := Outcome.bind_eq_ok.mp h
      obtain ⟨indexItems, hindex, h⟩ := Outcome.bind_eq_ok.mp h
      obtain ⟨valueItems, hvalue, h⟩ := Outcome.bind_eq_ok.mp h
      obtain rfl := Outcome.pure_eq_ok.mp h
      have hloads := (adds_loadVariable harray).append (adds_loadOperand hindex)
      have hheight : max (max 1 (1 + operandHeight index)) (1 + 1 + valueHeight value) ≤
          max (operandHeight index + 1) (valueHeight value + 2) := by omega
      have hall := (hloads.append (adds_valueItems hvalue)).mono hheight
      split <;> exact hall.instr (Nat.le_refl 3) rfl (Nat.zero_le _) rfl rfl
    | literal => cases h

theorem shape_conditionItems {target : String} {cond : Code.Condition}
    (h : conditionItems method target cond = .ok items) :
    Shape (some target) 0 (operandsHeight cond.operands) items := by
  cases cond with
  | binary op left right =>
    obtain ⟨loads, hloads, h⟩ := Outcome.bind_eq_ok.mp h
    obtain rfl := Outcome.pure_eq_ok.mp h
    have hadds : Adds loads 2 _ := adds_loadOperands hloads
    have hlabels := labels_loadOperands hloads
    by_cases hop : op = .lt
    · subst hop
      exact .ends hadds hlabels rfl rfl
    · have hoperator : (listing (operatorItems 0 op)).labels = [] := by
        cases op <;> first | rfl | exact absurd rfl hop
      rw [branchItems_eq hop, ← List.append_assoc]
      have htwo := length_le_operandsHeight [left, right]
      exact .ends (adds_operatorItems hadds htwo op) (by simp [hlabels, hoperator]) rfl rfl
  | not operand | holds operand =>
    obtain ⟨load, hload, h⟩ := Outcome.bind_eq_ok.mp h
    obtain rfl := Outcome.pure_eq_ok.mp h
    exact .ends ((adds_loadOperand hload).mono (Nat.le_max_left ..)) (labels_loadOperand hload)
      rfl rfl

/-- An instruction leaves the stack as it was, or it ends in a jump or a return on an empty stack.
-/
theorem shape_statementItems {instr : Code.Instr}
    (h : statementItems cls method optimize number instr = .ok items) :
    Shape instr.target? (leftOver instr) (statementHeight instr) items := by
  cases instr with
  | assign dest ty value => exact .passes (adds_assignItems h)
  | call kind target name? args returnTy =>
    obtain ⟨call, hcall, h⟩ := Outcome.bind_eq_ok.mp h
    obtain rfl := Outcome.pure_eq_ok.mp h
    have hadds := adds_callItems hcall
    rw [leftOver]
    by_cases hvoid : returnTy = .void
    · rw [if_pos hvoid, if_pos hvoid]
      exact .passes hadds
    · rw [if_neg hvoid, if_neg hvoid]
      have hone : callResults kind returnTy = 1 := by
        cases kind <;> simp [callResults, hvoid]
      rw [hone] at hadds
      exact .passes (hadds.instr (Nat.le_refl 1) rfl (Nat.zero_le _) rfl rfl)
  | putField object field value =>
    obtain ⟨loads, hloads, h⟩ := Outcome.bind_eq_ok.mp h
    obtain rfl := Outcome.pure_eq_ok.mp h
    exact .passes ((adds_loadOperands hloads).instr (Nat.le_refl 2) rfl (Nat.zero_le _) rfl rfl)
  | branch cond target => exact shape_conditionItems h
  | goto target =>
    cases h
    exact @Shape.ends _ _ _ [] (.goto target) (adds_nil _) rfl rfl rfl
  | ret ty value =>
    cases value with
    | none =>
      cases h
      exact @Shape.ends _ _ _ [] .return (adds_nil _) rfl rfl rfl
    | some value =>
      obtain ⟨load, hload, h⟩ := Outcome.bind_eq_ok.mp h
      obtain rfl := Outcome.pure_eq_ok.mp h
      split <;> exact .ends (adds_loadOperand hload) (labels_loadOperand hload) rfl rfl
  | binary | not | getField | load =>
    obtain ⟨value, hvalue, h⟩ := Outcome.bind_eq_ok.mp h
    obtain rfl := Outcome.pure_eq_ok.mp h
    exact .passes ((adds_valueItems hvalue).instr (Nat.le_refl 1) rfl (Nat.zero_le _) rfl rfl)

end

theorem leftOver_le_one (instr : Code.Instr) : leftOver instr ≤ 1 := by
  cases instr with
  | call kind target name? args returnTy =>
    rw [leftOver]
    split
    · exact callResults_le_one kind returnTy
    · exact Nat.zero_le 1
  | _ => exact Nat.zero_le 1

theorem statementHeight_le_bodyHeight {lines : List Labeled} {line : Labeled}
    (hline : line ∈ lines) : statementHeight line.instr ≤ bodyHeight lines :=
  peak_le_iff.mp (Nat.le_refl _) _ (List.mem_map_of_mem hline)

/-- A draft between two lines, with the depths at its items. Jumps so far went to labels of the
code, at depth 0, or to labels of comparisons with lower numbers. -/
structure Tracked (lines : List Labeled) (number : Nat) (draft : Draft) (trace : Trace) :
    Prop where
  items : trace.map (·.1) = draft.items.toList
  part : Part lines trace
  depth : draft.depth = 0
  maxDepth : peak (trace.map (·.2)) < UInt16.size →
    draft.maxDepth.toNat = peak (trace.map (·.2))
  height : peak (trace.map (·.2)) ≤ bodyHeight lines
  labelDepths : ∀ label depth, draft.labelDepths.get? label = some depth →
    label ∈ labelsOf lines ∧ depth = 0 ∨ ∃ number' < number, label ∈ labelsOfComparison number'

theorem tracked_initial (lines : List Labeled) (number : Nat) :
    Tracked lines number Draft.initial [] :=
  ⟨rfl, ⟨.nil 0, nofun⟩, rfl, fun _ => rfl, Nat.zero_le _, nofun⟩

section

variable {lines : List Labeled} {number : Nat} {draft next : Draft} {trace : Trace}

/-- A label of the code stands where the stack is empty. -/
theorem Tracked.mark (h : Tracked lines number draft trace) (labeled : WellLabeled lines)
    {label : String} (hlabel : label ∈ labelsOf lines) :
    Tracked lines number (draft.mark label) (trace ++ [(.label label, 0)]) := by
  have hentry : (draft.labelDepths.get? label).getD 0 = 0 := by
    cases hget : draft.labelDepths.get? label with
    | none => rfl
    | some depth =>
      rcases h.labelDepths label depth hget with ⟨_, hzero⟩ | ⟨number', _, hcomparison⟩
      · exact hzero
      · exact absurd hcomparison (labeled.plain label hlabel number')
  have hlabelPart : Part lines [(.label label, 0)] :=
    ⟨.cons (Nat.zero_le 0) (fun _ => rfl) (.nil 0), by simp [Item.target?]⟩
  have hpeak : peak (List.map (·.2) (trace ++ [(.label label, 0)])) = peak (trace.map (·.2)) := by
    simp
  refine ⟨?_, h.part.append hlabelPart, ?_, ?_, ?_, h.labelDepths⟩
  · simp [Draft.mark, h.items]
  · simp [Draft.mark, hentry, h.depth]
  · rw [hpeak]
    exact h.maxDepth
  · rw [hpeak]
    exact h.height

theorem Tracked.marks (h : Tracked lines number draft trace) (labeled : WellLabeled lines)
    {labels : List String} (hlabels : ∀ label ∈ labels, label ∈ labelsOf lines) :
    Tracked lines number (labels.foldl Draft.mark draft)
      (trace ++ labels.map fun label => (.label label, 0)) := by
  induction labels generalizing draft trace with
  | nil => simpa using h
  | cons label rest ih =>
    have hfirst := h.mark labeled (hlabels label List.mem_cons_self)
    have hrest := ih hfirst fun label hmem => hlabels label (List.mem_cons_of_mem _ hmem)
    rw [List.append_assoc] at hrest
    exact hrest

/-- The labels of a comparison have not been used by those with lower numbers, nor by the code. -/
theorem Tracked.fresh (h : Tracked lines number draft trace) (labeled : WellLabeled lines)
    {label : String} (hlabel : label ∈ labelsOfComparison number) :
    draft.labelDepths.get? label = none := by
  cases hget : draft.labelDepths.get? label with
  | none => rfl
  | some depth =>
    rcases h.labelDepths label depth hget with ⟨hcode, _⟩ | ⟨number', hlt, hlabel'⟩
    · exact absurd hlabel (labeled.plain label hcode number)
    · have heq := comparisonLabels_inj hlabel hlabel'
      omega

/-- Items that pass through can be written after lines, unless 16 bits are too few for them. -/
theorem Tracked.written_cases (h : Tracked lines number draft trace) (labeled : WellLabeled lines)
    {items : List Item} {count height : Nat} (hadds : Adds items count height)
    (distinct : (listing items).labels.Nodup)
    (hlabels : ∀ label ∈ (listing items).labels, label ∈ labelsOfComparison number) :
    ∃ depths, Passes 0 items depths count ∧ peak (depths ++ [count]) ≤ height ∧
      ((∃ next, Written draft items depths count next) ∨
        UInt16.size ≤ height ∧ Underflows draft items) := by
  obtain ⟨depths, hpasses, hpeak⟩ := hadds 0
  rw [Nat.zero_add] at hpasses hpeak
  rw [Nat.zero_add] at hpeak
  refine ⟨depths, hpasses, hpeak, ?_⟩
  have hle : draft.depth ≤ draft.maxDepth := by
    rw [h.depth]
    exact UInt16.zero_le
  rcases written_of_passes hpasses h.depth hle distinct
    fun label hlabel => h.fresh labeled (hlabels label hlabel) with hnext | ⟨hlarge, hunderflow⟩
  · exact .inl hnext
  · exact .inr ⟨Nat.le_trans hlarge hpeak, hunderflow⟩

theorem Tracked.written (h : Tracked lines number draft trace) (labeled : WellLabeled lines)
    {items : List Item} {count height : Nat} (hadds : Adds items count height)
    (distinct : (listing items).labels.Nodup)
    (hlabels : ∀ label ∈ (listing items).labels, label ∈ labelsOfComparison number)
    (hwritten : items.foldlM Draft.add draft = .ok next) :
    ∃ depths, Passes 0 items depths count ∧ peak (depths ++ [count]) ≤ height ∧
      Written draft items depths count next := by
  obtain ⟨depths, hpasses, hpeak, ⟨next', hnext⟩ | ⟨_, hunderflow⟩⟩ :=
    h.written_cases labeled hadds distinct hlabels
  · obtain rfl : next' = next := Except.ok.inj (hnext.written.symm.trans hwritten)
    exact ⟨depths, hpasses, hpeak, hnext⟩
  · exact absurd hwritten hunderflow.ne_ok

/-- The greatest depth of a trace that has got longer. -/
theorem Tracked.peak_append {rest : Trace} {places : Nat} (h : Tracked lines number draft trace)
    (hnext : peak (rest.map (·.2)) < UInt16.size →
      places = max draft.maxDepth.toNat (peak (rest.map (·.2))))
    (fits : peak ((trace ++ rest).map (·.2)) < UInt16.size) :
    places = peak ((trace ++ rest).map (·.2)) := by
  rw [List.map_append, Stack.peak_append] at fits ⊢
  rw [hnext (by omega), h.maxDepth (by omega)]

/-- Items that pass through, after which the stack is empty. -/
theorem Tracked.passes (h : Tracked lines number draft trace) (labeled : WellLabeled lines)
    {items : List Item} {count height number' : Nat} (hadds : Adds items count height)
    (hcount : count ≤ 1) (within : height ≤ bodyHeight lines) (hle : number ≤ number')
    (distinct : (listing items).labels.Nodup)
    (hlabels : ∀ label ∈ (listing items).labels,
      label ∈ labelsOfComparison number ∧ number < number')
    (hwritten : items.foldlM Draft.add draft = .ok next) (hempty : next.depth = 0) :
    ∃ rest, Tracked lines number' next (trace ++ rest) := by
  obtain ⟨depths, hpasses, hpeak, hnext⟩ := h.written labeled hadds distinct
    (fun label hlabel => (hlabels label hlabel).1) hwritten
  -- a call whose value nobody takes would leave something, but then the line is refused
  obtain rfl : count = 0 := eq_zero_of_ofNat hcount (hnext.depth.symm.trans hempty)
  obtain ⟨rest, hitems, hdepths, hthreads, hjumps⟩ := exists_trace_of_passes hpasses
  have hpeak' : peak (depths ++ [0]) = peak (rest.map (·.2)) := by
    rw [hdepths, Stack.peak_append]
    exact Nat.max_zero _
  have hmax := hnext.maxDepth
  rw [hpeak'] at hpeak hmax
  have hpart : Part lines rest := ⟨hthreads, fun entry hentry target htarget =>
    .inl (hjumps entry hentry target htarget)⟩
  refine ⟨rest, ?_, h.part.append hpart, hempty, h.peak_append hmax, ?_, ?_⟩
  · rw [List.map_append, h.items, hitems, items_of_foldlM_add hwritten]
  · rw [List.map_append, Stack.peak_append]
    exact Nat.max_le.mpr ⟨h.height, Nat.le_trans hpeak within⟩
  · intro label depth hget
    by_cases hmem : label ∈ (listing items).labels
    · exact .inr ⟨number, (hlabels label hmem).2, (hlabels label hmem).1⟩
    · rw [hnext.labelDepths label hmem] at hget
      rcases h.labelDepths label depth hget with hcode | ⟨earlier, hlt, hlabel⟩
      · exact .inl hcode
      · exact .inr ⟨earlier, Nat.lt_of_lt_of_le hlt hle, hlabel⟩

theorem get?_recordJump {depths : NameMap UInt16} {target? : Option String} {depth entry : UInt16}
    {label : String} (h : (Draft.recordJump depths target? depth).get? label = some entry) :
    depths.get? label = some entry ∨ target? = some label ∧ entry = depth := by
  rw [recordJump_get?, Option.or_eq_some_iff] at h
  rcases h with hearlier | ⟨_, hjump⟩
  · exact .inl hearlier
  · split at hjump <;> cases hjump
    exact .inr ⟨‹_›, rfl⟩

/-- Items that end in a jump or a return. -/
theorem Tracked.ends (h : Tracked lines number draft trace) (labeled : WellLabeled lines)
    {items : List Item} {last : Instr} {height : Nat} (hadds : Adds items last.pops height)
    (within : height ≤ bodyHeight lines)
    (noLabels : (listing items).labels = []) (empties : last.pushes = 0)
    (htarget : ∀ target ∈ last.target?, target ∈ labelsOf lines)
    (hwritten : (items ++ instrs [last]).foldlM Draft.add draft = .ok next) :
    ∃ rest, Tracked lines number next (trace ++ rest) := by
  have hitems := items_of_foldlM_add hwritten
  rw [List.foldlM_append] at hwritten
  obtain ⟨middle, hfirst, hlast⟩ := Outcome.bind_eq_ok.mp hwritten
  obtain ⟨depths, hpasses, hpeak, hmiddle⟩ := h.written labeled hadds
    (by rw [noLabels]; exact List.nodup_nil) (by rw [noLabels]; nofun) hfirst
  obtain ⟨next', hadd, hempty, hmost, hjumped⟩ := add_emptying hmiddle.depth empties
  obtain rfl : next' = next := Except.ok.inj ((foldlM_cons_of_add hadd).symm.trans hlast)
  obtain ⟨rest, hrest, hdepths, hthreads, hjumps⟩ := exists_trace_of_passes hpasses
  have hafter : (Item.instr last).after last.pops = 0 := by
    rw [Item.after, empties, Nat.sub_self]
  have hpart : Part lines (rest ++ [(.instr last, last.pops)]) := by
    refine ⟨hthreads.append (.cons (Nat.le_refl _) (fun _ => hafter.symm) (.nil 0)), ?_⟩
    intro entry hentry target htarget'
    rcases List.mem_append.mp hentry with hmem | hmem
    · exact .inl (List.mem_append_left _ (hjumps entry hmem target htarget'))
    · obtain rfl := List.mem_singleton.mp hmem
      exact .inr ⟨htarget target htarget', hafter⟩
  have hpeak' : peak ((rest ++ [(Item.instr last, last.pops)]).map (·.2)) =
      peak (depths ++ [last.pops]) := by
    rw [List.map_append, hdepths]
    rfl
  have hmax : next'.maxDepth.toNat = middle.maxDepth.toNat := by
    rw [hmost, UInt16.toNat_max]
    exact Nat.max_zero _
  refine ⟨rest ++ [(.instr last, last.pops)], ?_, h.part.append hpart, hempty, h.peak_append ?_,
    ?_, ?_⟩
  · rw [hitems, List.map_append, h.items, List.map_append, hrest]
    rfl
  · rw [hpeak', hmax]
    exact hmiddle.maxDepth
  · rw [List.map_append, Stack.peak_append, hpeak']
    exact Nat.max_le.mpr ⟨h.height, Nat.le_trans hpeak within⟩
  · intro label depth hget
    rw [hjumped] at hget
    rcases get?_recordJump hget with hget | ⟨hjump, rfl⟩
    · rw [hmiddle.labelDepths label (by rw [noLabels]; nofun)] at hget
      exact h.labelDepths label depth hget
    · exact .inl ⟨htarget label hjump, rfl⟩

theorem Tracked.mono {number' : Nat} (h : Tracked lines number draft trace)
    (hle : number ≤ number') : Tracked lines number' draft trace := by
  refine ⟨h.items, h.part, h.depth, h.maxDepth, h.height, ?_⟩
  intro label depth hget
  rcases h.labelDepths label depth hget with hcode | ⟨earlier, hlt, hlabel⟩
  · exact .inl hcode
  · exact .inr ⟨earlier, Nat.lt_of_lt_of_le hlt hle, hlabel⟩

variable {cls : Code.Class} {method : String} {optimize : Bool}

/-- A line is written to a draft between two lines, and leaves one. -/
theorem Tracked.addLine (h : Tracked lines number draft trace) (labeled : WellLabeled lines)
    {line : Labeled} (hline : line ∈ lines)
    (hadd : draft.addLine cls method optimize number line = .ok next) :
    ∃ rest, Tracked lines (if isComparison line.instr then number + 1 else number) next
        (trace ++ rest) ∧
      ∀ label ∈ line.labels, (.label label, 0) ∈ rest := by
  obtain ⟨items, hitems, hwritten, hempty⟩ := addLine_eq_ok.mp hadd
  have hlabels := labels_statementItems hitems
  have hle : number ≤ if isComparison line.instr then number + 1 else number := by
    split <;> omega
  have within := statementHeight_le_bodyHeight hline
  have hmarked := h.marks labeled fun label hlabel => List.mem_flatMap.mpr ⟨line, hline, hlabel⟩
  have hrest : ∃ rest, Tracked lines (if isComparison line.instr then number + 1 else number) next
      (trace ++ line.labels.map (fun label => (.label label, 0)) ++ rest) := by
    cases shape_statementItems hitems with
    | passes hadds =>
      refine hmarked.passes labeled hadds (leftOver_le_one _) within hle ?_ ?_ hwritten hempty
      · rw [hlabels]
        split
        · exact nodup_labelsOfComparison number
        · exact List.nodup_nil
      · intro label hlabel
        rw [hlabels] at hlabel
        split at hlabel
        · next hcomparison =>
          rw [if_pos hcomparison]
          exact ⟨hlabel, Nat.lt_succ_self number⟩
        · cases hlabel
    | ends hadds noLabels empties target =>
      obtain ⟨rest, hrest⟩ := hmarked.ends labeled hadds within noLabels empties
        (fun label hlabel => labeled.defined line hline label (target ▸ hlabel)) hwritten
      exact ⟨rest, hrest.mono hle⟩
  obtain ⟨rest, hrest⟩ := hrest
  rw [List.append_assoc] at hrest
  refine ⟨_, hrest, ?_⟩
  intro label hlabel
  exact List.mem_append_left _ (List.mem_map.mpr ⟨label, hlabel, rfl⟩)

/-- A run over lines. -/
theorem Tracked.addLines (h : Tracked lines number draft trace) (labeled : WellLabeled lines)
    {remaining : List Labeled} (hlines : ∀ line ∈ remaining, line ∈ lines)
    (hadd : Draft.addLines cls method optimize number draft remaining = .ok next) :
    ∃ number' rest, Tracked lines number' next (trace ++ rest) ∧
      ∀ label ∈ labelsOf remaining, (.label label, 0) ∈ rest := by
  induction remaining generalizing number draft trace with
  | nil =>
    cases hadd
    exact ⟨number, [], by rwa [List.append_nil], nofun⟩
  | cons line others ih =>
    rw [Draft.addLines] at hadd
    obtain ⟨middle, hline, hothers⟩ := Outcome.bind_eq_ok.mp hadd
    obtain ⟨first, hfirst, hfirstLabels⟩ := h.addLine labeled (hlines line List.mem_cons_self) hline
    obtain ⟨number', rest, hrest, hlabels⟩ :=
      ih hfirst (fun line hmem => hlines line (List.mem_cons_of_mem _ hmem)) hothers
    rw [List.append_assoc] at hrest
    refine ⟨number', first ++ rest, hrest, ?_⟩
    intro label hlabel
    rw [labelsOf, List.flatMap_cons, List.mem_append] at hlabel
    rcases hlabel with hmem | hmem
    · exact List.mem_append_left _ (hfirstLabels label hmem)
    · exact List.mem_append_right _ (hlabels label hmem)

/-- The items of an accepted line are in its segment. They were written to a draft whose stack was
empty, and left it empty. -/
theorem Tracked.accepted_line (h : Tracked lines number draft trace) (labeled : WellLabeled lines)
    {remaining : List Labeled} (hlines : ∀ line ∈ remaining, line ∈ lines)
    (hadd : Draft.addLines cls method optimize number draft remaining = .ok next)
    {segs : List (List Item)} (hsegs : segments cls method optimize number remaining = .ok segs)
    {index : Nat} {line : Labeled} (hline : remaining[index]? = some line) :
    ∃ number' items draft' next',
      statementItems cls method optimize number' line.instr = .ok items ∧
      segs[index]? = some (line.labels.map .label ++ items) ∧ draft'.depth = 0 ∧
      items.foldlM Draft.add draft' = .ok next' ∧ next'.depth = 0 := by
  induction remaining generalizing number draft trace segs index with
  | nil => simp at hline
  | cons first rest ih =>
    rw [Draft.addLines] at hadd
    obtain ⟨middle, hfirst, hrest⟩ := Outcome.bind_eq_ok.mp hadd
    rw [segments] at hsegs
    obtain ⟨firstItems, hsegment, hsegs⟩ := Outcome.bind_eq_ok.mp hsegs
    obtain ⟨others, hothers, hsegs⟩ := Outcome.bind_eq_ok.mp hsegs
    obtain rfl := Outcome.pure_eq_ok.mp hsegs
    have hmem := hlines first List.mem_cons_self
    cases index with
    | zero =>
      obtain rfl : first = line := by simpa using hline
      obtain ⟨items, hitems, hwritten, hempty⟩ := addLine_eq_ok.mp hfirst
      rw [segment, hitems] at hsegment
      obtain rfl := Outcome.pure_eq_ok.mp hsegment
      have hmarked := h.marks labeled fun label hlabel =>
        List.mem_flatMap.mpr ⟨first, hmem, hlabel⟩
      exact ⟨number, items, _, _, hitems, by simp, hmarked.depth, hwritten, hempty⟩
    | succ index =>
      obtain ⟨added, hadded, _⟩ := h.addLine labeled hmem hfirst
      obtain ⟨number', items, draft', next', hitems, hget, hwritten⟩ := ih hadded
        (fun line hline => hlines line (List.mem_cons_of_mem _ hline)) hrest hothers
        (by simpa using hline)
      exact ⟨number', items, draft', next', hitems, by simpa using hget, hwritten⟩

/-- Where all labels of the code have been written, no jump is left open. -/
theorem Tracked.consistent (h : Tracked lines number draft trace) (hne : trace ≠ [])
    (hlabels : ∀ label ∈ labelsOf lines, (.label label, 0) ∈ trace) : Consistent trace := by
  refine ⟨?_, h.part.threads.pops, h.part.threads.isChain, ?_⟩
  · obtain ⟨⟨item, depth⟩, rest, rfl⟩ := List.exists_cons_of_ne_nil hne
    obtain rfl : depth = 0 := h.part.threads.head _ rfl
    exact ⟨item, rest, rfl⟩
  · intro entry hentry target htarget
    rcases h.part.jumps entry hentry target htarget with hinside | ⟨hcode, hempty⟩
    · exact hinside
    · rw [hempty]
      exact hlabels target hcode

theorem getLast?_retItems {ty : Code.Ty} {value : Option Code.Operand} {items : List Item}
    (h : statementItems cls method optimize number (.ret ty value) = .ok items) :
    ∃ instr ∈ [Instr.ireturn, .areturn, .return], items.getLast? = some (.instr instr) := by
  cases value with
  | none =>
    cases h
    exact ⟨.return, by decide, rfl⟩
  | some value =>
    obtain ⟨load, _, h⟩ := Outcome.bind_eq_ok.mp h
    obtain rfl := Outcome.pure_eq_ok.mp h
    split
    · exact ⟨.ireturn, by decide, by simp [instrs]⟩
    · exact ⟨.areturn, by decide, by simp [instrs]⟩

/-- The return that the code ends in is the last item of the body. -/
theorem getLast?_addLines {labels : List String} {ty : Code.Ty} {value : Option Code.Operand}
    (h : Draft.addLines cls method optimize number draft lines = .ok next)
    (hlast : lines.getLast? = some ⟨labels, .ret ty value⟩) :
    ∃ instr ∈ [Instr.ireturn, .areturn, .return],
      next.items.toList.getLast? = some (.instr instr) := by
  induction lines generalizing number draft with
  | nil => cases hlast
  | cons line rest ih =>
    rw [Draft.addLines] at h
    obtain ⟨middle, hline, hrest⟩ := Outcome.bind_eq_ok.mp h
    cases rest with
    | cons second others =>
      rw [List.getLast?_cons_cons] at hlast
      exact ih hrest hlast
    | nil =>
      cases hrest
      obtain rfl : line = ⟨labels, .ret ty value⟩ := by simpa using hlast
      obtain ⟨items, hitems, hwritten, _⟩ := addLine_eq_ok.mp hline
      obtain ⟨instr, hinstr, hitemsLast⟩ := getLast?_retItems hitems
      refine ⟨instr, hinstr, ?_⟩
      rw [items_of_foldlM_add hwritten, List.getLast?_append, hitemsLast]
      rfl

end

/-- The body of complete code is disciplined. The depth that is found for its frame is the greatest
one exactly if 16 bits are enough for that. -/
theorem disciplined_bodyOf {cls : Code.Class} {method : Code.Method} {optimize : Bool}
    {body : Body} (complete : Complete method.body)
    (h : bodyOf cls method optimize = .ok body) :
    ∃ trace, Disciplined body trace ∧ peak (trace.map (·.2)) ≤ bodyHeight method.body ∧
      (body.maxStack.toNat = peak (trace.map (·.2)) ↔ peak (trace.map (·.2)) < UInt16.size) := by
  obtain ⟨labels, ty, value, hlast⟩ := complete.returns
  obtain ⟨segs, draft, hsegs, hitems, hdraft, rfl⟩ := segments_of_bodyOf h
  have hreturns := getLast?_addLines hdraft hlast
  obtain ⟨number, trace, htracked, hlabels⟩ :=
    (tracked_initial method.body 1).addLines complete.labeled (fun _ hline => hline) hdraft
  rw [List.nil_append] at htracked
  have hne : trace ≠ [] := by
    rintro rfl
    obtain ⟨instr, _, hlast⟩ := hreturns
    rw [← htracked.items] at hlast
    cases hlast
  have hconsistent := htracked.consistent hne hlabels
  refine ⟨trace, ⟨?_, ?_, hreturns, htracked.items, hconsistent⟩, htracked.height,
    fun heq => heq ▸ draft.maxDepth.toNat_lt, htracked.maxDepth⟩
  · rw [hitems]
    exact nodup_labels_segments hsegs complete.labeled.distinct complete.labeled.plain
  · intro item hitem target htarget
    have hitem' : item ∈ trace.map (·.1) := by rwa [htracked.items]
    obtain ⟨entry, hentry, rfl⟩ := List.mem_map.mp hitem'
    have hjump := hconsistent.jumps entry hentry target htarget
    have hmem : Item.label target ∈ trace.map (·.1) := List.mem_map.mpr ⟨_, hjump, rfl⟩
    rwa [htracked.items] at hmem

/-- The most arguments that a call of the code passes. -/
def widestCall (lines : List Labeled) : Nat := peak (lines.map (argumentCount ·.instr))

theorem operandHeight_of_isSimple {operand : Code.Operand} (h : operand.isSimple) :
    operandHeight operand = 1 := by
  cases operand with
  | literal | var => rfl
  | element => cases h

theorem operandsHeight_of_isSimple {operands : List Code.Operand}
    (h : ∀ operand ∈ operands, operand.isSimple) : operandsHeight operands = operands.length := by
  induction operands with
  | nil => rfl
  | cons first rest ih =>
    rw [List.forall_mem_cons] at h
    rw [operandsHeight, operandHeight_of_isSimple h.1, ih h.2, List.length_cons]
    exact Nat.max_eq_right (Nat.le_add_left 1 _)

/-- Operands of lowered code are simple, so a value needs two places, or those of a call. -/
theorem valueHeight_of_yields {instr : Code.Instr} (yields : instr.Yields) :
    valueHeight instr ≤ max 2 (argumentCount instr + 1) := by
  cases yields with
  | load h | length h | newIntArray h =>
    simp [valueHeight, callHeight, operandHeight_of_isSimple h]
  | element array ty h => simp [valueHeight, operandHeight, operandHeight_of_isSimple h]
  | binary op hleft hright =>
    simp [valueHeight, operandsHeight, operandHeight_of_isSimple hleft,
      operandHeight_of_isSimple hright]
  | not h => simp [valueHeight, operandHeight_of_isSimple h]
  | static cls method ty h =>
    rw [valueHeight, callHeight, operandsHeight_of_isSimple h, argumentCount]
    omega
  | virtual method ty htarget h =>
    rw [valueHeight, callHeight, operandsHeight_of_isSimple (List.forall_mem_cons.mpr ⟨htarget, h⟩),
      argumentCount]
    exact Nat.le_max_right ..
  | newObject | getField => simp [valueHeight, callHeight, operandHeight]

/-- Lowered code needs room for an element that is stored into, and for a call. -/
theorem statementHeight_of_flat {instr : Code.Instr} (flat : instr.Flat) :
    statementHeight instr ≤ max 4 (argumentCount instr + 3) := by
  cases flat with
  | yields yields =>
    have hvalue := valueHeight_of_yields yields
    have heq : statementHeight instr = valueHeight instr := by cases yields <;> rfl
    omega
  | @store target ty value yields =>
    have hvalue := valueHeight_of_yields yields
    have heq : statementHeight (.assign (.var target) ty value) = valueHeight value := rfl
    rw [heq, argumentCount]
    omega
  | storeElement array elementTy ty hindex yields =>
    have hvalue := valueHeight_of_yields yields
    rw [statementHeight, argumentCount, operandHeight_of_isSimple hindex]
    omega
  | construct => simp [Code.Instr.construct, statementHeight, valueHeight, callHeight,
      operandsHeight, operandHeight]
  | putField object field h =>
    simp [statementHeight, operandsHeight, operandHeight, operandHeight_of_isSimple h]
  | branch target h =>
    rw [statementHeight, operandsHeight_of_isSimple h]
    cases ‹Code.Condition› <;> simp [Code.Condition.operands]
  | goto => simp [statementHeight, valueHeight]
  | @ret ty value h =>
    cases value with
    | none => simp [statementHeight, valueHeight]
    | some value => simp [statementHeight, operandHeight_of_isSimple (h value rfl)]

theorem bodyHeight_of_flat {lines : List Labeled} (flat : ∀ line ∈ lines, line.instr.Flat) :
    bodyHeight lines ≤ max 4 (widestCall lines + 3) := by
  rw [bodyHeight, peak_le_iff, List.forall_mem_map]
  intro line hline
  have hcount : argumentCount line.instr ≤ widestCall lines :=
    peak_le_iff.mp (Nat.le_refl _) _ (List.mem_map_of_mem hline)
  exact Nat.le_trans (statementHeight_of_flat (flat line hline)) (by omega)

/-- Every body of a program that has been compiled is disciplined, and the assembly says how deep
the stack may get. What it says is the greatest depth exactly if 16 bits are enough for that. They
are, unless a call passes more than 65,532 arguments. -/
theorem disciplined_of_compile {analysis : Source.Analysis} {settings : Settings}
    {compiled : Compiled} (h : compile analysis settings = .ok compiled) :
    (∃ bodies, compiled.code.methods.mapM (bodyOf compiled.code · settings.optimize) = .ok bodies ∧
      compiled.assembly = "\n".intercalate (classHeader compiled.code ++
        (List.zipWith (methodLines compiled.code) compiled.code.methods bodies).flatten)) ∧
    ∀ method ∈ compiled.code.methods, ∃ body trace,
      bodyOf compiled.code method settings.optimize = .ok body ∧ Disciplined body trace ∧
      (methodLines compiled.code method body)[1]? = some s!"  .limit stack {body.maxStack}" ∧
      (body.maxStack.toNat = peak (trace.map (·.2)) ↔ peak (trace.map (·.2)) < UInt16.size) ∧
      peak (trace.map (·.2)) ≤ max 4 (widestCall method.body + 3) := by
  obtain ⟨lowered, bodies, hlower, hallocate, hbodies, hassembly⟩ := compile_eq_ok h
  refine ⟨⟨bodies, hbodies, hassembly⟩, ?_⟩
  intro method hmethod
  obtain ⟨source, _, _, formed, complete⟩ :=
    exists_source (lower_eq_ok hlower).1 hallocate hmethod
  obtain ⟨body, hbody⟩ := Outcome.exists_of_mapM hbodies hmethod
  obtain ⟨trace, disciplined, hheight, hlimit⟩ := disciplined_bodyOf complete hbody
  exact ⟨body, trace, hbody, disciplined, rfl, hlimit,
    Nat.le_trans hheight (bodyHeight_of_flat formed.flat)⟩

/-- A program whose method stores comparisons in an array while it counts. -/
def recording : Source.Program :=
  ⟨[], "Recorder", none, [], [⟨"record", false, [⟨"cells", .array .int⟩, ⟨"n", .int⟩], .int,
    [.assign "i" (.int 0),
      .while (.binary .lt (.name "i") (.name "n")) (.block
        [.assignElement "cells" (.name "i") (.binary .lt (.name "i") (.int 3)),
          .assign "i" (.binary .add (.name "i") (.int 1))])],
    some (.name "i")⟩]⟩

def recordingAnalysis : Source.Analysis where
  program := recording
  table := Source.SymbolTable.addMethod ⟨"Recorder", none, [], [], ∅⟩
    ⟨"record", .int, [⟨"cells", .array .int⟩, ⟨"n", .int⟩], [⟨"i", .int⟩]⟩
  diagnostics := []

/-- The constructor needs one place on the stack. The array, the index and both operands of the
comparison need four. -/
theorem disciplined_recording :
    ∃ compiled, compile recordingAnalysis ⟨true, none⟩ = .ok compiled ∧
      (compiled.code.methods.mapM (bodyOf compiled.code · true)).toOption.map
        (·.map (·.maxStack)) = some [1, 4] ∧
      ∀ method ∈ compiled.code.methods, ∃ body trace,
        bodyOf compiled.code method true = .ok body ∧ Disciplined body trace ∧
        (methodLines compiled.code method body)[1]? = some s!"  .limit stack {body.maxStack}" ∧
        (body.maxStack.toNat = peak (trace.map (·.2)) ↔ peak (trace.map (·.2)) < UInt16.size) ∧
        peak (trace.map (·.2)) ≤ max 4 (widestCall method.body + 3) := by
  have hdepths : ((compile recordingAnalysis ⟨true, none⟩).toOption.bind fun compiled =>
      (compiled.code.methods.mapM (bodyOf compiled.code · true)).toOption).map
        (·.map (·.maxStack)) = some [1, 4] := by
    decide +kernel
  have haccepted : (compile recordingAnalysis ⟨true, none⟩).isOk := by decide +kernel
  obtain ⟨compiled, hcompiled⟩ := Outcome.exists_of_isOk haccepted
  rw [hcompiled] at hdepths
  exact ⟨compiled, hcompiled, hdepths, (disciplined_of_compile hcompiled).2⟩

end ClassCompiler.Stack
