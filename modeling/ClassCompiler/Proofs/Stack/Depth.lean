import ClassCompiler.Proofs.Stack.Layout

/-!
# The depth of the operand stack

The items of a value leave one more value on the stack than they found, whatever they found, and
never take more than they put there. Items that pass through are followed from the depth they find
to the depth they leave; inside a comparison that includes both ways to its result. How high the
stack gets above what was found is read off the code. A draft counts depths in 16 bits, and counts
them right as long as they fit.
-/

namespace ClassCompiler.Stack

open Code (Operand Variable)

def peak (depths : List Nat) : Nat := depths.foldr max 0

@[simp] theorem peak_nil : peak [] = 0 := rfl

@[simp] theorem peak_cons (depth : Nat) (rest : List Nat) :
    peak (depth :: rest) = max depth (peak rest) := rfl

@[simp] theorem peak_append (left right : List Nat) :
    peak (left ++ right) = max (peak left) (peak right) := by
  induction left with
  | nil => simp
  | cons depth rest ih => simp [ih, Nat.max_assoc]

theorem peak_le_iff {depths : List Nat} {bound : Nat} :
    peak depths ≤ bound ↔ ∀ depth ∈ depths, depth ≤ bound := by
  induction depths with
  | nil => simp
  | cons depth rest ih => rw [peak_cons, Nat.max_le, ih, List.forall_mem_cons]

/-- Items that lead from one depth to another, with the depth at each of them. -/
inductive Passes : Nat → List Item → List Nat → Nat → Prop where
  | nil (depth : Nat) : Passes depth [] [] depth
  | instr {depth : Nat} {instr : Instr} {rest : List Item} {depths : List Nat} {last : Nat}
    (pops : instr.pops ≤ depth) (noTarget : instr.target? = none)
    (noEnd : instr.endsBlock = false)
    (h : Passes (depth - instr.pops + instr.pushes) rest depths last) :
    Passes depth (.instr instr :: rest) (depth :: depths) last
  | comparison (number : Nat) {depth : Nat} {rest : List Item} {depths : List Nat} {last : Nat}
    (h : Passes (depth + 1) rest depths last) :
    Passes (depth + 2) (operatorItems number .lt ++ rest)
      ([depth + 2, depth, depth + 1, depth, depth, depth + 1] ++ depths) last

theorem Passes.append {first middle last : Nat} {items items' : List Item}
    {depths depths' : List Nat} (h : Passes first items depths middle)
    (h' : Passes middle items' depths' last) :
    Passes first (items ++ items') (depths ++ depths') last := by
  induction h with
  | nil => exact h'
  | instr pops noTarget noEnd _ ih => exact .instr pops noTarget noEnd (ih h')
  | comparison number _ ih =>
    rw [List.append_assoc, List.append_assoc]
    exact .comparison number (ih h')

theorem Passes.first_le_peak {depth last : Nat} {items : List Item} {depths : List Nat}
    (h : Passes depth items depths last) : depth ≤ peak (depths ++ [last]) := by
  cases h with
  | nil => simp
  | instr => exact Nat.le_max_left ..
  | comparison => exact Nat.le_max_left ..

/-- Items that add a number of values, at any depth, and on the way use up to a number of places
above it. -/
def Adds (items : List Item) (count height : Nat) : Prop :=
  ∀ depth, ∃ depths, Passes depth items depths (depth + count) ∧
    peak (depths ++ [depth + count]) ≤ depth + height

namespace Adds

variable {items items' : List Item} {count count' height height' : Nat}

theorem append (h : Adds items count height) (h' : Adds items' count' height') :
    Adds (items ++ items') (count + count') (max height (count + height')) := by
  intro depth
  obtain ⟨depths, hpasses, hpeak⟩ := h depth
  obtain ⟨depths', hpasses', hpeak'⟩ := h' (depth + count)
  rw [Nat.add_assoc] at hpasses' hpeak'
  refine ⟨depths ++ depths', hpasses.append hpasses', ?_⟩
  simp only [peak_append, Nat.max_le] at hpeak hpeak' ⊢
  omega

/-- Items that add values, followed by an instruction that takes some of them. -/
theorem instr {instr : Instr} (h : Adds items count height) (pops : instr.pops ≤ count)
    (after : count - instr.pops + instr.pushes = count') (within : count' ≤ height)
    (noTarget : instr.target? = none) (noEnd : instr.endsBlock = false) :
    Adds (items ++ instrs [instr]) count' height := by
  intro depth
  obtain ⟨depths, hpasses, hpeak⟩ := h depth
  have hlast : Passes (depth + count) (instrs [instr]) [depth + count] (depth + count') := by
    refine .instr (by omega) noTarget noEnd ?_
    have heq : depth + count - instr.pops + instr.pushes = depth + count' := by omega
    rw [heq]
    exact .nil _
  refine ⟨depths ++ [depth + count], hpasses.append hlast, ?_⟩
  simp only [peak_append, peak_cons, peak_nil, Nat.max_le] at hpeak ⊢
  omega

theorem mono (h : Adds items count height) (hle : height ≤ height') : Adds items count height' := by
  intro depth
  obtain ⟨depths, hpasses, hpeak⟩ := h depth
  exact ⟨depths, hpasses, by omega⟩

end Adds

theorem adds_nil (height : Nat) : Adds [] 0 height :=
  fun depth => ⟨[], .nil depth, by simp⟩

theorem adds_instr {instr : Instr} (pops : instr.pops = 0) (pushes : instr.pushes = 1)
    (noTarget : instr.target? = none) (noEnd : instr.endsBlock = false) :
    Adds (instrs [instr]) 1 1 :=
  (adds_nil 1).instr (Nat.le_of_eq pops) (by omega) (Nat.le_refl 1) noTarget noEnd

/-- How many places it takes to put an operand on the stack. -/
def operandHeight : Operand → Nat
  | .literal .. | .var _ => 1
  | .element _ index _ => operandHeight index + 1

def operandsHeight : List Operand → Nat
  | [] => 0
  | first :: rest => max (operandHeight first) (operandsHeight rest + 1)

def callHeight (kind : Code.CallKind) (target : Operand) (args : List Operand) : Nat :=
  match kind with
  | .special | .virtual => operandsHeight (target :: args)
  | .static => max 1 (operandsHeight args)
  | .newObject => 1
  | .newArray | .arrayLength => operandHeight target

def valueHeight : Code.Instr → Nat
  | .load operand | .getField operand _ => operandHeight operand
  | .binary _ left right => operandsHeight [left, right]
  | .not operand => max 2 (operandHeight operand)
  | .call kind target _ args _ => callHeight kind target args
  | _ => 0

theorem operandHeight_pos (operand : Operand) : 1 ≤ operandHeight operand := by
  cases operand with
  | literal | var => exact Nat.le_refl 1
  | element => exact Nat.le_add_left 1 _

theorem length_le_operandsHeight (operands : List Operand) :
    operands.length ≤ operandsHeight operands := by
  induction operands with
  | nil => exact Nat.le_refl 0
  | cons first rest ih =>
    rw [operandsHeight, List.length_cons]
    omega

section

variable {cls : Code.Class} {method : String} {number : Nat} {items : List Item}

theorem adds_loadVariable {var : Variable} (h : loadVariable method var = .ok items) :
    Adds items 1 1 := by
  obtain ⟨slot, _, h⟩ := Outcome.bind_eq_ok.mp h
  obtain rfl := Outcome.pure_eq_ok.mp h
  split <;> exact adds_instr rfl rfl rfl rfl

theorem adds_loadOperand {operand : Operand} (h : loadOperand method operand = .ok items) :
    Adds items 1 (operandHeight operand) := by
  induction operand generalizing items with
  | literal =>
    cases h
    exact adds_instr rfl rfl rfl rfl
  | var var => exact adds_loadVariable h
  | element array index ty ih =>
    obtain ⟨arrayItems, harray, h⟩ := Outcome.bind_eq_ok.mp h
    obtain ⟨indexItems, hindex, h⟩ := Outcome.bind_eq_ok.mp h
    obtain rfl := Outcome.pure_eq_ok.mp h
    have hheight : max 1 (1 + operandHeight index) ≤ operandHeight index + 1 := by omega
    have both := ((adds_loadVariable harray).append (ih hindex)).mono hheight
    split <;> exact both.instr (Nat.le_refl 2) rfl (Nat.le_add_left 1 _) rfl rfl

/-- Each operand lies on those before it, so the height of one counts from its place. -/
theorem adds_loadOperands {operands : List Operand}
    (h : loadOperands method operands = .ok items) :
    Adds items operands.length (operandsHeight operands) := by
  induction operands generalizing items with
  | nil =>
    cases h
    exact adds_nil 0
  | cons first rest ih =>
    obtain ⟨firstItems, hfirst, h⟩ := Outcome.bind_eq_ok.mp h
    obtain ⟨restItems, hrest, h⟩ := Outcome.bind_eq_ok.mp h
    obtain rfl := Outcome.pure_eq_ok.mp h
    have hadds := (adds_loadOperand hfirst).append (ih hrest)
    rw [Nat.add_comm 1, Nat.add_comm 1] at hadds
    exact hadds

theorem adds_storeVariable {var : Variable} {items' : List Item} {count height : Nat}
    (h : storeVariable method var = .ok items) (h' : Adds items' (count + 1) height)
    (within : count ≤ height) : Adds (items' ++ items) count height := by
  rw [storeVariable] at h
  split at h
  · cases h
  · obtain ⟨slot, _, h⟩ := Outcome.bind_eq_ok.mp h
    obtain rfl := Outcome.pure_eq_ok.mp h
    split <;> exact h'.instr (Nat.le_add_left 1 count) rfl within rfl rfl

def callResults (kind : Code.CallKind) (returnTy : Code.Ty) : Nat :=
  match kind with
  | .virtual | .static | .special => if returnTy = .void then 0 else 1
  | .newObject | .newArray | .arrayLength => 1

theorem callResults_le_one (kind : Code.CallKind) (returnTy : Code.Ty) :
    callResults kind returnTy ≤ 1 := by
  cases kind with
  | virtual | static | special =>
    rw [callResults]
    split <;> decide
  | newObject | newArray | arrayLength => exact Nat.le_refl 1

theorem adds_invocationItems {kind : InvokeKind} {owner name : String}
    {operands args : List Operand} {returnTy : Code.Ty} {height : Nat}
    (h : invocationItems cls method kind owner name operands args returnTy = .ok items)
    (hcount : operands.length = args.length + if kind = .static then 0 else 1)
    (within : max 1 (operandsHeight operands) ≤ height) :
    Adds items (if returnTy = .void then 0 else 1) height := by
  obtain ⟨loads, hloads, h⟩ := Outcome.bind_eq_ok.mp h
  obtain rfl := Outcome.pure_eq_ok.mp h
  have hpops : ∀ ref : MethodRef, ref.args = args.length →
      (Instr.invoke kind ref).pops = operands.length := by
    intro ref hargs
    rw [hcount, Instr.pops_invoke, hargs]
  have hadds := (adds_loadOperands hloads).mono (Nat.le_trans (Nat.le_max_right 1 _) within)
  have hresult : (if returnTy = .void then 0 else 1) ≤ height := by split <;> omega
  refine hadds.instr (Nat.le_of_eq (hpops _ rfl)) ?_ hresult rfl rfl
  rw [hpops _ rfl, Nat.sub_self, Instr.pushes_invoke]
  by_cases hvoid : returnTy = .void <;> simp [hvoid]

theorem max_one_operandsHeight (first : Operand) (rest : List Operand) :
    max 1 (operandsHeight (first :: rest)) ≤ operandsHeight (first :: rest) := by
  rw [operandsHeight]
  omega

/-- The room that a call needs is that of its operands. Its result takes the place of the first. -/
theorem adds_callItems {kind : Code.CallKind} {target : Operand} {name? : Option String}
    {args : List Operand} {returnTy : Code.Ty}
    (h : callItems cls method kind target name? args returnTy = .ok items) :
    Adds items (callResults kind returnTy) (callHeight kind target args) := by
  cases kind with
  | special =>
    obtain ⟨owner, _, h⟩ := Outcome.bind_eq_ok.mp h
    exact adds_invocationItems h rfl (max_one_operandsHeight target args)
  | virtual =>
    cases name? with
    | none => cases h
    | some name =>
      obtain ⟨owner, _, h⟩ := Outcome.bind_eq_ok.mp h
      exact adds_invocationItems h rfl (max_one_operandsHeight target args)
  | static =>
    cases name? with
    | none => cases h
    | some name =>
      obtain ⟨owner, _, h⟩ := Outcome.bind_eq_ok.mp h
      exact adds_invocationItems h rfl (Nat.le_refl _)
  | newObject =>
    cases target with
    | var var =>
      cases h
      exact adds_instr rfl rfl rfl rfl
    | literal | element => cases h
  | newArray =>
    obtain ⟨size, hsize, h⟩ := Outcome.bind_eq_ok.mp h
    split at h
    · obtain rfl := Outcome.pure_eq_ok.mp h
      split <;>
        exact (adds_loadOperand hsize).instr (Nat.le_refl 1) rfl (operandHeight_pos target) rfl rfl
    · cases h
  | arrayLength =>
    obtain ⟨array, harray, h⟩ := Outcome.bind_eq_ok.mp h
    obtain rfl := Outcome.pure_eq_ok.mp h
    exact (adds_loadOperand harray).instr (Nat.le_refl 1) rfl (operandHeight_pos target) rfl rfl

/-- The jump over a constant leaves the same depth on both ways. -/
theorem adds_operatorItems {loads : List Item} {height : Nat} (h : Adds loads 2 height)
    (within : 2 ≤ height) (op : BinOp) : Adds (loads ++ operatorItems number op) 1 height := by
  cases op with
  | lt =>
    intro depth
    obtain ⟨depths, hpasses, hpeak⟩ := h depth
    have hcomparison := Passes.comparison number (.nil (depth + 1))
    rw [List.append_nil] at hcomparison
    refine ⟨_, hpasses.append hcomparison, peak_le_iff.mpr ?_⟩
    rw [peak_le_iff] at hpeak
    intro place hplace
    simp only [List.mem_append, List.mem_cons, List.not_mem_nil, or_false] at hpeak hplace
    rcases hplace with (hbefore | hinside) | hlast
    · exact hpeak place (.inl hbefore)
    · omega
    · omega
  | add | sub | mul | div | and => exact h.instr (Nat.le_refl 2) rfl (by omega) rfl rfl

/-- The items of a value leave that value. -/
theorem adds_valueItems {instr : Code.Instr} (h : valueItems cls method number instr = .ok items) :
    Adds items 1 (valueHeight instr) := by
  cases instr with
  | load operand => exact adds_loadOperand h
  | binary op left right =>
    obtain ⟨loads, hloads, h⟩ := Outcome.bind_eq_ok.mp h
    obtain rfl := Outcome.pure_eq_ok.mp h
    exact adds_operatorItems (adds_loadOperands hloads) (length_le_operandsHeight [left, right]) op
  | not operand =>
    obtain ⟨load, hload, h⟩ := Outcome.bind_eq_ok.mp h
    obtain rfl := Outcome.pure_eq_ok.mp h
    have hone : Adds (instrs [.iconst 1]) 1 1 := adds_instr rfl rfl rfl rfl
    have hheight : max (operandHeight operand) (1 + 1) ≤ max 2 (operandHeight operand) := by omega
    have htwo := ((adds_loadOperand hload).append hone).mono hheight
    have hxor : Adds (load ++ instrs [.iconst 1] ++ instrs [.ixor]) 1 _ :=
      htwo.instr (Nat.le_refl 2) rfl (by omega) rfl rfl
    rw [List.append_assoc] at hxor
    exact hxor
  | call kind target name? args returnTy =>
    rw [valueItems] at h
    split at h
    · cases h
    · next hvoid =>
      have hcall := adds_callItems h
      have hone : callResults kind returnTy = 1 := by cases kind <;> simp [callResults, hvoid]
      rw [hone] at hcall
      exact hcall
  | getField object field =>
    obtain ⟨load, hload, h⟩ := Outcome.bind_eq_ok.mp h
    obtain rfl := Outcome.pure_eq_ok.mp h
    exact (adds_loadOperand hload).instr (Nat.le_refl 1) rfl (operandHeight_pos object) rfl rfl
  | assign | putField | branch | goto | ret => cases h

end

/-- The first jump to a label counts. -/
theorem recordJump_get? (depths : NameMap UInt16) (target? : Option String) (depth : UInt16)
    (label : String) :
    (Draft.recordJump depths target? depth).get? label =
      (depths.get? label).or (if target? = some label then some depth else none) := by
  cases target? with
  | none => simp [Draft.recordJump]
  | some target =>
    rw [Draft.recordJump]
    by_cases heq : label = target
    · subst heq
      cases hget : depths.get? label with
      | none => simp
      | some entry => simp [hget]
    · have hne : target ≠ label := fun h => heq h.symm
      cases hget : depths.get? target with
      | none => simp [NameMap.get?_insert_of_ne _ heq, hne]
      | some entry => simp [hne]

theorem Instr.taken_eq (instr : Instr) : instr.taken = UInt16.ofNat instr.pops := by
  cases instr with
  | invoke kind method =>
    cases kind with
    | static => rfl
    | virtual | special => exact (UInt16.ofNat_add method.args 1).symm
  | _ => rfl

/-- An instruction that takes no more than there is can only be refused where the depth does not
fit into 16 bits. -/
theorem taken_le_of_pops {instr : Instr} {depth : Nat} (pops : instr.pops ≤ depth)
    (fits : depth < UInt16.size) : instr.taken ≤ UInt16.ofNat depth := by
  rw [Instr.taken_eq, UInt16.le_iff_toNat_le, UInt16.toNat_ofNat_of_lt' fits,
    UInt16.toNat_ofNat_of_lt' (Nat.lt_of_le_of_lt pops fits)]
  exact pops

/-- The count in 16 bits follows the true depth. -/
theorem depth_push {draft : Draft} {instr : Instr} {depth : Nat}
    (hdepth : draft.depth = .ofNat depth) (pops : instr.pops ≤ depth) :
    (draft.push instr).depth = .ofNat (depth - instr.pops + instr.pushes) := by
  rw [UInt16.ofNat_add, UInt16.ofNat_sub pops, ← hdepth, ← Instr.taken_eq]
  rfl

theorem eq_zero_of_ofNat {count : Nat} (hcount : count ≤ 1) (h : UInt16.ofNat count = 0) :
    count = 0 := by
  have hzero := congrArg UInt16.toNat h
  rwa [UInt16.toNat_ofNat_of_lt' (Nat.lt_of_le_of_lt hcount (by decide))] at hzero

theorem depth_le_maxDepth_push (draft : Draft) (instr : Instr) :
    (draft.push instr).depth ≤ (draft.push instr).maxDepth := by
  rw [UInt16.le_iff_toNat_le, Draft.push, UInt16.toNat_max]
  exact Nat.le_max_right ..

theorem foldlM_cons_of_add {draft middle : Draft} {item : Item} {rest : List Item}
    (h : draft.add item = .ok middle) :
    (item :: rest).foldlM Draft.add draft = rest.foldlM Draft.add middle := by
  rw [List.foldlM_cons, h, Outcome.ok_bind]

/-- An instruction that takes all there is and leaves nothing empties the stack. -/
theorem add_emptying {draft : Draft} {last : Instr} (hdepth : draft.depth = .ofNat last.pops)
    (empties : last.pushes = 0) :
    ∃ next, draft.add (.instr last) = .ok next ∧ next.depth = 0 ∧
      next.maxDepth = max draft.maxDepth 0 ∧
      next.labelDepths = Draft.recordJump draft.labelDepths last.target? 0 := by
  have htaken : last.taken = draft.depth := last.taken_eq.trans hdepth.symm
  have hafter : draft.depth - last.taken + last.given = 0 := by
    rw [htaken, UInt16.sub_self, UInt16.zero_add, Instr.given, empties]
    rfl
  refine ⟨_, add_of_le (UInt16.le_of_eq htaken), hafter, ?_, ?_⟩ <;> rw [Draft.push, hafter]

/-- Items without labels leave the depth they pass to. -/
theorem depth_of_passes {depth last : Nat} {items : List Item} {depths : List Nat}
    (h : Passes depth items depths last) (noLabels : (listing items).labels = [])
    {draft next : Draft} (hdepth : draft.depth = .ofNat depth)
    (hwritten : items.foldlM Draft.add draft = .ok next) : next.depth = .ofNat last := by
  induction h generalizing draft with
  | nil =>
    cases hwritten
    exact hdepth
  | @instr _ instr _ _ _ pops _ _ _ ih =>
    by_cases htaken : instr.taken ≤ draft.depth
    · rw [foldlM_cons_of_add (add_of_le htaken)] at hwritten
      exact ih noLabels (depth_push hdepth pops) hwritten
    · rw [List.foldlM_cons, add_of_lt (UInt16.not_le.mp htaken)] at hwritten
      cases hwritten
  | comparison => cases noLabels

/-- What writing items that pass through does to a draft. -/
structure Written (draft : Draft) (items : List Item) (depths : List Nat) (last : Nat)
    (next : Draft) : Prop where
  written : items.foldlM Draft.add draft = .ok next
  depth : next.depth = .ofNat last
  depth_le : next.depth ≤ next.maxDepth
  maxDepth : peak (depths ++ [last]) < UInt16.size →
    next.maxDepth.toNat = max draft.maxDepth.toNat (peak (depths ++ [last]))
  labelDepths : ∀ label ∉ (listing items).labels,
    next.labelDepths.get? label = draft.labelDepths.get? label
  closed : next.closed = (draft.closed && items.isEmpty)

/-- Items that cannot be written because the stack seems to hold too little. -/
def Underflows (draft : Draft) (items : List Item) : Prop :=
  ∃ instr, items.foldlM Draft.add draft = .error (.underflow instr)

theorem Underflows.append {draft : Draft} {items : List Item} (h : Underflows draft items)
    (rest : List Item) : Underflows draft (items ++ rest) := by
  obtain ⟨instr, herror⟩ := h
  refine ⟨instr, ?_⟩
  rw [List.foldlM_append, herror]
  rfl

theorem Underflows.ne_ok {draft next : Draft} {items : List Item} (h : Underflows draft items) :
    items.foldlM Draft.add draft ≠ .ok next := by
  obtain ⟨instr, herror⟩ := h
  simp [herror]

theorem Underflows.of_written {draft middle : Draft} {items rest : List Item}
    (hwritten : items.foldlM Draft.add draft = .ok middle) (h : Underflows middle rest) :
    Underflows draft (items ++ rest) := by
  obtain ⟨instr, herror⟩ := h
  exact ⟨instr, by rw [List.foldlM_append, hwritten, Outcome.ok_bind, herror]⟩

/-- An instruction without a target that takes no more than there is. -/
theorem written_instr {draft : Draft} {instr : Instr} {depth : Nat}
    (hdepth : draft.depth = .ofNat depth) (hmax : draft.depth ≤ draft.maxDepth)
    (pops : instr.pops ≤ depth) (noTarget : instr.target? = none)
    (noEnd : instr.endsBlock = false) :
    Written draft [.instr instr] [depth] (depth - instr.pops + instr.pushes) (draft.push instr) ∨
      UInt16.size ≤ depth ∧ Underflows draft [.instr instr] := by
  by_cases htaken : instr.taken ≤ draft.depth
  · refine .inl ⟨foldlM_cons_of_add (add_of_le htaken), depth_push hdepth pops,
      depth_le_maxDepth_push draft instr, ?_, ?_, ?_⟩
    · intro fits
      have hafter := depth_push hdepth pops
      have hmax' := UInt16.le_iff_toNat_le.mp hmax
      simp only [List.cons_append, List.nil_append, peak_cons, peak_nil, Nat.max_lt,
        Nat.max_zero] at fits ⊢
      rw [hdepth, UInt16.toNat_ofNat_of_lt' fits.1] at hmax'
      have hmost : (draft.push instr).maxDepth = max draft.maxDepth (draft.push instr).depth := rfl
      rw [hmost, UInt16.toNat_max, hafter, UInt16.toNat_ofNat_of_lt' fits.2, ← Nat.max_assoc,
        Nat.max_eq_left hmax']
    · intro label _
      rw [Draft.push, noTarget]
      rfl
    · simp [Draft.push, noEnd]
  · refine .inr ⟨?_, instr, ?_⟩
    · by_contra hlt
      rw [hdepth] at htaken
      exact htaken (taken_le_of_pops pops (Nat.not_le.mp hlt))
    · rw [List.foldlM_cons, add_of_lt (UInt16.not_le.mp htaken)]
      rfl

theorem add_ifIcmplt {draft : Draft} {target : String} {depth : UInt16}
    (hdepth : draft.depth = depth + 2) (htaken : 2 ≤ draft.depth)
    (fresh : draft.labelDepths.get? target = none) :
    draft.add (.instr (.ifIcmplt target)) = .ok
      { items := draft.items.push (.instr (.ifIcmplt target))
        depth
        maxDepth := max draft.maxDepth depth
        labelDepths := draft.labelDepths.insert target depth
        closed := false } := by
  have hafter : draft.depth - (Instr.ifIcmplt target).taken + (Instr.ifIcmplt target).given =
      depth := by
    rw [hdepth]
    exact (UInt16.add_zero _).trans (UInt16.add_sub_cancel depth 2)
  have hadd : draft.add (.instr (.ifIcmplt target)) = .ok (draft.push (.ifIcmplt target)) :=
    add_of_le htaken
  rw [hadd, Draft.push, hafter, Instr.target?, Draft.recordJump, fresh]
  rfl

theorem add_goto {draft : Draft} {target : String}
    (fresh : draft.labelDepths.get? target = none) :
    draft.add (.instr (.goto target)) = .ok
      { items := draft.items.push (.instr (.goto target))
        depth := draft.depth
        maxDepth := max draft.maxDepth draft.depth
        labelDepths := draft.labelDepths.insert target draft.depth
        closed := true } := by
  have hafter : draft.depth - (Instr.goto target).taken + (Instr.goto target).given =
      draft.depth := (UInt16.add_zero _).trans (UInt16.sub_zero _)
  rw [add_of_le UInt16.zero_le, Draft.push, hafter, Instr.target?, Draft.recordJump, fresh]
  rfl

theorem add_constant (draft : Draft) (value : Int32) :
    draft.add (.instr (.iconst value)) = .ok
      { items := draft.items.push (.instr (.iconst value))
        depth := draft.depth + 1
        maxDepth := max draft.maxDepth (draft.depth + 1)
        labelDepths := draft.labelDepths
        closed := false } := by
  have hdepth : draft.depth - (Instr.iconst value).taken + (Instr.iconst value).given =
      draft.depth + 1 := congrArg (· + 1) (UInt16.sub_zero draft.depth)
  rw [add_of_le UInt16.zero_le, Draft.push, hdepth]
  rfl

theorem add_label {draft : Draft} {label : String} {depth : UInt16}
    (after : (if draft.closed then (draft.labelDepths.get? label).getD 0 else draft.depth) =
      depth) :
    draft.add (.label label) = .ok
      { draft with items := draft.items.push (.label label), depth, closed := false } := by
  rw [← after]
  rfl

/-- A comparison, whose labels no jump has used before: either way its result is on top of what was
below its operands. -/
theorem foldlM_comparison {draft : Draft} {number : Nat} {depth : UInt16}
    (hdepth : draft.depth = depth + 2) (htaken : 2 ≤ draft.depth)
    (fresh : ∀ label ∈ labelsOfComparison number, draft.labelDepths.get? label = none) :
    ∃ items, (operatorItems number .lt).foldlM Draft.add draft = .ok
      { items
        depth := depth + 1
        maxDepth := max (max (max (max draft.maxDepth depth) (depth + 1)) (depth + 1)) (depth + 1)
        labelDepths := (draft.labelDepths.insert (comparisonLabels number).1 depth).insert
          (comparisonLabels number).2 (depth + 1)
        closed := false } := by
  obtain ⟨items, depth', maxDepth, labelDepths, closed⟩ := draft
  obtain rfl : depth' = depth + 2 := hdepth
  simp only at fresh
  have hdistinct := nodup_labelsOfComparison number
  rw [labelsOfComparison] at fresh hdistinct
  have hne : (comparisonLabels number).2 ≠ (comparisonLabels number).1 := by
    intro heq
    simp [heq] at hdistinct
  have htrue := fresh _ List.mem_cons_self
  have hend := fresh _ (List.mem_cons_of_mem _ List.mem_cons_self)
  have hend' : (labelDepths.insert (comparisonLabels number).1 depth).get?
      (comparisonLabels number).2 = none := by
    rw [NameMap.get?_insert_of_ne _ hne, hend]
  have hget : ((labelDepths.insert (comparisonLabels number).1 depth).insert
      (comparisonLabels number).2 (depth + 1)).get? (comparisonLabels number).1 = some depth := by
    rw [NameMap.get?_insert_of_ne _ hne.symm, NameMap.get?_insert_self]
  have hitems : operatorItems number .lt =
      [.instr (.ifIcmplt (comparisonLabels number).1), .instr (.iconst 0),
        .instr (.goto (comparisonLabels number).2), .label (comparisonLabels number).1,
        .instr (.iconst 1), .label (comparisonLabels number).2] := rfl
  rw [hitems, foldlM_cons_of_add (add_ifIcmplt rfl htaken htrue),
    foldlM_cons_of_add (add_constant _ 0), foldlM_cons_of_add (add_goto hend')]
  -- control gets to the first label by the jump only
  rw [foldlM_cons_of_add (add_label (congrArg (·.getD 0) hget)),
    foldlM_cons_of_add (add_constant _ 1), foldlM_cons_of_add (add_label rfl)]
  exact ⟨_, rfl⟩

/-- The labels of a comparison are new, so each takes its depth from the one jump to it. The
operands seem to be missing only where 16 bits are too few for the depth. -/
theorem written_comparison {draft : Draft} {number depth : Nat}
    (hdepth : draft.depth = .ofNat (depth + 2)) (hmax : draft.depth ≤ draft.maxDepth)
    (fresh : ∀ label ∈ labelsOfComparison number, draft.labelDepths.get? label = none) :
    (∃ next, Written draft (operatorItems number .lt)
      [depth + 2, depth, depth + 1, depth, depth, depth + 1] (depth + 1) next) ∨
      UInt16.size ≤ depth + 2 ∧ Underflows draft (operatorItems number .lt) := by
  by_cases htaken : 2 ≤ draft.depth
  · obtain ⟨items, hwritten⟩ := foldlM_comparison
      (hdepth.trans (UInt16.ofNat_add depth 2)) htaken fresh
    refine .inl ⟨_, hwritten, (UInt16.ofNat_add depth 1).symm, ?_, ?_, ?_, by simp [operatorItems]⟩
    · rw [UInt16.le_iff_toNat_le, UInt16.toNat_max]
      exact Nat.le_max_right ..
    · intro fits
      have hpeak : peak ([depth + 2, depth, depth + 1, depth, depth, depth + 1] ++ [depth + 1]) =
          depth + 2 := Nat.max_eq_left (peak_le_iff.mpr (by simp))
      rw [hpeak] at fits ⊢
      have hmax' := UInt16.le_iff_toNat_le.mp hmax
      rw [hdepth, UInt16.toNat_ofNat_of_lt' fits] at hmax'
      have hbelow : (UInt16.ofNat depth).toNat = depth := UInt16.toNat_ofNat_of_lt' (by omega)
      have hresult : (UInt16.ofNat depth + 1).toNat = depth + 1 := by
        rw [← UInt16.ofNat_one, ← UInt16.ofNat_add, UInt16.toNat_ofNat_of_lt' (by omega)]
      -- the operands have been there, so the maximum is not passed again
      have hleft : max draft.maxDepth.toNat depth = draft.maxDepth.toNat :=
        Nat.max_eq_left (by omega)
      have hright : max draft.maxDepth.toNat (depth + 1) = draft.maxDepth.toNat :=
        Nat.max_eq_left (by omega)
      simp only [UInt16.toNat_max, hbelow, hresult, hleft, hright]
      exact (Nat.max_eq_left hmax').symm
    · intro label hlabel
      have hlabels : label ∉ labelsOfComparison number := hlabel
      simp only [labelsOfComparison, List.mem_cons, List.not_mem_nil, or_false, not_or] at hlabels
      rw [NameMap.get?_insert_of_ne _ hlabels.2, NameMap.get?_insert_of_ne _ hlabels.1]
  · refine .inr ⟨?_, .ifIcmplt (comparisonLabels number).1, ?_⟩
    · by_contra hlt
      rw [hdepth] at htaken
      exact htaken (@taken_le_of_pops (.ifIcmplt (comparisonLabels number).1) _
        (Nat.le_add_left 2 depth) (Nat.not_le.mp hlt))
    · have herror : draft.add (.instr (.ifIcmplt (comparisonLabels number).1)) = .error _ :=
        add_of_lt (UInt16.not_le.mp htaken)
      have hitems : operatorItems number .lt =
        .instr (.ifIcmplt (comparisonLabels number).1) :: _ := rfl
      rw [hitems, List.foldlM_cons, herror]
      rfl

/-- Writing one part after another, of which the second may use labels that the first does not. -/
theorem Written.append {draft middle next : Draft} {items items' : List Item}
    {depths depths' : List Nat} {between last : Nat}
    (h : Written draft items depths between middle)
    (h' : Written middle items' depths' last next) (hfirst : between ≤ peak (depths' ++ [last])) :
    Written draft (items ++ items') (depths ++ depths') last next := by
  refine ⟨?_, h'.depth, h'.depth_le, ?_, ?_, ?_⟩
  · rw [List.foldlM_append, h.written, Outcome.ok_bind, h'.written]
  · intro fits
    rw [List.append_assoc, peak_append] at fits ⊢
    have hrest := Nat.lt_of_le_of_lt (Nat.le_max_right ..) fits
    have hdepths := Nat.lt_of_le_of_lt (Nat.le_max_left ..) fits
    have hmax := h.maxDepth
    simp only [peak_append, peak_cons, peak_nil, Nat.max_zero, Nat.max_lt] at hmax
    rw [h'.maxDepth hrest, hmax ⟨hdepths, Nat.lt_of_le_of_lt hfirst hrest⟩, Nat.max_assoc,
      Nat.max_assoc, Nat.max_eq_right hfirst]
  · intro label hlabel
    rw [listing_append, Machine.Listing.labels_append, List.mem_append, not_or] at hlabel
    rw [h'.labelDepths label hlabel.2, h.labelDepths label hlabel.1]
  · rw [h'.closed, h.closed]
    cases items <;> simp

/-- Items that pass through can be written at their first depth, if no jump has used their labels
before. They seem to take too much only where a depth does not fit into 16 bits. -/
theorem written_of_passes {depth last : Nat} {items : List Item} {depths : List Nat}
    (h : Passes depth items depths last) {draft : Draft} (hdepth : draft.depth = .ofNat depth)
    (hmax : draft.depth ≤ draft.maxDepth) (distinct : (listing items).labels.Nodup)
    (fresh : ∀ label ∈ (listing items).labels, draft.labelDepths.get? label = none) :
    (∃ next, Written draft items depths last next) ∨
      UInt16.size ≤ peak (depths ++ [last]) ∧ Underflows draft items := by
  induction h generalizing draft with
  | nil depth =>
    refine .inl ⟨draft, rfl, hdepth, hmax, ?_, fun _ _ => rfl, by simp⟩
    intro fits
    simp only [List.nil_append, peak_cons, peak_nil, Nat.max_zero] at fits ⊢
    rw [UInt16.le_iff_toNat_le, hdepth, UInt16.toNat_ofNat_of_lt' fits] at hmax
    exact (Nat.max_eq_left hmax).symm
  | @instr depth instr rest depths last pops noTarget noEnd h ih =>
    rcases written_instr hdepth hmax pops noTarget noEnd with hfirst | ⟨hlarge, hunderflow⟩
    · rcases ih hfirst.depth hfirst.depth_le distinct
        (fun label hlabel => (hfirst.labelDepths label (by simp)).trans (fresh label hlabel)) with
        ⟨next, hnext⟩ | ⟨hlarge, hunderflow⟩
      · exact .inl ⟨next, hfirst.append hnext h.first_le_peak⟩
      · exact .inr ⟨Nat.le_trans hlarge (Nat.le_max_right ..),
          .of_written hfirst.written hunderflow⟩
    · exact .inr ⟨Nat.le_trans hlarge (Nat.le_max_left ..), hunderflow.append rest⟩
  | @comparison number depth rest depths last h ih =>
    rw [listing_append, Machine.Listing.labels_append] at distinct fresh
    obtain ⟨_, hrest, hdisjoint⟩ := List.nodup_append.mp distinct
    rcases written_comparison hdepth hmax
      fun label hlabel => fresh label (List.mem_append_left _ hlabel) with
      ⟨middle, hmiddle⟩ | ⟨hlarge, hunderflow⟩
    · have fresh' : ∀ label ∈ (listing rest).labels, middle.labelDepths.get? label = none := by
        intro label hlabel
        rw [hmiddle.labelDepths label fun hmem => hdisjoint label hmem label hlabel rfl]
        exact fresh label (List.mem_append_right _ hlabel)
      rcases ih hmiddle.depth hmiddle.depth_le hrest fresh' with
        ⟨next, hnext⟩ | ⟨hlarge, hunderflow⟩
      · exact .inl ⟨next, hmiddle.append hnext h.first_le_peak⟩
      · refine .inr ⟨?_, .of_written hmiddle.written hunderflow⟩
        rw [List.append_assoc, peak_append]
        exact Nat.le_trans hlarge (Nat.le_max_right ..)
    · exact .inr ⟨Nat.le_trans hlarge (Nat.le_max_left ..), hunderflow.append rest⟩

end ClassCompiler.Stack
