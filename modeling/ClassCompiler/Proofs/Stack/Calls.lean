import ClassCompiler.Proofs.Code.Form
import ClassCompiler.Proofs.Stack.Increment

/-!
# Calls and the count of the stack

A call takes off the stack the operands that were put there for it. The count of the stack wraps
around behind 65,535, and so does the count of what a call takes, so the count is right again after
the call. Before it the count may be less than what the call takes, but only where something lies
below the operands: the array and the index of an element that gets the result.
-/

namespace ClassCompiler.Stack

open Code (Operand)

/-- The item puts one value on the stack and takes none. -/
def Item.PushesOne : Item → Prop
  | .label _ => False
  | .instr step => step.pops = 0 ∧ step.pushes = 1

def argumentCount : Code.Instr → Nat
  | .call _ _ _ args _ => args.length
  | .assign _ _ value => argumentCount value
  | _ => 0

/-- How many values an instruction puts on the stack for a method to take. -/
def operandCount : Code.Instr → Nat
  | .call .virtual _ _ args _ | .call .special _ _ args _ => args.length + 1
  | .call .static _ _ args _ => args.length
  | _ => 0

/-- Whether an instruction stores the result of a call into an element, and two values below the
operands of the call make the count of the stack wrap around. -/
def wraps : Code.Instr → Bool
  | .assign (.element ..) _ value => UInt16.size ≤ operandCount value % UInt16.size + 2
  | _ => false

theorem operandCount_mapVars (f : Code.Variable → Code.Variable) (instr : Code.Instr) :
    operandCount (instr.mapVars f) = operandCount instr := by
  cases instr with
  | call kind target name? args returnTy => cases kind <;> simp [Code.Instr.mapVars, operandCount]
  | _ => rfl

@[simp] theorem wraps_mapVars (f : Code.Variable → Code.Variable) (instr : Code.Instr) :
    wraps (instr.mapVars f) = wraps instr := by
  cases instr with
  | assign dest ty value =>
    cases dest with
    | element => simp [Code.Instr.mapVars, Operand.mapVars, wraps, operandCount_mapVars]
    | literal | var => rfl
  | _ => rfl

theorem two_add_ofNat_lt {count : Nat} :
    2 + UInt16.ofNat count < UInt16.ofNat count ↔ UInt16.size ≤ count % UInt16.size + 2 := by
  have hsize : UInt16.size = 65536 := rfl
  rw [UInt16.lt_iff_toNat_lt, UInt16.toNat_add, UInt16.toNat_ofNat', hsize]
  have htwo : UInt16.toNat 2 = 2 := rfl
  omega

section

variable {cls : Code.Class} {method : String} {optimize : Bool} {number : Nat} {items : List Item}
  {draft : Draft}

/-- Loads can be written at any count of the stack. -/
theorem exists_written_loads (hloads : ∀ item ∈ items, item.PushesOne) (draft : Draft) :
    ∃ next, items.foldlM Draft.add draft = .ok next ∧
      next.depth = draft.depth + .ofNat items.length := by
  induction items generalizing draft with
  | nil => exact ⟨draft, rfl, (UInt16.add_zero _).symm⟩
  | cons item rest ih =>
    rw [List.forall_mem_cons] at hloads
    cases item with
    | label => exact hloads.1.elim
    | instr step =>
      obtain ⟨⟨pops, pushes⟩, hrest⟩ := hloads
      have htaken : step.taken = 0 := by rw [Instr.taken_eq, pops]; rfl
      have hgiven : step.given = 1 := by rw [Instr.given, pushes]; rfl
      have hadd : draft.add (.instr step) = .ok (draft.push step) :=
        add_of_le (htaken ▸ UInt16.zero_le)
      obtain ⟨next, hnext, hdepth⟩ := ih hrest (draft.push step)
      refine ⟨next, (foldlM_cons_of_add hadd).trans hnext, ?_⟩
      have hpushed : (draft.push step).depth = draft.depth - step.taken + step.given := rfl
      rw [hdepth, hpushed, htaken, hgiven, UInt16.sub_zero, List.length_cons, UInt16.ofNat_add,
        UInt16.add_assoc, UInt16.add_comm 1]
      rfl

theorem pushesOne_instr {step : Instr} (pops : step.pops = 0) (pushes : step.pushes = 1) :
    (instrs [step]).length = 1 ∧ ∀ item ∈ instrs [step], item.PushesOne :=
  ⟨rfl, List.forall_mem_singleton.mpr ⟨pops, pushes⟩⟩

theorem pushesOne_loadVariable {var : Code.Variable} (h : loadVariable method var = .ok items) :
    items.length = 1 ∧ ∀ item ∈ items, item.PushesOne := by
  obtain ⟨slot, _, h⟩ := Outcome.bind_eq_ok.mp h
  obtain rfl := Outcome.pure_eq_ok.mp h
  split <;> exact pushesOne_instr rfl rfl

theorem pushesOne_loadOperand {operand : Operand} (simple : operand.isSimple)
    (h : loadOperand method operand = .ok items) :
    items.length = 1 ∧ ∀ item ∈ items, item.PushesOne := by
  cases operand with
  | literal =>
    cases h
    exact pushesOne_instr rfl rfl
  | var var => exact pushesOne_loadVariable h
  | element => cases simple

/-- Simple operands take one load each. -/
theorem pushesOne_loadOperands {operands : List Operand}
    (simple : ∀ operand ∈ operands, operand.isSimple)
    (h : loadOperands method operands = .ok items) :
    items.length = operands.length ∧ ∀ item ∈ items, item.PushesOne := by
  induction operands generalizing items with
  | nil =>
    cases h
    exact ⟨rfl, nofun⟩
  | cons first rest ih =>
    rw [List.forall_mem_cons] at simple
    obtain ⟨firstItems, hfirst, h⟩ := Outcome.bind_eq_ok.mp h
    obtain ⟨restItems, hrest, h⟩ := Outcome.bind_eq_ok.mp h
    obtain rfl := Outcome.pure_eq_ok.mp h
    obtain ⟨hlength, hloads⟩ := pushesOne_loadOperand simple.1 hfirst
    obtain ⟨hlength', hloads'⟩ := ih simple.2 hrest
    refine ⟨?_, List.forall_mem_append.mpr ⟨hloads, hloads'⟩⟩
    rw [List.length_append, hlength, hlength', List.length_cons, Nat.add_comm]

/-- Loads, and an instruction that takes what they load. -/
def Invocation (items : List Item) (count results : Nat) : Prop :=
  ∃ loads last, items = loads ++ instrs [last] ∧ (∀ item ∈ loads, item.PushesOne) ∧
    loads.length = count ∧ last.pops = count ∧ last.pushes = results

theorem Invocation.of_invocationItems {kind : InvokeKind} {owner name : String}
    {operands args : List Operand} {returnTy : Code.Ty}
    (simple : ∀ operand ∈ operands, operand.isSimple)
    (hcount : operands.length = args.length + if kind = .static then 0 else 1)
    (h : invocationItems cls method kind owner name operands args returnTy = .ok items) :
    Invocation items operands.length (if returnTy = .void then 0 else 1) := by
  obtain ⟨loads, hloads, h⟩ := Outcome.bind_eq_ok.mp h
  obtain rfl := Outcome.pure_eq_ok.mp h
  obtain ⟨hlength, hall⟩ := pushesOne_loadOperands simple hloads
  refine ⟨loads, _, rfl, hall, hlength, ?_, ?_⟩
  · rw [Instr.pops_invoke, hcount]
  · rw [Instr.pushes_invoke]
    by_cases hvoid : returnTy = .void <;> simp [hvoid]

/-- A call of a method takes its operands off the count, unless they seem to be too few. -/
theorem Invocation.written {count results : Nat} (h : Invocation items count results)
    (draft : Draft) :
    (draft.depth + .ofNat count < .ofNat count → Underflows draft items) ∧
    (¬ draft.depth + .ofNat count < .ofNat count →
      ∃ next, items.foldlM Draft.add draft = .ok next ∧
        next.depth = draft.depth + .ofNat results) := by
  obtain ⟨loads, last, rfl, hloads, hlength, hpops, hpushes⟩ := h
  obtain ⟨middle, hmiddle, hdepth⟩ := exists_written_loads hloads draft
  have htaken : last.taken = .ofNat count := by rw [Instr.taken_eq, hpops]
  rw [hlength] at hdepth
  constructor
  · intro hlt
    refine .of_written hmiddle ⟨last, ?_⟩
    have herror : middle.add (.instr last) = .error _ := add_of_lt (by rwa [hdepth, htaken])
    rw [instrs, List.map_singleton, List.foldlM_cons, herror]
    rfl
  · intro hle
    have hadd : middle.add (.instr last) = .ok (middle.push last) :=
      add_of_le (by rwa [hdepth, htaken, ← UInt16.not_lt])
    refine ⟨middle.push last, ?_, ?_⟩
    · rw [List.foldlM_append, hmiddle, Outcome.ok_bind]
      exact foldlM_cons_of_add hadd
    · have hpushed : (middle.push last).depth = middle.depth - last.taken + last.given := rfl
      rw [hpushed, hdepth, htaken, UInt16.add_sub_cancel, Instr.given, hpushes]

/-- Items that leave what the last instruction takes. -/
theorem exists_emptied {next : Draft} {last : Instr}
    (hwritten : items.foldlM Draft.add draft = .ok next) (hdepth : next.depth = .ofNat last.pops)
    (empties : last.pushes = 0) :
    ∃ final, (items ++ instrs [last]).foldlM Draft.add draft = .ok final ∧ final.depth = 0 := by
  obtain ⟨final, hadd, hempty, _⟩ := add_emptying hdepth empties
  refine ⟨final, ?_, hempty⟩
  rw [List.foldlM_append, hwritten, Outcome.ok_bind]
  exact foldlM_cons_of_add hadd

def invokes : Code.Instr → Bool
  | .call .virtual .. | .call .static .. => true
  | _ => false

theorem counts_of_not_invokes {value : Code.Instr} (yields : value.Yields)
    (h : invokes value = false) : argumentCount value = 0 ∧ operandCount value = 0 := by
  cases yields with
  | static | virtual => cases h
  | load | element | binary | not | length | newIntArray | newObject | getField => exact ⟨rfl, rfl⟩

theorem invocation_callItems {kind : Code.CallKind} {target : Operand} {name? : Option String}
    {args : List Operand} {returnTy : Code.Ty}
    (yields : (Code.Instr.call kind target name? args returnTy).Yields)
    (hinvokes : invokes (.call kind target name? args returnTy))
    (h : callItems cls method kind target name? args returnTy = .ok items) :
    Invocation items (operandCount (.call kind target name? args returnTy))
      (if returnTy = .void then 0 else 1) := by
  cases yields with
  | static cls name ty simple =>
    obtain ⟨owner, _, h⟩ := Outcome.bind_eq_ok.mp h
    exact .of_invocationItems simple rfl h
  | virtual name ty htarget simple =>
    obtain ⟨owner, _, h⟩ := Outcome.bind_eq_ok.mp h
    exact .of_invocationItems (List.forall_mem_cons.mpr ⟨htarget, simple⟩) rfl h
  | length | newIntArray | newObject => cases hinvokes

theorem invocation_valueItems {value : Code.Instr} (yields : value.Yields)
    (hinvokes : invokes value) (h : valueItems cls method number value = .ok items) :
    Invocation items (operandCount value) 1 := by
  cases value with
  | call kind target name? args returnTy =>
    rw [valueItems] at h
    split at h
    · cases h
    · next hvoid =>
      have hinvocation := invocation_callItems yields hinvokes h
      rwa [if_neg hvoid] at hinvocation
  | _ => cases hinvokes

theorem increment?_of_invokes {value : Code.Instr} (hinvokes : invokes value) (dest : Operand) :
    increment? dest value = none := by
  cases value with
  | call => exact increment?_call ..
  | _ => cases hinvokes

/-- On an empty stack a call is never refused. -/
theorem Invocation.written_of_empty {count results : Nat} (h : Invocation items count results)
    (hdepth : draft.depth = 0) :
    ∃ next, items.foldlM Draft.add draft = .ok next ∧ next.depth = .ofNat results := by
  obtain ⟨next, hnext, hresults⟩ := (h.written draft).2 (by simp [hdepth])
  exact ⟨next, hnext, by rw [hresults, hdepth, UInt16.zero_add]⟩

/-- A call that stands for itself finds the stack empty, so its count cannot go wrong. -/
theorem exists_written_call {kind : Code.CallKind} {target : Operand} {name? : Option String}
    {args : List Operand} {returnTy : Code.Ty} (hdepth : draft.depth = 0)
    (yields : (Code.Instr.call kind target name? args returnTy).Yields)
    (hinvokes : invokes (.call kind target name? args returnTy))
    (h : statementItems cls method optimize number (.call kind target name? args returnTy) =
      .ok items) :
    ∃ next, items.foldlM Draft.add draft = .ok next ∧ next.depth = 0 := by
  obtain ⟨call, hcall, h⟩ := Outcome.bind_eq_ok.mp h
  obtain rfl := Outcome.pure_eq_ok.mp h
  obtain ⟨next, hnext, hresults⟩ :=
    (invocation_callItems yields hinvokes hcall).written_of_empty hdepth
  by_cases hvoid : returnTy = .void
  · rw [if_pos hvoid] at hresults ⊢
    exact ⟨next, hnext, hresults⟩
  · rw [if_neg hvoid] at hresults ⊢
    exact exists_emptied hnext hresults rfl

/-- The same holds for a call whose result is stored in a variable. -/
theorem exists_written_store {target : Code.Variable} {ty : Code.Ty} {value : Code.Instr}
    (hdepth : draft.depth = 0) (yields : value.Yields) (hinvokes : invokes value)
    (h : statementItems cls method optimize number (.assign (.var target) ty value) = .ok items) :
    ∃ next, items.foldlM Draft.add draft = .ok next ∧ next.depth = 0 := by
  rw [statementItems, assignItems, increment?_of_invokes hinvokes, ite_self] at h
  obtain ⟨valueItems, hvalue, h⟩ := Outcome.bind_eq_ok.mp h
  obtain ⟨store, hstore, h⟩ := Outcome.bind_eq_ok.mp h
  obtain rfl := Outcome.pure_eq_ok.mp h
  obtain ⟨next, hnext, hresult⟩ :=
    (invocation_valueItems yields hinvokes hvalue).written_of_empty hdepth
  rw [storeVariable] at hstore
  split at hstore
  · cases hstore
  · obtain ⟨slot, _, hstore⟩ := Outcome.bind_eq_ok.mp hstore
    obtain rfl := Outcome.pure_eq_ok.mp hstore
    split <;> exact exists_emptied hnext hresult rfl

/-- Where the result of a call is stored into an element, the array and the index lie below the
operands of the call. -/
theorem invocation_storeElement {array : Code.Variable} {index : Operand} {elementTy ty : Code.Ty}
    {value : Code.Instr} (hindex : index.isSimple) (yields : value.Yields)
    (hinvokes : invokes value) (h : statementItems cls method optimize number
      (.assign (.element array index elementTy) ty value) = .ok items) :
    ∃ below call store, items = below ++ call ++ instrs [store] ∧
      (∀ item ∈ below, item.PushesOne) ∧ below.length = 2 ∧
      Invocation call (operandCount value) 1 ∧ store.pops = 3 ∧ store.pushes = 0 := by
  rw [statementItems, assignItems, increment?_of_invokes hinvokes, ite_self] at h
  obtain ⟨arrayItems, harray, h⟩ := Outcome.bind_eq_ok.mp h
  obtain ⟨indexItems, hindexItems, h⟩ := Outcome.bind_eq_ok.mp h
  obtain ⟨valueItems, hvalue, h⟩ := Outcome.bind_eq_ok.mp h
  obtain rfl := Outcome.pure_eq_ok.mp h
  obtain ⟨hlength, hloads⟩ := pushesOne_loadVariable harray
  obtain ⟨hlength', hloads'⟩ := pushesOne_loadOperand hindex hindexItems
  refine ⟨arrayItems ++ indexItems, valueItems, _, rfl,
    List.forall_mem_append.mpr ⟨hloads, hloads'⟩, ?_, invocation_valueItems yields hinvokes hvalue,
    ?_, ?_⟩
  · rw [List.length_append, hlength, hlength']
  · split <;> rfl
  · split <;> rfl

/-- A call whose result is stored into an element is refused exactly if the count wraps around. -/
theorem written_storeElement {array : Code.Variable} {index : Operand} {elementTy ty : Code.Ty}
    {value : Code.Instr} (hdepth : draft.depth = 0) (hindex : index.isSimple)
    (yields : value.Yields) (hinvokes : invokes value)
    (h : statementItems cls method optimize number
      (.assign (.element array index elementTy) ty value) = .ok items) :
    (wraps (.assign (.element array index elementTy) ty value) = true → Underflows draft items) ∧
    (wraps (.assign (.element array index elementTy) ty value) = false →
      ∃ next, items.foldlM Draft.add draft = .ok next ∧ next.depth = 0) := by
  obtain ⟨below, call, store, rfl, hbelow, hlength, hcall, hpops, hpushes⟩ :=
    invocation_storeElement hindex yields hinvokes h
  obtain ⟨middle, hmiddle, hmiddleDepth⟩ := exists_written_loads hbelow draft
  have htwo : middle.depth = 2 := by
    rw [hmiddleDepth, hdepth, hlength]
    rfl
  obtain ⟨hrefused, haccepted⟩ := hcall.written middle
  rw [htwo, two_add_ofNat_lt] at hrefused haccepted
  simp only [wraps, decide_eq_true_eq, decide_eq_false_iff_not]
  constructor
  · intro hwraps
    exact .append (.of_written hmiddle (hrefused hwraps)) _
  · intro hfits
    obtain ⟨next, hnext, hresult⟩ := haccepted hfits
    have hall : (below ++ call).foldlM Draft.add draft = .ok next := by
      rw [List.foldlM_append, hmiddle, Outcome.ok_bind, hnext]
    exact exists_emptied hall (by rw [hresult, hpops]; rfl) hpushes

end

end ClassCompiler.Stack
