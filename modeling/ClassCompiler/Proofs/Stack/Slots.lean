import ClassCompiler.Proofs.Code.Form
import ClassCompiler.Proofs.Stack.Increment

/-!
# Slots in the items of an instruction

The items of an instruction read the slots of the variables whose values it takes, one after the
other and each as its type says. They write at most one slot, with their last item: that of the
variable stored into. Storing into an element writes no slot.
-/

namespace ClassCompiler.Stack

open Code (Condition Operand Variable)

def Item.slot? : Item → Option UInt16
  | .instr (.iload slot) | .instr (.istore slot) | .instr (.aload slot) | .instr (.astore slot)
  | .instr (.iinc slot _) => some slot
  | _ => none

/-- The slot that an item reads, and whether it reads an integer. -/
def Item.read? : Item → Option (UInt16 × Bool)
  | .instr (.iload slot) | .instr (.iinc slot _) => some (slot, true)
  | .instr (.aload slot) => some (slot, false)
  | _ => none

def Item.write? : Item → Option (UInt16 × Bool)
  | .instr (.istore slot) | .instr (.iinc slot _) => some (slot, true)
  | .instr (.astore slot) => some (slot, false)
  | _ => none

/-- An item that names a slot reads or writes it. -/
theorem Item.slot?_eq (item : Item) : item.slot? = (item.read?.or item.write?).map (·.1) := by
  cases item with
  | label => rfl
  | instr step => cases step <;> rfl

/-- The slot of a variable, and whether it holds an integer. -/
def access? (var : Variable) : Option (UInt16 × Bool) :=
  var.register.map fun slot => (slot, var.ty.isInteger)

theorem access?_eq_some {var : Variable} {slot : UInt16} {integer : Bool} :
    access? var = some (slot, integer) ↔
      var.register = some slot ∧ var.ty.isInteger = integer := by
  simp [access?]

/-- Items that write no slot, and read those of some variables one after the other. -/
structure Loads (vars : List Variable) (items : List Item) : Prop where
  reads : (items.filterMap Item.read?).map some = vars.map access?
  writes : items.filterMap Item.write? = []

namespace Loads

variable {vars vars' : List Variable} {items items' : List Item}

theorem nil : Loads [] [] := ⟨rfl, rfl⟩

theorem append (h : Loads vars items) (h' : Loads vars' items') :
    Loads (vars ++ vars') (items ++ items') := by
  constructor
  · rw [List.filterMap_append, List.map_append, List.map_append, h.reads, h'.reads]
  · rw [List.filterMap_append, h.writes, h'.writes, List.append_nil]

/-- Items that name no slot. -/
theorem of_slot? (h : ∀ item ∈ items, item.slot? = none) : Loads [] items := by
  have hnone : ∀ item ∈ items, item.read? = none ∧ item.write? = none := by
    intro item hitem
    have hslot := h item hitem
    rwa [Item.slot?_eq, Option.map_eq_none_iff, Option.or_eq_none_iff] at hslot
  have hread : items.filterMap Item.read? = [] :=
    List.filterMap_eq_nil_iff.mpr fun item hitem => (hnone item hitem).1
  constructor
  · rw [hread]
    rfl
  · exact List.filterMap_eq_nil_iff.mpr fun item hitem => (hnone item hitem).2

/-- Items with others behind them that name no slot. -/
theorem then_silent (h : Loads vars items) (silent : ∀ item ∈ items', item.slot? = none) :
    Loads vars (items ++ items') := by
  have hboth := h.append (of_slot? silent)
  rwa [List.append_nil] at hboth

/-- Items with an instruction behind them that names no slot. -/
theorem then_instr (h : Loads vars items) {step : Instr} (silent : (Item.instr step).slot? = none) :
    Loads vars (items ++ instrs [step]) :=
  h.then_silent fun item hitem => by
    rw [List.mem_singleton.mp hitem]
    exact silent

theorem instr {step : Instr} (silent : (Item.instr step).slot? = none) :
    Loads [] (instrs [step]) := nil.then_instr silent

variable {item : Item} {slot : UInt16}

theorem write?_eq_none (h : Loads vars items) (hitem : item ∈ items) : item.write? = none :=
  List.filterMap_eq_nil_iff.mp h.writes item hitem

theorem exists_of_read? (h : Loads vars items) (hitem : item ∈ items) {integer : Bool}
    (hread : item.read? = some (slot, integer)) :
    ∃ var ∈ vars, var.register = some slot ∧ var.ty.isInteger = integer := by
  have hmem : some (slot, integer) ∈ vars.map access? := by
    rw [← h.reads]
    exact List.mem_map_of_mem (List.mem_filterMap.mpr ⟨item, hitem, hread⟩)
  obtain ⟨var, hvar, haccess⟩ := List.mem_map.mp hmem
  exact ⟨var, hvar, access?_eq_some.mp haccess⟩

theorem exists_of_slot? (h : Loads vars items) (hitem : item ∈ items)
    (hslot : item.slot? = some slot) : ∃ var ∈ vars, var.register = some slot := by
  rw [Item.slot?_eq, h.write?_eq_none hitem, Option.or_none] at hslot
  obtain ⟨⟨slot, integer⟩, hread, rfl⟩ := Option.map_eq_some_iff.mp hslot
  obtain ⟨var, hvar, hregister, _⟩ := h.exists_of_read? hitem hread
  exact ⟨var, hvar, hregister⟩

end Loads

section

variable {cls : Code.Class} {method : String} {optimize : Bool} {number : Nat} {items : List Item}

theorem register_of_slotOf {var : Variable} {slot : UInt16} (h : slotOf method var = .ok slot) :
    var.register = some slot := by
  obtain ⟨name, ty, role, register⟩ := var
  cases role with
  | field | className => cases h
  | declared | parameter | temporary | receiver =>
    cases register with
    | none => cases h
    | some register =>
      cases h
      rfl

theorem loads_loadVariable {var : Variable} (h : loadVariable method var = .ok items) :
    Loads [var] items := by
  obtain ⟨slot, hslot, h⟩ := Outcome.bind_eq_ok.mp h
  obtain rfl := Outcome.pure_eq_ok.mp h
  have hvar : access? var = some (slot, var.ty.isInteger) :=
    access?_eq_some.mpr ⟨register_of_slotOf hslot, rfl⟩
  constructor
  · rw [List.map_singleton, hvar]
    cases var.ty.isInteger <;> rfl
  · cases var.ty.isInteger <;> rfl

theorem loads_loadOperand {operand : Operand} (h : loadOperand method operand = .ok items) :
    Loads operand.vars items := by
  induction operand generalizing items with
  | literal =>
    cases h
    exact .instr rfl
  | var var => exact loads_loadVariable h
  | element array index ty ih =>
    obtain ⟨arrayItems, harray, h⟩ := Outcome.bind_eq_ok.mp h
    obtain ⟨indexItems, hindex, h⟩ := Outcome.bind_eq_ok.mp h
    obtain rfl := Outcome.pure_eq_ok.mp h
    have hboth := (loads_loadVariable harray).append (ih hindex)
    split <;> exact hboth.then_instr rfl

theorem loads_loadOperands {operands : List Operand}
    (h : loadOperands method operands = .ok items) :
    Loads (operands.flatMap Operand.vars) items := by
  induction operands generalizing items with
  | nil =>
    cases h
    exact .nil
  | cons first rest ih =>
    obtain ⟨firstItems, hfirst, h⟩ := Outcome.bind_eq_ok.mp h
    obtain ⟨restItems, hrest, h⟩ := Outcome.bind_eq_ok.mp h
    obtain rfl := Outcome.pure_eq_ok.mp h
    exact (loads_loadOperand hfirst).append (ih hrest)

theorem loads_loadSingle {operand : Operand} (h : loadOperand method operand = .ok items) :
    Loads ([operand].flatMap Operand.vars) items := by
  rw [List.flatMap_singleton]
  exact loads_loadOperand h

/-- A call reads the slots of its operands in their order. A static one has no target to read. -/
theorem loads_callItems {kind : Code.CallKind} {target : Operand} {name? : Option String}
    {args : List Operand} {returnTy : Code.Ty}
    (h : callItems cls method kind target name? args returnTy = .ok items) :
    Loads ((Code.Instr.call kind target name? args returnTy).loads.flatMap Operand.vars) items := by
  cases kind with
  | special =>
    obtain ⟨owner, _, h⟩ := Outcome.bind_eq_ok.mp h
    obtain ⟨loads, hloads, h⟩ := Outcome.bind_eq_ok.mp h
    obtain rfl := Outcome.pure_eq_ok.mp h
    exact (loads_loadOperands hloads).then_instr rfl
  | virtual | static =>
    cases name? with
    | none => cases h
    | some name =>
      obtain ⟨owner, _, h⟩ := Outcome.bind_eq_ok.mp h
      obtain ⟨loads, hloads, h⟩ := Outcome.bind_eq_ok.mp h
      obtain rfl := Outcome.pure_eq_ok.mp h
      exact (loads_loadOperands hloads).then_instr rfl
  | newObject =>
    cases target with
    | var var =>
      cases h
      exact .instr rfl
    | literal | element => cases h
  | newArray =>
    obtain ⟨size, hsize, h⟩ := Outcome.bind_eq_ok.mp h
    split at h
    · obtain rfl := Outcome.pure_eq_ok.mp h
      split <;> exact (loads_loadSingle hsize).then_instr rfl
    · cases h
  | arrayLength =>
    obtain ⟨array, harray, h⟩ := Outcome.bind_eq_ok.mp h
    obtain rfl := Outcome.pure_eq_ok.mp h
    exact (loads_loadSingle harray).then_instr rfl

theorem slot?_operatorItems (op : BinOp) :
    ∀ item ∈ operatorItems number op, item.slot? = none := by
  cases op <;> simp [operatorItems, instrs, Item.slot?]

/-- The items of a value read the variables whose values it takes. -/
theorem loads_valueItems {instr : Code.Instr} (h : valueItems cls method number instr = .ok items) :
    Loads (instr.loads.flatMap Operand.vars) items := by
  cases instr with
  | load operand => exact loads_loadSingle h
  | binary op left right =>
    obtain ⟨loads, hloads, h⟩ := Outcome.bind_eq_ok.mp h
    obtain rfl := Outcome.pure_eq_ok.mp h
    exact (loads_loadOperands hloads).then_silent (slot?_operatorItems op)
  | not operand =>
    obtain ⟨load, hload, h⟩ := Outcome.bind_eq_ok.mp h
    obtain rfl := Outcome.pure_eq_ok.mp h
    exact (loads_loadSingle hload).then_silent (by simp [instrs, Item.slot?])
  | call kind target name? args returnTy =>
    rw [valueItems] at h
    split at h
    · cases h
    · exact loads_callItems h
  | getField object field =>
    obtain ⟨load, hload, h⟩ := Outcome.bind_eq_ok.mp h
    obtain rfl := Outcome.pure_eq_ok.mp h
    exact (loads_loadSingle hload).then_instr rfl
  | assign | putField | branch | goto | ret => cases h

theorem loads_conditionItems {target : String} {cond : Condition}
    (h : conditionItems method target cond = .ok items) :
    Loads (cond.operands.flatMap Operand.vars) items := by
  cases cond with
  | binary op left right =>
    obtain ⟨loads, hloads, h⟩ := Outcome.bind_eq_ok.mp h
    obtain rfl := Outcome.pure_eq_ok.mp h
    refine (loads_loadOperands hloads).then_silent ?_
    cases op <;> simp [branchItems, instrs, Item.slot?]
  | not operand | holds operand =>
    obtain ⟨load, hload, h⟩ := Outcome.bind_eq_ok.mp h
    obtain rfl := Outcome.pure_eq_ok.mp h
    exact (loads_loadSingle hload).then_instr rfl

end

/-- What the items of an instruction do with slots. -/
inductive Accesses : Code.Instr → List Item → Prop where
  | loads {instr : Code.Instr} {items : List Item}
      (unstored : ∀ var ty value, instr ≠ .assign (.var var) ty value)
      (h : Loads (instr.loads.flatMap Operand.vars) items) : Accesses instr items
  | store {var : Variable} (ty : Code.Ty) {value : Code.Instr} {items : List Item} {slot : UInt16}
      (h : Loads (value.loads.flatMap Operand.vars) items) (assignable : var.role ≠ .receiver)
      (hslot : var.register = some slot) :
      Accesses (.assign (.var var) ty value)
        (items ++ instrs [if var.ty.isInteger then .istore slot else .astore slot])
  | increment {var : Variable} (ty : Code.Ty) {value : Code.Instr} {slot : UInt16} {delta : Int32}
      (counter : isCounter var) (hslot : var.register = some slot)
      (h : Increments var value delta) :
      Accesses (.assign (.var var) ty value) (instrs [.iinc slot delta])

section

variable {cls : Code.Class} {method : String} {optimize : Bool} {number : Nat} {items : List Item}

/-- At most the last item of an assignment writes a slot, and then that of the variable. -/
theorem accesses_assignItems {dest : Operand} {ty : Code.Ty} {value : Code.Instr}
    (h : assignItems cls method optimize number dest value = .ok items) :
    Accesses (.assign dest ty value) items := by
  unfold assignItems at h
  split at h
  · next slot delta hincrement =>
    split at hincrement
    · obtain ⟨var, rfl, counter, hslot, increments, _⟩ := increment?_eq_some hincrement
      cases h
      exact .increment ty counter hslot increments
    · cases hincrement
  · cases dest with
    | var var =>
      obtain ⟨valueItems, hvalue, h⟩ := Outcome.bind_eq_ok.mp h
      obtain ⟨store, hstore, h⟩ := Outcome.bind_eq_ok.mp h
      obtain rfl := Outcome.pure_eq_ok.mp h
      rw [storeVariable] at hstore
      split at hstore
      · cases hstore
      · next assignable =>
        obtain ⟨slot, hslot, hstore⟩ := Outcome.bind_eq_ok.mp hstore
        obtain rfl := Outcome.pure_eq_ok.mp hstore
        exact .store ty (loads_valueItems hvalue) assignable (register_of_slotOf hslot)
    | element array index elementTy =>
      obtain ⟨arrayItems, harray, h⟩ := Outcome.bind_eq_ok.mp h
      obtain ⟨indexItems, hindex, h⟩ := Outcome.bind_eq_ok.mp h
      obtain ⟨valueItems, hvalue, h⟩ := Outcome.bind_eq_ok.mp h
      obtain rfl := Outcome.pure_eq_ok.mp h
      have hplace := (loads_loadVariable harray).append (loads_loadOperand hindex)
      have hall := hplace.append (loads_valueItems hvalue)
      refine .loads (by simp) ?_
      split <;> exact hall.then_instr rfl
    | literal => cases h

/-- What items do with slots follows from the instruction alone. -/
theorem accesses_statementItems {instr : Code.Instr}
    (h : statementItems cls method optimize number instr = .ok items) : Accesses instr items := by
  cases instr with
  | assign dest ty value => exact accesses_assignItems h
  | call kind target name? args returnTy =>
    obtain ⟨call, hcall, h⟩ := Outcome.bind_eq_ok.mp h
    obtain rfl := Outcome.pure_eq_ok.mp h
    refine .loads nofun ?_
    split
    · exact loads_callItems hcall
    · exact (loads_callItems hcall).then_instr rfl
  | putField object field value =>
    obtain ⟨loads, hloads, h⟩ := Outcome.bind_eq_ok.mp h
    obtain rfl := Outcome.pure_eq_ok.mp h
    exact .loads nofun ((loads_loadOperands hloads).then_instr rfl)
  | branch cond target => exact .loads nofun (loads_conditionItems h)
  | goto target =>
    cases h
    exact .loads nofun (.instr rfl)
  | ret ty value =>
    cases value with
    | none =>
      cases h
      exact .loads nofun (.instr rfl)
    | some value =>
      obtain ⟨load, hload, h⟩ := Outcome.bind_eq_ok.mp h
      obtain rfl := Outcome.pure_eq_ok.mp h
      refine .loads nofun ?_
      split <;> exact (loads_loadSingle hload).then_instr rfl
  | binary | not | getField | load =>
    obtain ⟨value, hvalue, h⟩ := Outcome.bind_eq_ok.mp h
    obtain rfl := Outcome.pure_eq_ok.mp h
    exact .loads nofun ((loads_valueItems hvalue).then_instr rfl)

end

theorem isInteger_of_isCounter {var : Variable} (counter : isCounter var) :
    var.ty.isInteger = true := by
  simp only [isCounter, Bool.and_eq_true, decide_eq_true_eq] at counter
  rw [counter.1.1.1]
  rfl

theorem key?_of_sameSlot {var other : Variable} (same : sameSlot other var) :
    other.key? = var.key? := by
  simp only [sameSlot, Bool.and_eq_true, decide_eq_true_eq] at same
  rw [Variable.key?, same.1.1, same.1.2, Variable.key?]

namespace Accesses

variable {instr : Code.Instr} {items : List Item} {item : Item} {slot : UInt16}

/-- Items name slots of variables that occur in their instruction. -/
theorem exists_of_slot? (h : Accesses instr items) (hitem : item ∈ items)
    (hslot : item.slot? = some slot) :
    ∃ var ∈ instr.vars, var.register = some slot := by
  cases h with
  | loads _ h =>
    obtain ⟨var, hvar, hregister⟩ := h.exists_of_slot? hitem hslot
    exact ⟨var, Code.Instr.mem_vars_of_loads hvar, hregister⟩
  | @store var ty value items slot' h _ hvar =>
    rcases List.mem_append.mp hitem with hmem | hmem
    · obtain ⟨other, hother, hregister⟩ := h.exists_of_slot? hmem hslot
      exact ⟨other, List.mem_cons_of_mem _ (Code.Instr.mem_vars_of_loads hother), hregister⟩
    · obtain rfl := List.mem_singleton.mp hmem
      refine ⟨var, List.mem_cons_self, ?_⟩
      rw [hvar, ← hslot]
      split <;> rfl
  | @increment var ty value slot' delta counter hvar h =>
    obtain rfl := List.mem_singleton.mp hitem
    exact ⟨var, List.mem_cons_self, hvar.trans hslot⟩

/-- Only the last item of an instruction writes a slot. -/
theorem write?_of_lt (h : Accesses instr items) {offset : Nat}
    (hitem : items[offset]? = some item) (hlt : offset + 1 < items.length) :
    item.write? = none := by
  cases h with
  | loads _ h => exact h.write?_eq_none (List.mem_of_getElem? hitem)
  | @store var ty value before slot h =>
    have hbefore : offset < before.length := by
      simpa [instrs] using hlt
    rw [List.getElem?_append_left hbefore] at hitem
    exact h.write?_eq_none (List.mem_of_getElem? hitem)
  | increment =>
    simp [instrs] at hlt

/-- The last item of an instruction writes the slot of the variable stored into, with its kind. -/
theorem write?_getLast? (h : Accesses instr items) (hlast : items.getLast? = some item) :
    item.write? = none ∧ (∀ var ty value, instr ≠ .assign (.var var) ty value) ∨
      ∃ dest ty value slot, instr = .assign (.var dest) ty value ∧ dest.register = some slot ∧
        item.write? = some (slot, dest.ty.isInteger) := by
  cases h with
  | loads unstored h => exact .inl ⟨h.write?_eq_none (List.mem_of_getLast? hlast), unstored⟩
  | @store var ty value before slot h _ hslot =>
    refine .inr ⟨var, ty, value, slot, rfl, hslot, ?_⟩
    obtain rfl : .instr (if var.ty.isInteger then .istore slot else .astore slot) = item := by
      simpa [instrs] using hlast
    cases var.ty.isInteger <;> rfl
  | @increment var ty value slot delta counter hslot h =>
    refine .inr ⟨var, ty, value, slot, rfl, hslot, ?_⟩
    cases hlast
    rw [isInteger_of_isCounter counter]
    rfl

/-- Items read slots of variables whose values the instruction takes. The kind is that of an
occurrence of the variable: of the one stored into, if it is incremented. -/
theorem exists_of_read? (h : Accesses instr items) (hitem : item ∈ items) {integer : Bool}
    (hread : item.read? = some (slot, integer)) :
    ∃ var ∈ instr.loads.flatMap Operand.vars, var.register = some slot ∧
      ∃ same ∈ instr.vars, same.key? = var.key? ∧ same.ty.isInteger = integer := by
  have hreads {vars : List Variable} {before : List Item} (h : Loads vars before)
      (hmem : item ∈ before) (hsub : vars ⊆ instr.loads.flatMap Operand.vars) :
      ∃ var ∈ instr.loads.flatMap Operand.vars, var.register = some slot ∧
        ∃ same ∈ instr.vars, same.key? = var.key? ∧ same.ty.isInteger = integer := by
    obtain ⟨var, hvar, hslot, hinteger⟩ := h.exists_of_read? hmem hread
    exact ⟨var, hsub hvar, hslot, var, Code.Instr.mem_vars_of_loads (hsub hvar), rfl, hinteger⟩
  cases h with
  | loads _ h => exact hreads h hitem (List.Subset.refl _)
  | @store var ty value before slot' h _ hvar =>
    rcases List.mem_append.mp hitem with hmem | hmem
    · exact hreads h hmem (List.Subset.refl _)
    · obtain rfl := List.mem_singleton.mp hmem
      split at hread <;> cases hread
  | @increment var ty value slot' delta counter hvar increments =>
    obtain rfl := List.mem_singleton.mp hitem
    cases hread
    have hinteger : var.ty.isInteger = true := isInteger_of_isCounter counter
    cases increments with
    | @addConstant other same | @addToConstant other same | @subConstant other same =>
      have hslot : other.register = some slot := by
        simp only [sameSlot, Bool.and_eq_true, decide_eq_true_eq] at same
        rw [same.2, hvar]
      refine ⟨other, ?_, hslot, var, List.mem_cons_self, (key?_of_sameSlot same).symm, hinteger⟩
      simp [Code.Instr.loads, Code.Instr.operands, Operand.vars]

end Accesses

end ClassCompiler.Stack
