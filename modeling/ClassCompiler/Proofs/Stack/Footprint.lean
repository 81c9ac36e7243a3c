import ClassCompiler.Proofs.Lowering.Blocks
import ClassCompiler.Proofs.Registers.Assigned
import ClassCompiler.Proofs.Stack.Slots

/-!
# The slots that an instruction touches

Liveness goes by the names that an instruction uses and defines, registers are given to the
variables that occur in it, and its items read and write slots. All three speak of the same
variables. The items read the slots of the variables whose values are taken and write that of the
variable assigned. Of these variables the locals and temporaries are used and defined, and all of
them have the slot that the registers say. Liveness may only count too much: it uses a variable that
is named where a class is expected, or is an argument of a call that takes none.
-/

namespace ClassCompiler.Stack

open Code (Labeled Method Operand Variable)
open Registers (RegisterMap assign mem_allocatableNames naturalMap slot?)

def readSlots (items : List Item) : List UInt16 :=
  (items.filterMap Item.read?).map (·.1)

def writtenSlots (items : List Item) : List UInt16 :=
  (items.filterMap Item.write?).map (·.1)

theorem Loads.readSlots {vars : List Variable} {items : List Item} (h : Loads vars items) :
    (readSlots items).map some = vars.map (·.register) := by
  have hfst := congrArg (List.map (Option.map Prod.fst)) h.reads
  simpa [Stack.readSlots, access?, Function.comp_def] using hfst

namespace Accesses

variable {instr : Code.Instr} {items : List Item}

/-- The items of an instruction read the slots of the variables whose values it takes. -/
theorem readSlots (h : Accesses instr items) :
    (readSlots items).map some = (instr.loads.flatMap Operand.vars).map (·.register) := by
  cases h with
  | loads _ h => exact h.readSlots
  | @store var ty value items slot h =>
    have hstore : Stack.readSlots (items ++ instrs
        [if var.ty.isInteger then .istore slot else .astore slot]) = Stack.readSlots items := by
      split <;> simp [Stack.readSlots, instrs, Item.read?]
    rw [hstore]
    exact h.readSlots
  | increment ty counter hslot increments =>
    cases increments with
    | @addConstant other same | @addToConstant other same | @subConstant other same =>
      simp only [sameSlot, Bool.and_eq_true, decide_eq_true_eq] at same
      simp [Stack.readSlots, instrs, Item.read?, Code.Instr.loads, Code.Instr.operands,
        Operand.vars, same.2, hslot]

/-- The items of an instruction write the slot of the variable that it assigns. -/
theorem writtenSlots (h : Accesses instr items) :
    (writtenSlots items).map some = instr.dest?.toList.map (·.register) := by
  cases h with
  | loads unstored h =>
    have hdest : instr.dest? = none := by
      refine Option.eq_none_iff_forall_ne_some.mpr fun dest hdest => ?_
      obtain ⟨ty, value, heq⟩ := Code.Instr.dest?_eq_some.mp hdest
      exact unstored dest ty value heq
    rw [Stack.writtenSlots, h.writes, hdest]
    rfl
  | @store var ty value items slot h _ hslot =>
    rw [Stack.writtenSlots, List.filterMap_append, h.writes]
    split <;> simp [instrs, Item.write?, Code.Instr.dest?, hslot]
  | increment ty counter hslot =>
    simp [Stack.writtenSlots, instrs, Item.write?, Code.Instr.dest?, hslot]

/-- The receiver is never assigned. -/
theorem role_ne_receiver (h : Accesses instr items) {dest : Variable}
    (hdest : instr.dest? = some dest) : dest.role ≠ .receiver := by
  obtain ⟨ty, value, rfl⟩ := Code.Instr.dest?_eq_some.mp hdest
  cases h with
  | loads unstored => exact absurd rfl (unstored dest ty value)
  | store _ _ assignable => exact assignable
  | increment _ counter =>
    simp only [isCounter, Bool.and_eq_true, decide_eq_true_eq] at counter
    exact counter.1.2

end Accesses

/-- The items of an instruction touch what liveness and the registers know of it. -/
structure Footprint (method : Method) (map : RegisterMap) (instr : Code.Instr)
    (items : List Item) : Prop where
  /-- One read for each occurrence that is loaded, in their order. -/
  reads : (readSlots items).map some = (instr.loads.flatMap Operand.vars).map (·.register)
  writes : (writtenSlots items).map some = instr.dest?.toList.map (·.register)
  read_used : ∀ var ∈ instr.loads.flatMap Operand.vars,
    (var.isAllocatable ∧ var.name ∈ Flow.usesOf instr) ∨ var.role = .receiver ∨
      ∃ position, var.role = .parameter position
  written_defined : ∀ dest ∈ instr.dest?,
    (dest.isAllocatable ∧ dest.name ∈ Flow.defsOf instr) ∨
      ∃ position, dest.role = .parameter position
  uses : ∀ name, name ∈ Flow.usesOf instr ↔
    name ∈ Flow.allocatableNames (instr.loads.flatMap Operand.vars) ∨
      name ∈ Flow.allocatableNames (instr.unloaded.flatMap Operand.vars)
  visited : ∀ var, var ∈ instr.loads.flatMap Operand.vars ∨ var ∈ instr.dest? →
    var ∈ instr.vars ∧ var.register = slot? method map var

theorem mem_usesOf {instr : Code.Instr} {name : String} :
    name ∈ Flow.usesOf instr ↔ name ∈ Flow.allocatableNames (instr.loads.flatMap Operand.vars) ∨
      name ∈ Flow.allocatableNames (instr.unloaded.flatMap Operand.vars) := by
  simp only [Flow.usesOf, mem_allocatableNames, List.mem_flatMap, Code.Instr.mem_readOperands]
  grind

theorem mem_defsOf_of_dest? {instr : Code.Instr} {dest : Variable}
    (hdest : instr.dest? = some dest) (hallocatable : dest.isAllocatable) :
    dest.name ∈ Flow.defsOf instr := by
  obtain ⟨ty, value, rfl⟩ := Code.Instr.dest?_eq_some.mp hdest
  exact mem_allocatableNames.mpr ⟨dest, List.mem_cons_self, hallocatable, rfl⟩

theorem exists_register_of_mem {slots : List UInt16} {vars : List Variable}
    (h : slots.map some = vars.map (·.register)) {var : Variable} (hvar : var ∈ vars) :
    ∃ slot, var.register = some slot := by
  have hmem : var.register ∈ slots.map some := by
    rw [h]
    exact List.mem_map_of_mem hvar
  obtain ⟨slot, _, hslot⟩ := List.mem_map.mp hmem
  exact ⟨slot, hslot.symm⟩

section

variable {method : Method} {map : RegisterMap} {var : Variable}

/-- What has a slot is a local or temporary, the receiver or a parameter. -/
theorem role_of_slot? {slot : UInt16} (h : slot? method map var = some slot) :
    var.isAllocatable ∨ var.role = .receiver ∨ ∃ position, var.role = .parameter position := by
  cases hrole : var.role with
  | declared | temporary => exact .inl (by simp [Variable.isAllocatable, hrole])
  | receiver => exact .inr (.inl rfl)
  | parameter position => exact .inr (.inr ⟨position, rfl⟩)
  | field | className => simp [slot?, hrole] at h

theorem register_of_mem_body {line : Labeled} (hline : line ∈ (assign map method).body)
    (hvar : var ∈ line.instr.vars) : var.register = slot? method map var := by
  have hmem : var ∈ (assign map method).vars :=
    List.mem_append_right _ (Method.mem_occurrences hline hvar)
  rw [Registers.register_of_mem_vars hmem, Registers.slot?_assign]

end

/-- The items of a line, with increments or without, have the footprint that liveness and the
registers go by. -/
theorem footprint_statementItems (cls : Code.Class) (method : Method) (map : RegisterMap)
    (optimize : Bool) (number : Nat) {line : Labeled} (hline : line ∈ (assign map method).body)
    {items : List Item}
    (hitems : statementItems cls method.name optimize number line.instr = .ok items) :
    Footprint method map line.instr items := by
  have accesses := accesses_statementItems hitems
  have hdest {dest : Variable} (h : line.instr.dest? = some dest) : dest ∈ line.instr.vars := by
    obtain ⟨ty, value, heq⟩ := Code.Instr.dest?_eq_some.mp h
    rw [heq]
    exact List.mem_cons_self
  have hrole {var : Variable} {slots : List UInt16} {vars : List Variable}
      (h : slots.map some = vars.map (·.register)) (hmem : var ∈ vars)
      (hvar : var ∈ line.instr.vars) :
      var.isAllocatable ∨ var.role = .receiver ∨ ∃ position, var.role = .parameter position := by
    obtain ⟨slot, hslot⟩ := exists_register_of_mem h hmem
    exact role_of_slot? ((register_of_mem_body hline hvar).symm.trans hslot)
  refine ⟨accesses.readSlots, accesses.writtenSlots, ?_, ?_, fun name => mem_usesOf, ?_⟩
  · intro var hvar
    refine (hrole accesses.readSlots hvar (Code.Instr.mem_vars_of_loads hvar)).imp_left ?_
    intro hallocatable
    refine ⟨hallocatable, mem_usesOf.mpr (.inl ?_)⟩
    exact mem_allocatableNames.mpr ⟨var, hvar, hallocatable, rfl⟩
  · intro dest h
    have hmem : dest ∈ line.instr.dest?.toList := Option.mem_toList.mpr h
    rcases hrole accesses.writtenSlots hmem (hdest h) with hallocatable | hreceiver | hparameter
    · exact .inl ⟨hallocatable, mem_defsOf_of_dest? h hallocatable⟩
    · exact absurd hreceiver (accesses.role_ne_receiver h)
    · exact .inr hparameter
  · rintro var (hvar | hvar)
    · have hmem := Code.Instr.mem_vars_of_loads hvar
      exact ⟨hmem, register_of_mem_body hline hmem⟩
    · exact ⟨hdest hvar, register_of_mem_body hline (hdest hvar)⟩

/-- The value that a method of the class finds in an array, then the length of the array, which is
taken with that value as an argument. -/
def measuring : Method :=
  let array := Variable.declared "a" (.array .int)
  let found := Variable.declared "x" .int
  ⟨"measure", false, false, [.parameter "i" .int 1], .int, [array, found], [
    ⟨[], .assign (.var found) .int (.call .virtual (.var (.receiver "Gauge"))
      (some "at") [.element array (.var (.parameter "i" .int 1)) .int] .int)⟩,
    ⟨[], .call .arrayLength (.var array) none [.var found] .int⟩,
    ⟨[], .ret .int (some (.var found))⟩]⟩

theorem footprint_measuring :
    ∃ line items, (assign (naturalMap measuring) measuring).body[0]? = some line ∧
      statementItems ⟨"Gauge", none, [], [], []⟩ "measure" true 0 line.instr = .ok items ∧
      readSlots items = [0, 2, 1] ∧ writtenSlots items = [3] ∧
      Footprint measuring (naturalMap measuring) line.instr items := by
  refine ⟨_, _, rfl, rfl, rfl, rfl, ?_⟩
  exact footprint_statementItems ⟨"Gauge", none, [], [], []⟩ measuring (naturalMap measuring) true 0
    List.mem_cons_self rfl

/-- The argument of the length of an array is used, and its slot is not read. -/
theorem unread_measuring :
    ∃ line items target var, (assign (naturalMap measuring) measuring).body[1]? = some line ∧
      line.instr = .call .arrayLength target none [.var var] .int ∧
      (∀ optimize, statementItems ⟨"Gauge", none, [], [], []⟩ "measure" optimize 0 line.instr =
        .ok items) ∧
      var.isAllocatable ∧ var.name ∈ Flow.usesOf line.instr ∧ var.register = some 3 ∧
      readSlots items = [2] := by
  refine ⟨_, _, _, _, rfl, rfl, fun optimize => rfl, rfl, ?_, rfl, rfl⟩
  decide

end ClassCompiler.Stack
