import ClassCompiler.Proofs.Stack.Discipline

/-!
# Why lowered code has no assembly

Code that has been lowered and given registers has assembly, unless a line of it goes against the
types: it loads the name of a class, takes the value of a void call, or invokes a method on what is
no object. All else that can go wrong while assembly is written is excluded by the form of lowered
code, by the registers its variables have been given, or by the depths of the stack. Only where the
count of the stack wraps around, a call seems to take more than there is.
-/

namespace ClassCompiler.Stack

open Code (Condition Labeled Method Operand Variable)
open Outcome (FailsOnly)

/-- The ways in which an instruction can go against the types, with what is said of them. -/
inductive Misuse (method : String) : Code.Instr → Fault → Prop where
  | className {instr : Code.Instr} {operand : Operand} {var : Variable}
      (hload : operand ∈ instr.loads) (hvar : var ∈ operand.vars) (hrole : var.role = .className) :
      Misuse method instr (.noSlot var.name method)
  | voidValue (dest : Operand) (ty : Code.Ty) (kind : Code.CallKind) (target : Operand)
      (name? : Option String) (args : List Operand) :
      Misuse method (.assign dest ty (.call kind target name? args .void))
        (.voidValue (.call kind target name? args .void))
  | notInvocable {instr : Code.Instr} {target : Operand} (hinvoked : target ∈ instr.invoked?)
      (notObject : ∀ name, target.ty ≠ .object name) (notString : target.ty ≠ .string) :
      Misuse method instr (.notInvocable target)

/-- The slots and classes that an instruction needs are missing for given reasons only. -/
structure Foreseen (P : Fault → Prop) (cls : Code.Class) (method : String) (instr : Code.Instr) :
    Prop where
  slots : ∀ operand ∈ instr.loads, ∀ var ∈ operand.vars, FailsOnly P (slotOf method var)
  classes : ∀ target ∈ instr.invoked?, FailsOnly P (classOf cls target)

section

variable {P : Fault → Prop} {cls : Code.Class} {method : String} {optimize : Bool} {number : Nat}

theorem failsOnly_loadVariable {var : Variable} (h : FailsOnly P (slotOf method var)) :
    FailsOnly P (loadVariable method var) :=
  h.bind fun _ _ => .ok _

theorem failsOnly_loadOperand {operand : Operand}
    (h : ∀ var ∈ operand.vars, FailsOnly P (slotOf method var)) :
    FailsOnly P (loadOperand method operand) := by
  induction operand with
  | literal => exact .ok _
  | var var => exact failsOnly_loadVariable (h var List.mem_cons_self)
  | element array index ty ih =>
    apply (failsOnly_loadVariable (h array List.mem_cons_self)).bind
    intro arrayItems _
    apply (ih fun var hvar => h var (List.mem_cons_of_mem array hvar)).bind
    exact fun _ _ => .ok _

theorem failsOnly_loadOperands {operands : List Operand}
    (h : ∀ operand ∈ operands, ∀ var ∈ operand.vars, FailsOnly P (slotOf method var)) :
    FailsOnly P (loadOperands method operands) := by
  induction operands with
  | nil => exact .ok _
  | cons first rest ih =>
    apply (failsOnly_loadOperand (h first List.mem_cons_self)).bind
    intro firstItems _
    apply (ih fun operand hmem => h operand (List.mem_cons_of_mem first hmem)).bind
    exact fun _ _ => .ok _

theorem failsOnly_storeVariable {var : Variable} (hrole : var.role ≠ .receiver)
    (h : FailsOnly P (slotOf method var)) : FailsOnly P (storeVariable method var) := by
  rw [storeVariable, if_neg hrole]
  exact h.bind fun _ _ => .ok _

theorem failsOnly_invocationItems {kind : InvokeKind} {owner name : String}
    {operands args : List Operand} {returnTy : Code.Ty}
    (h : ∀ operand ∈ operands, ∀ var ∈ operand.vars, FailsOnly P (slotOf method var)) :
    FailsOnly P (invocationItems cls method kind owner name operands args returnTy) :=
  (failsOnly_loadOperands h).bind fun _ _ => .ok _

/-- The class of an invocation is that of the object it is on. -/
theorem ownerOf_of_mem_invoked? {kind : Code.CallKind} {target object : Operand}
    {name? : Option String} {args : List Operand} {returnTy : Code.Ty}
    (h : object ∈ (Code.Instr.call kind target name? args returnTy).invoked?) :
    ownerOf cls kind target = classOf cls object := by
  cases kind with
  | virtual =>
    cases h
    cases target <;> rfl
  | special =>
    cases target with
    | var var =>
      rw [Code.Instr.invoked?] at h
      split at h
      · cases h
      · next hrole =>
        cases h
        rw [ownerOf, if_neg hrole]
    | literal | element =>
      cases h
      rfl
  | static | newObject | newArray | arrayLength => cases h

/-- A call of lowered code fails for an operand without a slot, or a target without a class. -/
theorem failsOnly_callItems {kind : Code.CallKind} {target : Operand} {name? : Option String}
    {args : List Operand} {returnTy : Code.Ty}
    (yields : Code.Instr.Yields (.call kind target name? args returnTy))
    (foreseen : Foreseen P cls method (.call kind target name? args returnTy)) :
    FailsOnly P (callItems cls method kind target name? args returnTy) := by
  cases yields with
  | static => exact failsOnly_invocationItems foreseen.slots
  | virtual name =>
    have howner : FailsOnly P (ownerOf cls .virtual target) := by
      have hinvoked :
          target ∈ (Code.Instr.call .virtual target (some name) args returnTy).invoked? := rfl
      rw [ownerOf_of_mem_invoked? hinvoked]
      exact foreseen.classes target hinvoked
    apply howner.bind
    exact fun owner _ => failsOnly_invocationItems foreseen.slots
  | length =>
    apply (failsOnly_loadOperand (foreseen.slots target List.mem_cons_self)).bind
    exact fun _ _ => .ok _
  | newIntArray =>
    apply (failsOnly_loadOperand (foreseen.slots target List.mem_cons_self)).bind
    exact fun _ _ => .ok _
  | newObject => exact .ok _

theorem failsOnly_construct {target : Variable}
    (foreseen : Foreseen P cls method (.construct (.var target))) :
    FailsOnly P (callItems cls method .special (.var target) (some "<init>") [] .void) := by
  have howner : FailsOnly P (ownerOf cls .special (.var target)) := by
    rw [ownerOf]
    split
    · exact .ok _
    · next hrole => exact foreseen.classes _ (if_neg hrole)
  apply howner.bind
  exact fun owner _ => failsOnly_invocationItems foreseen.slots

/-- Besides, a call may be void. -/
theorem failsOnly_valueItems {instr : Code.Instr} (yields : instr.Yields)
    (foreseen : Foreseen P cls method instr)
    (hvoid : ∀ kind target name? args, instr = .call kind target name? args .void →
      P (.voidValue instr)) :
    FailsOnly P (valueItems cls method number instr) := by
  cases instr with
  | load operand => exact failsOnly_loadOperand (foreseen.slots operand List.mem_cons_self)
  | binary op left right => exact (failsOnly_loadOperands foreseen.slots).bind fun _ _ => .ok _
  | not operand =>
    apply (failsOnly_loadOperand (foreseen.slots operand List.mem_cons_self)).bind
    exact fun _ _ => .ok _
  | getField object field =>
    apply (failsOnly_loadOperand (foreseen.slots object List.mem_cons_self)).bind
    exact fun _ _ => .ok _
  | call kind target name? args returnTy =>
    rw [valueItems]
    split
    · next heq => exact .error (hvoid kind target name? args (by rw [heq]))
    · exact failsOnly_callItems yields foreseen
  | assign | putField | branch | goto | ret => cases yields

theorem failsOnly_conditionItems {cond : Condition} {target : String}
    (h : ∀ operand ∈ cond.operands, ∀ var ∈ operand.vars, FailsOnly P (slotOf method var)) :
    FailsOnly P (conditionItems method target cond) := by
  cases cond with
  | binary op left right => exact (failsOnly_loadOperands h).bind fun _ _ => .ok _
  | not operand | holds operand =>
    exact (failsOnly_loadOperand (h operand List.mem_cons_self)).bind fun _ _ => .ok _

/-- Instructions of lowered code fail only as their operands, their classes or void values do. -/
theorem failsOnly_statementItems {instr : Code.Instr} (flat : instr.Flat)
    (foreseen : Foreseen P cls method instr)
    (hstored : ∀ var ty value, instr = .assign (.var var) ty value →
      var.role ≠ .receiver ∧ FailsOnly P (slotOf method var))
    (hvoid : ∀ dest ty kind target name? args,
      instr = .assign dest ty (.call kind target name? args .void) →
        P (.voidValue (.call kind target name? args .void))) :
    FailsOnly P (statementItems cls method optimize number instr) := by
  cases flat with
  | yields yields =>
    cases instr with
    | call kind target name? args returnTy =>
      exact (failsOnly_callItems yields foreseen).bind fun _ _ => .ok _
    | load | binary | not | getField =>
      exact (failsOnly_valueItems yields foreseen nofun).bind fun _ _ => .ok _
    | assign | putField | branch | goto | ret => cases yields
  | @store target ty value yields =>
    obtain ⟨hrole, hslot⟩ := hstored target ty value rfl
    rw [statementItems, assignItems]
    split
    · exact .ok _
    · have hvalue : FailsOnly P (valueItems cls method number value) :=
        failsOnly_valueItems yields ⟨foreseen.slots, foreseen.classes⟩
          fun kind object name? args heq => heq ▸ hvoid _ _ kind object name? args (by rw [heq])
      apply hvalue.bind
      intro valueItems _
      exact (failsOnly_storeVariable hrole hslot).bind fun _ _ => .ok _
  | @storeElement array index elementTy ty value hindex yields =>
    have hdest := foreseen.slots _ List.mem_cons_self
    have hrest : Foreseen P cls method value :=
      ⟨fun operand hmem => foreseen.slots operand (List.mem_cons_of_mem _ hmem), foreseen.classes⟩
    have hvalue : FailsOnly P (valueItems cls method number value) :=
      failsOnly_valueItems yields hrest
        fun kind object name? args heq => heq ▸ hvoid _ _ kind object name? args (by rw [heq])
    rw [statementItems, assignItems]
    split
    · exact .ok _
    · apply (failsOnly_loadVariable (hdest array List.mem_cons_self)).bind
      intro arrayItems _
      apply (failsOnly_loadOperand fun var hvar => hdest var (List.mem_cons_of_mem _ hvar)).bind
      intro indexItems _
      exact hvalue.bind fun _ _ => .ok _
  | construct target => exact (failsOnly_construct foreseen).bind fun _ _ => .ok _
  | putField => exact (failsOnly_loadOperands foreseen.slots).bind fun _ _ => .ok _
  | branch => exact failsOnly_conditionItems foreseen.slots
  | goto => exact .ok _
  | @ret ty value =>
    cases value with
    | none => exact .ok _
    | some value =>
      apply (failsOnly_loadOperand (foreseen.slots value List.mem_cons_self)).bind
      exact fun _ _ => .ok _

theorem failsOnly_of_loadVariable {var : Variable} {items : List Item}
    (h : loadVariable method var = .ok items) : FailsOnly P (slotOf method var) := by
  obtain ⟨slot, hslot, _⟩ := Outcome.bind_eq_ok.mp h
  exact .of_eq_ok hslot

theorem failsOnly_of_loadOperand {operand : Operand} {items : List Item}
    (h : loadOperand method operand = .ok items) :
    ∀ var ∈ operand.vars, FailsOnly P (slotOf method var) := by
  induction operand generalizing items with
  | literal => exact nofun
  | var var =>
    intro other hother
    obtain rfl := List.mem_singleton.mp hother
    exact failsOnly_of_loadVariable h
  | element array index ty ih =>
    obtain ⟨arrayItems, harray, h⟩ := Outcome.bind_eq_ok.mp h
    obtain ⟨indexItems, hindex, _⟩ := Outcome.bind_eq_ok.mp h
    intro var hvar
    rcases List.mem_cons.mp hvar with rfl | hmem
    · exact failsOnly_of_loadVariable harray
    · exact ih hindex var hmem

theorem failsOnly_of_loadSingle {operand : Operand} {items : List Item}
    (h : loadOperand method operand = .ok items) :
    ∀ other ∈ [operand], ∀ var ∈ other.vars, FailsOnly P (slotOf method var) := by
  intro other hother
  obtain rfl := List.mem_singleton.mp hother
  exact failsOnly_of_loadOperand h

theorem failsOnly_of_loadOperands {operands : List Operand} {items : List Item}
    (h : loadOperands method operands = .ok items) :
    ∀ operand ∈ operands, ∀ var ∈ operand.vars, FailsOnly P (slotOf method var) := by
  induction operands generalizing items with
  | nil => exact nofun
  | cons first rest ih =>
    obtain ⟨firstItems, hfirst, h⟩ := Outcome.bind_eq_ok.mp h
    obtain ⟨restItems, hrest, _⟩ := Outcome.bind_eq_ok.mp h
    intro operand hoperand
    rcases List.mem_cons.mp hoperand with rfl | hmem
    · exact failsOnly_of_loadOperand hfirst
    · exact ih hrest operand hmem

/-- A call that has items has all slots and classes that it needs. -/
theorem foreseen_of_callItems {kind : Code.CallKind} {target : Operand} {name? : Option String}
    {args : List Operand} {returnTy : Code.Ty} {items : List Item}
    (h : callItems cls method kind target name? args returnTy = .ok items) :
    Foreseen P cls method (.call kind target name? args returnTy) := by
  have hclass {owner : String} (howner : ownerOf cls kind target = .ok owner) :
      ∀ object ∈ (Code.Instr.call kind target name? args returnTy).invoked?,
        FailsOnly P (classOf cls object) := by
    intro object hobject
    rw [← ownerOf_of_mem_invoked? hobject]
    exact .of_eq_ok howner
  cases kind with
  | special =>
    obtain ⟨owner, howner, h⟩ := Outcome.bind_eq_ok.mp h
    obtain ⟨loads, hloads, _⟩ := Outcome.bind_eq_ok.mp h
    exact ⟨failsOnly_of_loadOperands hloads, hclass howner⟩
  | virtual | static =>
    cases name? with
    | none => cases h
    | some name =>
      obtain ⟨owner, howner, h⟩ := Outcome.bind_eq_ok.mp h
      obtain ⟨loads, hloads, _⟩ := Outcome.bind_eq_ok.mp h
      exact ⟨failsOnly_of_loadOperands hloads, hclass howner⟩
  | newObject => exact ⟨nofun, nofun⟩
  | newArray | arrayLength =>
    obtain ⟨load, hload, _⟩ := Outcome.bind_eq_ok.mp h
    exact ⟨failsOnly_of_loadSingle hload, nofun⟩

theorem foreseen_of_valueItems {instr : Code.Instr} {items : List Item}
    (h : valueItems cls method number instr = .ok items) : Foreseen P cls method instr := by
  cases instr with
  | load operand => exact ⟨failsOnly_of_loadSingle h, nofun⟩
  | binary op left right =>
    obtain ⟨loads, hloads, _⟩ := Outcome.bind_eq_ok.mp h
    exact ⟨failsOnly_of_loadOperands hloads, nofun⟩
  | not operand | getField operand field =>
    obtain ⟨load, hload, _⟩ := Outcome.bind_eq_ok.mp h
    exact ⟨failsOnly_of_loadSingle hload, nofun⟩
  | call kind target name? args returnTy =>
    rw [valueItems] at h
    split at h
    · cases h
    · exact foreseen_of_callItems h
  | assign | putField | branch | goto | ret => cases h

theorem slotOf_of_sameSlot {var other : Variable} (same : sameSlot other var) :
    slotOf method other = slotOf method var := by
  simp only [sameSlot, Bool.and_eq_true, decide_eq_true_eq] at same
  rw [slotOf, slotOf, same.1.1, same.1.2, same.2]

theorem foreseen_of_increments {var : Variable} {value : Code.Instr} {delta : Int32}
    (increments : Increments var value delta) (h : FailsOnly P (slotOf method var)) :
    Foreseen P cls method value := by
  cases increments with
  | addConstant same | addToConstant same | subConstant same =>
    rw [← slotOf_of_sameSlot same] at h
    constructor
    · simpa [Code.Instr.loads, Code.Instr.operands, Operand.vars] using h
    · intro target htarget
      cases htarget

theorem foreseen_of_assignItems {dest : Operand} {ty : Code.Ty} {value : Code.Instr}
    {items : List Item} (h : assignItems cls method optimize number dest value = .ok items) :
    Foreseen P cls method (.assign dest ty value) := by
  unfold assignItems at h
  split at h
  · next slot delta hincrement =>
    split at hincrement
    · obtain ⟨var, rfl, counter, hslot, increments, _⟩ := increment?_eq_some hincrement
      have hvalue : Foreseen P cls method value :=
        foreseen_of_increments increments (.of_eq_ok (slotOf_of_isCounter counter hslot))
      exact ⟨hvalue.slots, hvalue.classes⟩
    · cases hincrement
  · cases dest with
    | var var =>
      obtain ⟨valueItems, hvalue, _⟩ := Outcome.bind_eq_ok.mp h
      have hvalue : Foreseen P cls method value := foreseen_of_valueItems hvalue
      exact ⟨hvalue.slots, hvalue.classes⟩
    | element array index elementTy =>
      obtain ⟨arrayItems, harray, h⟩ := Outcome.bind_eq_ok.mp h
      obtain ⟨indexItems, hindex, h⟩ := Outcome.bind_eq_ok.mp h
      obtain ⟨valueItems, hvalue, _⟩ := Outcome.bind_eq_ok.mp h
      have hvalue : Foreseen P cls method value := foreseen_of_valueItems hvalue
      refine ⟨?_, hvalue.classes⟩
      intro operand hoperand var hvar
      rcases List.mem_cons.mp hoperand with rfl | hmem
      · rcases List.mem_cons.mp hvar with rfl | hmem
        · exact failsOnly_of_loadVariable harray
        · exact failsOnly_of_loadOperand hindex var hmem
      · exact hvalue.slots operand hmem var hvar
    | literal => cases h

/-- What has items needs nothing that is missing: the converse of `failsOnly_statementItems`. -/
theorem foreseen_of_statementItems {instr : Code.Instr} {items : List Item}
    (h : statementItems cls method optimize number instr = .ok items) :
    Foreseen P cls method instr := by
  cases instr with
  | assign dest ty value => exact foreseen_of_assignItems h
  | call kind target name? args returnTy =>
    obtain ⟨call, hcall, _⟩ := Outcome.bind_eq_ok.mp h
    exact foreseen_of_callItems hcall
  | putField object field value =>
    obtain ⟨loads, hloads, _⟩ := Outcome.bind_eq_ok.mp h
    exact ⟨failsOnly_of_loadOperands hloads, nofun⟩
  | branch cond target =>
    refine ⟨?_, nofun⟩
    cases cond with
    | binary op left right =>
      obtain ⟨loads, hloads, _⟩ := Outcome.bind_eq_ok.mp h
      exact failsOnly_of_loadOperands hloads
    | not operand | holds operand =>
      obtain ⟨load, hload, _⟩ := Outcome.bind_eq_ok.mp h
      exact failsOnly_of_loadSingle hload
  | goto target => exact ⟨nofun, nofun⟩
  | ret ty value =>
    cases value with
    | none => exact ⟨nofun, nofun⟩
    | some value =>
      obtain ⟨load, hload, _⟩ := Outcome.bind_eq_ok.mp h
      exact ⟨failsOnly_of_loadSingle hload, nofun⟩
  | binary | not | getField | load =>
    obtain ⟨value, hvalue, _⟩ := Outcome.bind_eq_ok.mp h
    exact foreseen_of_valueItems hvalue

/-- An instruction that has items does not go against the types. -/
theorem not_misuse_of_statementItems {instr : Code.Instr} {items : List Item}
    (h : statementItems cls method optimize number instr = .ok items) (fault : Fault) :
    ¬ Misuse method instr fault := by
  have foreseen : Foreseen (fun _ => False) cls method instr := foreseen_of_statementItems h
  intro misuse
  cases misuse with
  | className hload hvar hrole =>
    exact foreseen.slots _ hload _ hvar _ (by rw [slotOf, hrole])
  | voidValue dest ty kind target name? args =>
    rw [statementItems] at h
    unfold assignItems at h
    rw [increment?_call, ite_self] at h
    cases dest with
    | var var => cases h
    | element array index elementTy =>
      obtain ⟨arrayItems, _, h⟩ := Outcome.bind_eq_ok.mp h
      obtain ⟨indexItems, _, h⟩ := Outcome.bind_eq_ok.mp h
      cases h
    | literal => cases h
  | @notInvocable _ target hinvoked notObject notString =>
    refine foreseen.classes target hinvoked (.notInvocable target) ?_
    have hnone : cls.ownerOf? target.ty = none := by
      cases hty : target.ty with
      | object name => exact absurd hty (notObject name)
      | string => exact absurd hty notString
      | int | bool | array | void => rfl
    rw [classOf, hnone]

/-- An occurrence that has a slot, unless it is the name of a class. -/
def Seated (var : Variable) : Prop :=
  var.role ≠ .field ∧ (var.role ≠ .className → ∃ slot, var.register = some slot)

/-- A seated variable lacks a slot only as the name of a class. -/
theorem failsOnly_slotOf {var : Variable} (seated : Seated var)
    (h : var.role = .className → P (.noSlot var.name method)) :
    FailsOnly P (slotOf method var) := by
  by_cases hclass : var.role = .className
  · rw [slotOf, hclass]
    exact .error (h hclass)
  · obtain ⟨slot, hslot⟩ := seated.2 hclass
    obtain ⟨name, ty, role, register⟩ := var
    obtain rfl : register = some slot := hslot
    cases role with
    | declared | parameter | temporary | receiver => exact .ok slot
    | field => exact absurd rfl seated.1
    | className => exact absurd rfl hclass

theorem failsOnly_classOf {target : Operand}
    (h : (∀ name, target.ty ≠ .object name) → target.ty ≠ .string → P (.notInvocable target)) :
    FailsOnly P (classOf cls target) := by
  rw [classOf]
  cases hty : target.ty with
  | object name => exact .ok _
  | string => exact .ok _
  | int | bool | array | void => exact .error (h (by simp [hty]) (by simp [hty]))

/-- Instructions of lowered code whose variables have slots fail only where they go against the
types. -/
theorem failsOnly_misuse {instr : Code.Instr} (flat : instr.Flat)
    (seated : ∀ var ∈ instr.vars, Seated var)
    (stored : ∀ target ∈ instr.written?, target.role ≠ .receiver ∧ target.role ≠ .className) :
    FailsOnly (Misuse method instr) (statementItems cls method optimize number instr) := by
  have foreseen : Foreseen (Misuse method instr) cls method instr := by
    constructor
    · intro operand hoperand var hvar
      have hmem := Code.Instr.mem_vars_of_loads (List.mem_flatMap.mpr ⟨operand, hoperand, hvar⟩)
      exact failsOnly_slotOf (seated var hmem) fun hclass => .className hoperand hvar hclass
    · intro target htarget
      exact failsOnly_classOf fun notObject notString => .notInvocable htarget notObject notString
  refine failsOnly_statementItems flat foreseen ?_ ?_
  · rintro var ty value rfl
    obtain ⟨notReceiver, notClass⟩ := stored var rfl
    refine ⟨notReceiver, failsOnly_slotOf (seated var List.mem_cons_self) ?_⟩
    exact fun hclass => absurd hclass notClass
  · rintro dest ty kind target name? args rfl
    exact .voidValue dest ty kind target name? args

theorem leftOver_of_flat {instr : Code.Instr} (flat : instr.Flat) : leftOver instr = 0 := by
  cases flat with
  | yields yields =>
    cases yields with
    | static cls method ty | virtual method ty =>
      by_cases hty : ty = .void <;> simp [leftOver, callResults, hty]
    | load | element | binary | not | length | newIntArray | newObject | getField => rfl
  | store | storeElement | construct | putField | branch | goto | ret => rfl

end

section

variable {lines : List Labeled} {number : Nat} {draft : Draft} {trace : Trace} {cls : Code.Class}
  {method : String} {optimize : Bool}

/-- The items of a line can be written after other lines, if they leave nothing on the stack and 16
bits are enough for them. -/
theorem Tracked.exists_addLine (h : Tracked lines number draft trace) (labeled : WellLabeled lines)
    {line : Labeled} (hline : line ∈ lines) {items : List Item}
    (hitems : statementItems cls method optimize number line.instr = .ok items)
    (hleft : leftOver line.instr = 0) (fits : statementHeight line.instr < UInt16.size) :
    ∃ next, draft.addLine cls method optimize number line = .ok next := by
  have hmarked := h.marks labeled fun label hlabel => List.mem_flatMap.mpr ⟨line, hline, hlabel⟩
  have hlabels := labels_statementItems hitems
  have hshape := shape_statementItems hitems
  rw [hleft] at hshape
  cases hshape with
  | passes hadds =>
    have hcomparison : ∀ label ∈ (listing items).labels, label ∈ labelsOfComparison number := by
      intro label hlabel
      rw [hlabels] at hlabel
      split at hlabel
      · exact hlabel
      · cases hlabel
    have hdistinct : (listing items).labels.Nodup := by
      rw [hlabels]
      split
      · exact nodup_labelsOfComparison number
      · exact List.nodup_nil
    obtain ⟨depths, _, _, ⟨next, hnext⟩ | ⟨hlarge, _⟩⟩ :=
      hmarked.written_cases labeled hadds hdistinct hcomparison
    · exact ⟨next, addLine_eq_ok.mpr ⟨items, hitems, hnext.written, hnext.depth⟩⟩
    · exact absurd fits (Nat.not_lt.mpr hlarge)
  | @ends before last hadds noLabels empties =>
    obtain ⟨depths, _, _, ⟨middle, hmiddle⟩ | ⟨hlarge, _⟩⟩ :=
      hmarked.written_cases labeled hadds (by rw [noLabels]; exact List.nodup_nil)
        (by rw [noLabels]; nofun)
    · obtain ⟨next, hwritten, hempty⟩ := exists_emptied hmiddle.written hmiddle.depth empties
      exact ⟨next, addLine_eq_ok.mpr ⟨_, hitems, hwritten, hempty⟩⟩
    · exact absurd fits (Nat.not_lt.mpr hlarge)

/-- A line of lowered code can be written after other lines, unless it is a call at which the count
of the stack wraps around. -/
theorem Tracked.addLine_of_flat (h : Tracked lines number draft trace)
    (labeled : WellLabeled lines) {line : Labeled} (hline : line ∈ lines)
    (flat : line.instr.Flat) {items : List Item}
    (hitems : statementItems cls method optimize number line.instr = .ok items) :
    (wraps line.instr = true →
      ∃ instr, draft.addLine cls method optimize number line = .error (.underflow instr)) ∧
    (wraps line.instr = false →
      ∃ next, draft.addLine cls method optimize number line = .ok next) := by
  have hdepth : (line.labels.foldl Draft.mark draft).depth = 0 :=
    (h.marks labeled fun label hlabel => List.mem_flatMap.mpr ⟨line, hline, hlabel⟩).depth
  have hnarrow (hcount : argumentCount line.instr = 0) :
      ∃ next, draft.addLine cls method optimize number line = .ok next := by
    refine h.exists_addLine labeled hline hitems (leftOver_of_flat flat) ?_
    have hheight := statementHeight_of_flat flat
    rw [hcount] at hheight
    exact Nat.lt_of_le_of_lt hheight (by decide)
  have haccepted (hwritten : ∃ next,
        items.foldlM Draft.add (line.labels.foldl Draft.mark draft) = .ok next ∧ next.depth = 0) :
      ∃ next, draft.addLine cls method optimize number line = .ok next := by
    obtain ⟨next, hnext, hempty⟩ := hwritten
    exact ⟨next, addLine_eq_ok.mpr ⟨items, hitems, hnext, hempty⟩⟩
  have hrefused (hunderflows : Underflows (line.labels.foldl Draft.mark draft) items) :
      ∃ instr, draft.addLine cls method optimize number line = .error (.underflow instr) := by
    obtain ⟨instr, herror⟩ := hunderflows
    refine ⟨instr, ?_⟩
    rw [Draft.addLine, hitems, Outcome.ok_bind, herror]
    rfl
  obtain ⟨labels, instr⟩ := line
  cases flat with
  | yields yields =>
    cases hinvokes : invokes instr with
    | false =>
      have hwraps : wraps instr = false := by cases yields <;> rfl
      exact ⟨by simp [hwraps], fun _ => hnarrow (counts_of_not_invokes yields hinvokes).1⟩
    | true =>
      cases instr with
      | call =>
        exact ⟨by simp [wraps],
          fun _ => haccepted (exists_written_call hdepth yields hinvokes hitems)⟩
      | _ => cases hinvokes
  | @store target ty value yields =>
    refine ⟨by simp [wraps], fun _ => ?_⟩
    cases hinvokes : invokes value with
    | false => exact hnarrow (counts_of_not_invokes yields hinvokes).1
    | true => exact haccepted (exists_written_store hdepth yields hinvokes hitems)
  | @storeElement array index elementTy ty value hindex yields =>
    cases hinvokes : invokes value with
    | false =>
      obtain ⟨hcount, hoperands⟩ := counts_of_not_invokes yields hinvokes
      have hwraps : wraps (.assign (.element array index elementTy) ty value) = false := by
        rw [wraps, hoperands]
        decide
      exact ⟨by simp [hwraps], fun _ => hnarrow hcount⟩
    | true =>
      obtain ⟨hwraps, hfits⟩ := written_storeElement hdepth hindex yields hinvokes hitems
      exact ⟨fun h => hrefused (hwraps h), fun h => haccepted (hfits h)⟩
  | construct | putField | branch | goto | ret => exact ⟨by simp [wraps], fun _ => hnarrow rfl⟩

/-- Lines are written, unless the items of one of them are missing or the count wraps around. -/
theorem Tracked.failsOnly_addLines {P : Fault → Prop} (h : Tracked lines number draft trace)
    (labeled : WellLabeled lines) {remaining : List Labeled}
    (hlines : ∀ line ∈ remaining, line ∈ lines) (flat : ∀ line ∈ remaining, line.instr.Flat)
    (hitems : ∀ line ∈ remaining, ∀ number,
      FailsOnly P (statementItems cls method optimize number line.instr))
    (hwraps : ∀ line ∈ remaining, wraps line.instr = true → ∀ instr, P (.underflow instr)) :
    FailsOnly P (Draft.addLines cls method optimize number draft remaining) := by
  induction remaining generalizing number draft trace with
  | nil => exact .ok draft
  | cons line rest ih =>
    rw [List.forall_mem_cons] at hlines flat hitems hwraps
    have hfirst : FailsOnly P (draft.addLine cls method optimize number line) := by
      rcases (hitems.1 number).ends with ⟨items, hok⟩ | ⟨fault, hfault, herror⟩
      · obtain ⟨hrefused, haccepted⟩ := h.addLine_of_flat labeled hlines.1 flat.1 hok
        cases hline : wraps line.instr with
        | false =>
          obtain ⟨next, hnext⟩ := haccepted hline
          exact .of_eq_ok hnext
        | true =>
          obtain ⟨instr, herror⟩ := hrefused hline
          rw [herror]
          exact .error (hwraps.1 hline instr)
      · rw [Draft.addLine, herror]
        exact .error hfault
    rw [Draft.addLines]
    apply hfirst.bind
    intro next hnext
    obtain ⟨added, hadded, _⟩ := h.addLine labeled hlines.1 hnext
    exact ih hadded hlines.2 flat.2 hitems.2 hwraps.2

/-- The count wraps around at no line that has been written. -/
theorem Tracked.not_wraps {next : Draft} (h : Tracked lines number draft trace)
    (labeled : WellLabeled lines) {remaining : List Labeled}
    (hlines : ∀ line ∈ remaining, line ∈ lines) (flat : ∀ line ∈ remaining, line.instr.Flat)
    (hadd : Draft.addLines cls method optimize number draft remaining = .ok next) :
    ∀ line ∈ remaining, wraps line.instr = false := by
  induction remaining generalizing number draft trace with
  | nil => nofun
  | cons line rest ih =>
    rw [List.forall_mem_cons] at hlines flat ⊢
    rw [Draft.addLines] at hadd
    obtain ⟨middle, hline, hrest⟩ := Outcome.bind_eq_ok.mp hadd
    obtain ⟨added, hadded, _⟩ := h.addLine labeled hlines.1 hline
    refine ⟨?_, ih hadded hlines.2 flat.2 hrest⟩
    obtain ⟨items, hitems, _⟩ := addLine_eq_ok.mp hline
    cases hwraps : wraps line.instr with
    | false => rfl
    | true =>
      obtain ⟨instr, herror⟩ := (h.addLine_of_flat labeled hlines.1 flat.1 hitems).1 hwraps
      simp [herror] at hline

end

/-- A method of lowered code whose variables have slots has a body, unless one of its lines goes
against the types or is a call at which the count of the stack wraps around. -/
theorem failsOnly_bodyOf {method : Method} (formed : method.Formed)
    (complete : Complete method.body) (seated : ∀ var ∈ method.occurrences, Seated var)
    (cls : Code.Class) (optimize : Bool) :
    FailsOnly (fun fault => (∃ line ∈ method.body, Misuse method.name line.instr fault) ∨
        ∃ line ∈ method.body, wraps line.instr = true ∧ ∃ instr, fault = .underflow instr)
      (bodyOf cls method optimize) := by
  refine ((tracked_initial method.body 1).failsOnly_addLines complete.labeled
    (fun _ hline => hline) formed.flat ?_ ?_).bind fun draft _ => .ok draft.finish
  · intro line hline number fault hfault
    have hseated : ∀ var ∈ line.instr.vars, Seated var :=
      fun var hvar => seated var (Method.mem_occurrences hline hvar)
    exact .inl ⟨line, hline, failsOnly_misuse (formed.flat line hline) hseated
      (formed.stored line hline) fault hfault⟩
  · exact fun line hline hwraps instr => .inr ⟨line, hline, hwraps, instr, rfl⟩

theorem not_misuse_of_bodyOf {cls : Code.Class} {method : Method} {optimize : Bool} {body : Body}
    (h : bodyOf cls method optimize = .ok body) {line : Labeled} (hline : line ∈ method.body)
    (fault : Fault) : ¬ Misuse method.name line.instr fault := by
  obtain ⟨segs, draft, hsegs, _⟩ := segments_of_bodyOf h
  obtain ⟨index, hindex⟩ := List.mem_iff_getElem?.mp hline
  obtain ⟨number, seg, hsegment, _⟩ := segments_getElem? hsegs hindex
  obtain ⟨items, hitems, _⟩ := Outcome.bind_eq_ok.mp hsegment
  exact not_misuse_of_statementItems hitems fault

theorem seated_of_allocated {bound? : Option UInt16} {source method : Method}
    (h : Registers.Allocated bound? source method) (formed : method.Formed) :
    ∀ var ∈ method.occurrences, Seated var := by
  intro var hvar
  refine ⟨formed.noField var hvar, fun notClass => ?_⟩
  exact h.exists_register (List.mem_append_right _ hvar) (formed.noField var hvar) notClass

/-- There are two reasons for which lowered code has no body, and no others. -/
theorem exists_bodyOf_iff {method : Method} (formed : method.Formed)
    (complete : Complete method.body) (seated : ∀ var ∈ method.occurrences, Seated var)
    (cls : Code.Class) (optimize : Bool) :
    (∃ body, bodyOf cls method optimize = .ok body) ↔
      ∀ line ∈ method.body, wraps line.instr = false ∧
        ∀ fault, ¬ Misuse method.name line.instr fault := by
  constructor
  · rintro ⟨body, hbody⟩ line hline
    obtain ⟨_, draft, _, _, hdraft, _⟩ := segments_of_bodyOf hbody
    exact ⟨(tracked_initial method.body 1).not_wraps complete.labeled (fun _ hline => hline)
      formed.flat hdraft line hline, not_misuse_of_bodyOf hbody hline⟩
  · intro h
    refine (failsOnly_bodyOf formed complete seated cls optimize).ends.resolve_right ?_
    rintro ⟨fault, ⟨line, hline, misuse⟩ | ⟨line, hline, hwraps, _⟩, _⟩
    · exact (h line hline).2 fault misuse
    · simp [(h line hline).1] at hwraps

/-- A method of a program that has been lowered and given registers has a body, or else one of its
lines goes against the types and the fault says how, or else one of its lines stores the result of a
call into an element and the count of the stack wraps around on the operands. It has a body exactly
if no line does either. -/
theorem bodyOf_lowered {table : Source.SymbolTable} {program : Source.Program}
    {lowered allocated : Code.Class} (hlower : Lowering.lowerProgram table program = .ok lowered)
    {settings : Settings} (hallocate : ClassCompiler.allocate settings lowered = .ok allocated)
    {method : Method} (hmethod : method ∈ allocated.methods) (optimize : Bool) :
    ((∃ body, bodyOf allocated method optimize = .ok body) ∨
      (∃ line ∈ method.body, ∃ fault, Misuse method.name line.instr fault ∧
        bodyOf allocated method optimize = .error fault) ∨
      ∃ line ∈ method.body, wraps line.instr = true ∧
        ∃ instr, bodyOf allocated method optimize = .error (.underflow instr)) ∧
    ((∃ body, bodyOf allocated method optimize = .ok body) ↔
      ∀ line ∈ method.body, wraps line.instr = false ∧
        ∀ fault, ¬ Misuse method.name line.instr fault) := by
  obtain ⟨source, _, hassigned, formed, complete⟩ := exists_source hlower hallocate hmethod
  have seated := seated_of_allocated hassigned formed
  refine ⟨?_, exists_bodyOf_iff formed complete seated allocated optimize⟩
  rcases (failsOnly_bodyOf formed complete seated allocated optimize).ends with
    hok | ⟨fault, ⟨line, hline, hmisuse⟩ | ⟨line, hline, hwraps, instr, rfl⟩, herror⟩
  · exact .inl hok
  · exact .inr (.inl ⟨line, hline, fault, hmisuse, herror⟩)
  · exact .inr (.inr ⟨line, hline, hwraps, instr, herror⟩)

def erring (name : String) (body : List Source.Stmt) : Source.Method :=
  ⟨name, false, [], .int, body, some (.name "n")⟩

/-- A class whose first four methods go against the types: they store the name of a class, store the
value of a void method, invoke a method on a number and construct an object in a variable for
numbers. The last one counts. -/
def erringProgram : Source.Program :=
  ⟨[], "Keeper", none, [], [
    erring "naming" [.assign "keeper" (.name "Keeper")],
    erring "taking" [.assign "n" (.call .this "rest" [] (some .void))],
    erring "invoking" [.expr (.call (.name "n") "rest" [] (some .void))],
    erring "constructing" [.assign "n" (.newObject "Keeper")],
    erring "counting" [.while (.binary .lt (.name "n") (.int 3))
      (.assign "n" (.binary .add (.name "n") (.int 1)))]]⟩

def erringTable : Source.SymbolTable :=
  erringProgram.decl.methods.foldl
    (fun table method => table.addMethod
      ⟨method.name, .int, [], [⟨"keeper", .named "Keeper"⟩, ⟨"n", .int⟩]⟩)
    ⟨"Keeper", none, [], [], ∅⟩

def complaint (cls : Code.Class) (method : Method) : Option String :=
  match bodyOf cls method true with
  | .ok _ => none
  | .error fault => some fault.message

/-- Each of the three misuses is met, one of them twice, and a method without any has a body. -/
theorem bodyOf_erring :
    ∃ lowered allocated, Lowering.lowerProgram erringTable erringProgram = .ok lowered ∧
      ClassCompiler.allocate ⟨true, none⟩ lowered = .ok allocated ∧
      allocated.methods.map (complaint allocated) = [none,
        some "'Keeper' has no local slot in method 'naming'",
        some "void call used as a value: invokevirtual(this, \"rest\").V",
        some "cannot invoke a method on n.i32 of type i32",
        some "cannot invoke a method on n.i32 of type i32", none] ∧
      ∀ method ∈ allocated.methods,
        ((∃ body, bodyOf allocated method true = .ok body) ∨
          (∃ line ∈ method.body, ∃ fault, Misuse method.name line.instr fault ∧
            bodyOf allocated method true = .error fault) ∨
          ∃ line ∈ method.body, wraps line.instr = true ∧
            ∃ instr, bodyOf allocated method true = .error (.underflow instr)) ∧
        ((∃ body, bodyOf allocated method true = .ok body) ↔
          ∀ line ∈ method.body, wraps line.instr = false ∧
            ∀ fault, ¬ Misuse method.name line.instr fault) := by
  have haccepted : (Lowering.lowerProgram erringTable erringProgram).isOk := by decide +kernel
  obtain ⟨lowered, hlower⟩ := Outcome.exists_of_isOk haccepted
  have hcomplaints : ((Lowering.lowerProgram erringTable erringProgram).toOption.bind fun cls =>
      (ClassCompiler.allocate ⟨true, none⟩ cls).toOption).map
        (fun cls => cls.methods.map (complaint cls)) = some [none,
          some "'Keeper' has no local slot in method 'naming'",
          some "void call used as a value: invokevirtual(this, \"rest\").V",
          some "cannot invoke a method on n.i32 of type i32",
          some "cannot invoke a method on n.i32 of type i32", none] := by
    decide +kernel
  rw [hlower] at hcomplaints
  obtain ⟨allocated, hallocate, hlist⟩ :=
    Outcome.exists_of_toOption (x := ClassCompiler.allocate ⟨true, none⟩ lowered) hcomplaints
  refine ⟨lowered, allocated, hlower, hallocate, hlist, ?_⟩
  exact fun method hmethod => bodyOf_lowered hlower hallocate hmethod true

end ClassCompiler.Stack
