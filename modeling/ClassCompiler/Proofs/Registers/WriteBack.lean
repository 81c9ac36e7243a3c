import ClassCompiler.Proofs.Code.Erased
import ClassCompiler.Proofs.Registers.Assigned

/-!
# Writing registers back

Two methods of one shape are compared variable by variable: every operand of every instruction is
reached, at any depth, and the fields of field accesses are the same on both sides. Allocation is
said in these terms. It writes slots to occurrences and nothing else, whether or not it succeeds. It
stops at the first method that cannot have its registers, and the methods after it are as they were.
-/

namespace ClassCompiler.Code

section

variable (R : Variable → Variable → Prop)

/-- Operands of one shape whose variables are related one by one. -/
inductive Operand.Rel : Operand → Operand → Prop where
  | literal (value : Int32) (ty : Ty) : Rel (.literal value ty) (.literal value ty)
  | var {var var' : Variable} (h : R var var') : Rel (.var var) (.var var')
  | element {array array' : Variable} {index index' : Operand} (ty : Ty) (harray : R array array')
      (hindex : Rel index index') : Rel (.element array index ty) (.element array' index' ty)

inductive Condition.Rel : Condition → Condition → Prop where
  | binary {left left' right right' : Operand} (op : BinOp) (hleft : left.Rel R left')
      (hright : right.Rel R right') : Rel (.binary op left right) (.binary op left' right')
  | not {operand operand' : Operand} (h : operand.Rel R operand') :
      Rel (.not operand) (.not operand')
  | holds {operand operand' : Operand} (h : operand.Rel R operand') :
      Rel (.holds operand) (.holds operand')

/-- Instructions of one shape whose variables are related one by one. The field of a field access is
no variable of the method: it is the same on both sides. -/
inductive Instr.Rel : Instr → Instr → Prop where
  | assign {dest dest' : Operand} {value value' : Instr} (ty : Ty) (hdest : dest.Rel R dest')
      (hvalue : Rel value value') : Rel (.assign dest ty value) (.assign dest' ty value')
  | binary {left left' right right' : Operand} (op : BinOp) (hleft : left.Rel R left')
      (hright : right.Rel R right') : Rel (.binary op left right) (.binary op left' right')
  | not {operand operand' : Operand} (h : operand.Rel R operand') :
      Rel (.not operand) (.not operand')
  | call {target target' : Operand} {args args' : List Operand} (kind : CallKind)
      (method : Option String) (returnTy : Ty) (htarget : target.Rel R target')
      (hargs : List.Forall₂ (Operand.Rel R) args args') :
      Rel (.call kind target method args returnTy) (.call kind target' method args' returnTy)
  | getField {object object' : Operand} (field : Variable) (h : object.Rel R object') :
      Rel (.getField object field) (.getField object' field)
  | putField {object object' value value' : Operand} (field : Variable)
      (hobject : object.Rel R object') (hvalue : value.Rel R value') :
      Rel (.putField object field value) (.putField object' field value')
  | branch {cond cond' : Condition} (target : String) (h : cond.Rel R cond') :
      Rel (.branch cond target) (.branch cond' target)
  | goto (target : String) : Rel (.goto target) (.goto target)
  | ret {value value' : Option Operand} (ty : Ty) (h : Option.Rel (Operand.Rel R) value value') :
      Rel (.ret ty value) (.ret ty value')
  | load {operand operand' : Operand} (h : operand.Rel R operand') :
      Rel (.load operand) (.load operand')

structure Method.Rel (method method' : Method) : Prop where
  name : method'.name = method.name
  isStatic : method'.isStatic = method.isStatic
  isConstructor : method'.isConstructor = method.isConstructor
  returnTy : method'.returnTy = method.returnTy
  parameters : List.Forall₂ R method.parameters method'.parameters
  locals : List.Forall₂ R method.locals method'.locals
  body : List.Forall₂ (fun line line' => line'.labels = line.labels ∧ line.instr.Rel R line'.instr)
    method.body method'.body

end

section

variable {R : Variable → Variable → Prop} {f : Variable → Variable}

theorem forall₂_map_self {α : Type} {S : α → α → Prop} {g : α → α} {list : List α}
    (h : ∀ item ∈ list, S item (g item)) : List.Forall₂ S list (list.map g) :=
  List.forall₂_map_right_iff.mpr (List.forall₂_same.mpr h)

theorem Operand.rel_mapVars (operand : Operand) (h : ∀ var ∈ operand.vars, R var (f var)) :
    operand.Rel R (operand.mapVars f) := by
  induction operand with
  | literal value ty => exact .literal value ty
  | var var => exact .var (h var List.mem_cons_self)
  | element array index ty ih =>
    obtain ⟨harray, hindex⟩ := List.forall_mem_cons.mp h
    exact .element ty harray (ih hindex)

theorem Condition.rel_mapVars (cond : Condition)
    (h : ∀ operand ∈ cond.operands, operand.Rel R (operand.mapVars f)) :
    cond.Rel R (cond.mapVars f) := by
  cases cond with
  | binary op left right =>
    obtain ⟨hleft, hright⟩ := List.forall_mem_cons.mp h
    exact .binary op hleft (hright right List.mem_cons_self)
  | not operand => exact .not (h operand List.mem_cons_self)
  | holds operand => exact .holds (h operand List.mem_cons_self)

/-- Every operand of an instruction is reached, whatever the instruction is. -/
theorem Instr.rel_mapVars (instr : Instr) (h : ∀ var ∈ instr.vars, R var (f var)) :
    instr.Rel R (instr.mapVars f) := by
  have hoperand : ∀ operand ∈ instr.operands, operand.Rel R (operand.mapVars f) := by
    intro operand hoperand
    apply operand.rel_mapVars
    intro var hvar
    exact h var (List.mem_flatMap.mpr ⟨operand, hoperand, hvar⟩)
  clear h
  induction instr with
  | assign dest ty value ih =>
    obtain ⟨hdest, hvalue⟩ := List.forall_mem_cons.mp hoperand
    exact .assign ty hdest (ih hvalue)
  | binary op left right =>
    obtain ⟨hleft, hright⟩ := List.forall_mem_cons.mp hoperand
    exact .binary op hleft (hright right List.mem_cons_self)
  | not operand => exact .not (hoperand operand List.mem_cons_self)
  | call kind target method args returnTy =>
    obtain ⟨htarget, hargs⟩ := List.forall_mem_cons.mp hoperand
    exact .call kind method returnTy htarget (forall₂_map_self hargs)
  | getField object field => exact .getField field (hoperand object List.mem_cons_self)
  | putField object field value =>
    obtain ⟨hobject, hvalue⟩ := List.forall_mem_cons.mp hoperand
    exact .putField field hobject (hvalue value List.mem_cons_self)
  | branch cond target => exact .branch target (cond.rel_mapVars hoperand)
  | goto target => exact .goto target
  | ret ty value =>
    cases value with
    | none => exact .ret ty .none
    | some operand => exact .ret ty (.some (hoperand operand List.mem_cons_self))
  | load operand => exact .load (hoperand operand List.mem_cons_self)

/-- Mapping variables visits every occurrence, in all operands. -/
theorem Method.rel_mapVars (method : Method) (h : ∀ var ∈ method.vars, R var (f var)) :
    method.Rel R (method.mapVars f) := by
  have hparameters : ∀ var ∈ method.parameters, R var (f var) := fun var hvar =>
    h var (List.mem_append_left _ (List.mem_append_left _ hvar))
  have hlocals : ∀ var ∈ method.locals, R var (f var) := fun var hvar =>
    h var (List.mem_append_left _ (List.mem_append_right _ hvar))
  constructor
  · rfl
  · rfl
  · rfl
  · rfl
  · exact forall₂_map_self hparameters
  · exact forall₂_map_self hlocals
  · apply forall₂_map_self
    intro line hline
    refine ⟨rfl, line.instr.rel_mapVars ?_⟩
    intro var hvar
    exact h var (List.mem_append_right _ (mem_occurrences hline hvar))

end

end ClassCompiler.Code

namespace ClassCompiler.Registers

open Code (Method Variable)

/-- An occurrence before and after its register is written. Nothing else of it changes. The receiver
has slot 0 and the parameters have the slots after it; a local or temporary has the register of its
name, counted from the first slot that is free, or none if the map does not have the name. -/
structure Written (method : Method) (map : RegisterMap) (before after : Variable) : Prop where
  kept : after.erased = before.erased
  receiver : before.role = .receiver → after.register = some 0
  parameter : ∀ position, before.role = .parameter position → 1 ≤ position →
    after.register = some (method.receiverSlots + position - 1)
  allocated : before.isAllocatable →
    after.register = (map.get? before.name).map (method.reservedSlots + ·)
  unplaced : before.role = .field ∨ before.role = .className → after.register = none

/-- One occurrence gets its slot by its role, and keeps all else. -/
theorem written_withSlot (method : Method) (map : RegisterMap) (var : Variable) :
    Written method map var (withSlot method map var) := by
  obtain ⟨name, ty, role, register⟩ := var
  constructor
  · rfl
  · rintro rfl
    rfl
  · rintro position rfl _
    rfl
  · intro hallocatable
    cases role with
    | declared | temporary => rfl
    | parameter | field | receiver | className => cases hallocatable
  · rintro (rfl | rfl) <;> rfl

/-- A method that has got its registers, with its slots at every occurrence of every variable. -/
def Processed (bound? : Option UInt16) (method assigned : Method) : Prop :=
  ∃ map, registerMap method bound? = .ok map ∧ method.Rel (Written method map) assigned ∧
    ∀ var ∈ assigned.vars, var.isAllocatable → ∃ register, map.get? var.name = some register ∧
      var.register = some (method.reservedSlots + register)

/-- A method that cannot have its registers, and what is left of it. Without a map nothing is
written. If the map lacks a variable of the method, all others have been given their slots. -/
def Refused (bound? : Option UInt16) (method left : Method) (fault : Fault) : Prop :=
  registerMap method bound? = .error fault ∧ left = method ∨
    ∃ map name, registerMap method bound? = .ok map ∧ fault = .unassigned method.name name ∧
      (∃ var ∈ method.vars, var.isAllocatable ∧ var.name = name ∧ map.get? name = none) ∧
      method.Rel (Written method map) left

variable {bound? : Option UInt16} {method assigned : Method} {map : RegisterMap}

theorem rel_assign (map : RegisterMap) (method : Method) :
    method.Rel (Written method map) (assign map method) :=
  method.rel_mapVars fun var _ => written_withSlot method map var

theorem erased_assign (map : RegisterMap) (method : Method) :
    (assign map method).erased = method.erased :=
  (keeps_withSlot method map).erased_mapVars method

theorem processed_assign (hmap : registerMap method bound? = .ok map)
    (hchecked : unassigned? map method = none) :
    Processed bound? method (assign map method) := by
  have covers := unassigned?_eq_none.mp hchecked
  refine ⟨map, hmap, rel_assign map method, ?_⟩
  rw [assign, Method.vars_mapVars, List.forall_mem_map]
  intro var hvar hallocatable
  obtain ⟨register, hregister⟩ := covers var hvar hallocatable
  refine ⟨register, hregister, ?_⟩
  have hwritten := (written_withSlot method map var).allocated hallocatable
  rwa [hregister] at hwritten

theorem refused_assign {name : String} (hmap : registerMap method bound? = .ok map)
    (hchecked : unassigned? map method = some name) :
    Refused bound? method (assign map method) (.unassigned method.name name) := by
  obtain ⟨var, hfind, rfl⟩ := Option.map_eq_some_iff.mp hchecked
  have hvar := List.find?_some hfind
  simp only [Bool.and_eq_true, Option.isNone_iff_eq_none] at hvar
  exact .inr ⟨map, var.name, hmap, rfl,
    ⟨var, List.mem_of_find?_eq_some hfind, hvar.1, rfl, hvar.2⟩, rel_assign map method⟩

/-- What comes of the first method decides whether the others are taken up. -/
theorem allocateAll_cons (bound? : Option UInt16) (method : Method) (rest : List Method) :
    (∃ left fault, Refused bound? method left fault ∧ left.erased = method.erased ∧
      allocateAll bound? (method :: rest) = (left :: rest, some fault)) ∨
    ∃ assigned, Processed bound? method assigned ∧ assigned.erased = method.erased ∧
      allocateAll bound? (method :: rest) =
        (assigned :: (allocateAll bound? rest).1, (allocateAll bound? rest).2) := by
  cases hmap : registerMap method bound? with
  | error fault => exact .inl ⟨method, fault, .inl ⟨hmap, rfl⟩, rfl, by rw [allocateAll, hmap]⟩
  | ok map =>
    have herased := erased_assign map method
    cases hchecked : unassigned? map method with
    | none =>
      refine .inr ⟨assign map method, processed_assign hmap hchecked, herased, ?_⟩
      simp only [allocateAll, hmap, assignChecked, hchecked, Option.map_none]
    | some name =>
      refine .inl ⟨assign map method, _, refused_assign hmap hchecked, herased, ?_⟩
      simp only [allocateAll, hmap, assignChecked, hchecked, Option.map_some]

theorem erased_allocateAll (bound? : Option UInt16) (methods : List Method) :
    (allocateAll bound? methods).1.map Method.erased = methods.map Method.erased := by
  induction methods with
  | nil => rfl
  | cons method rest ih =>
    rcases allocateAll_cons bound? method rest with ⟨left, fault, _, herased, hall⟩ |
      ⟨assigned, _, herased, hall⟩
    · rw [hall, List.map_cons, List.map_cons, herased]
    · rw [hall, List.map_cons, List.map_cons, herased, ih]

/-- The methods before the one that is refused have their registers, and those after it are the
same. -/
theorem allocateAll_course (bound? : Option UInt16) (methods : List Method) :
    ∃ done assigned, List.Forall₂ (Processed bound?) done assigned ∧
      (allocateAll bound? methods = (assigned, none) ∧ methods = done ∨
        ∃ method left later fault, Refused bound? method left fault ∧
          methods = done ++ method :: later ∧
          allocateAll bound? methods = (assigned ++ left :: later, some fault)) := by
  induction methods with
  | nil => exact ⟨[], [], .nil, .inl ⟨rfl, rfl⟩⟩
  | cons first rest ih =>
    rcases allocateAll_cons bound? first rest with ⟨left, fault, hrefused, _, hall⟩ |
      ⟨first', hfirst, _, hall⟩
    · exact ⟨[], [], .nil, .inr ⟨first, left, rest, fault, hrefused, rfl, hall⟩⟩
    · obtain ⟨done, assigned, hdone, hrest⟩ := ih
      refine ⟨first :: done, first' :: assigned, .cons hfirst hdone, ?_⟩
      rcases hrest with ⟨hrest, rfl⟩ | ⟨method, left, later, fault, hrefused, rfl, hrest⟩
      · exact .inl ⟨by rw [hall, hrest], rfl⟩
      · exact .inr ⟨method, left, later, fault, hrefused, rfl, by rw [hall, hrest]; rfl⟩

/-- Allocation writes registers and nothing else, for every class and every bound. Whether or not it
succeeds, the class is the same once its registers are erased, and so is its text. Each method that
is processed has the slot of each variable at all its occurrences. There may then be a method that
is refused, and all methods after it are untouched. -/
theorem allocate_writes_registers (bound? : Option UInt16) (cls : Code.Class) :
    (allocate bound? cls).1.erased = cls.erased ∧ (allocate bound? cls).1.text = cls.text ∧
    ∃ done assigned, List.Forall₂ (Processed bound?) done assigned ∧
      ((allocate bound? cls).2 = none ∧ cls.methods = done ∧
          (allocate bound? cls).1.methods = assigned ∨
        ∃ method left later fault, (allocate bound? cls).2 = some fault ∧
          Refused bound? method left fault ∧ cls.methods = done ++ method :: later ∧
          (allocate bound? cls).1.methods = assigned ++ left :: later) := by
  have herased : (allocate bound? cls).1.erased = cls.erased := by
    simp only [allocate, Code.Class.erased, erased_allocateAll]
  refine ⟨herased, ?_, ?_⟩
  · rw [← Code.Class.text_erased, herased, Code.Class.text_erased]
  · obtain ⟨done, assigned, hdone, hcourse⟩ := allocateAll_course bound? cls.methods
    refine ⟨done, assigned, hdone, ?_⟩
    rcases hcourse with ⟨hall, hmethods⟩ | ⟨method, left, later, fault, hrefused, hmethods, hall⟩
    · exact .inl ⟨by rw [allocate, hall], hmethods, by rw [allocate, hall]⟩
    · exact .inr ⟨method, left, later, fault, by rw [allocate, hall], hrefused, hmethods,
        by rw [allocate, hall]⟩

end ClassCompiler.Registers
