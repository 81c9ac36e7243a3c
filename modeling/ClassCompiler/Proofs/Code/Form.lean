import ClassCompiler.Proofs.Machine.Code

/-!
# The form of lowered code

Lowered code is flat: an instruction takes literals and plain variables, and an element of an array
only stands alone or is stored into. Its variables are declared, and all occurrences of a variable
have one type. Nothing of this depends on the registers that occurrences carry.
-/

namespace ClassCompiler.Code

section

variable (f : Variable → Variable)

@[simp] theorem Operand.isSimple_mapVars (operand : Operand) :
    (operand.mapVars f).isSimple = operand.isSimple := by
  cases operand <;> rfl

@[simp] theorem Condition.operands_mapVars (cond : Condition) :
    (cond.mapVars f).operands = cond.operands.map (·.mapVars f) := by
  cases cond <;> rfl

namespace Instr

@[simp] theorem operands_mapVars (instr : Instr) :
    (instr.mapVars f).operands = instr.operands.map (·.mapVars f) := by
  induction instr with
  | assign dest ty value ih => simp [mapVars, operands, ih]
  | branch cond target => exact cond.operands_mapVars f
  | ret ty value => cases value <;> rfl
  | binary | not | call | getField | putField | goto | load => rfl

theorem vars_mapVars (instr : Instr) : (instr.mapVars f).vars = instr.vars.map f := by
  simp [vars, List.flatMap_map, List.map_flatMap]

@[simp] theorem readOperands_mapVars (instr : Instr) :
    (instr.mapVars f).readOperands = instr.readOperands.map (·.mapVars f) := by
  induction instr with
  | assign dest ty value ih =>
    cases dest with
    | element array index elementTy => simp [mapVars, readOperands, Operand.mapVars, ih]
    | literal | var => exact ih
  | branch cond target => exact cond.operands_mapVars f
  | ret ty value => cases value <;> rfl
  | binary | not | call | getField | putField | goto | load => rfl

@[simp] theorem written?_mapVars (instr : Instr) :
    (instr.mapVars f).written? = instr.written?.map f := by
  cases instr with
  | assign dest ty value => cases dest <;> rfl
  | binary | not | call | getField | putField | branch | goto | ret | load => rfl

end Instr

end

namespace Instr

/-- The operands whose values the instruction takes. The class that a static call or an allocation
names is not one of them, nor is a variable that is stored into. -/
def loads : Instr → List Operand
  | .assign (.element array index ty) _ value => .element array index ty :: value.loads
  | .assign _ _ value => value.loads
  | .call .static _ _ args _ => args
  | .call .newObject .. => []
  | .call .newArray target .. | .call .arrayLength target .. => [target]
  | instr => instr.operands

/-- The operands that an instruction has and whose values it does not take: the class of a static
call or of an allocation, and the arguments of an allocation or of the length of an array. -/
def unloaded : Instr → List Operand
  | .assign _ _ value => value.unloaded
  | .call .static target .. => [target]
  | .call .newObject target _ args _ => target :: args
  | .call .newArray _ _ args _ | .call .arrayLength _ _ args _ => args
  | _ => []

/-- The object whose class has to be known for the method or the constructor that the instruction
invokes on it. A receiver runs the constructor of the superclass on itself. -/
def invoked? : Instr → Option Operand
  | .assign _ _ value => value.invoked?
  | .call .virtual target .. => some target
  | .call .special (.var var) .. => if var.role = .receiver then none else some (.var var)
  | .call .special target .. => some target
  | _ => none

theorem mem_vars_of_written? {instr : Instr} {var : Variable} (h : instr.written? = some var) :
    var ∈ instr.vars := by
  cases instr with
  | assign dest ty value =>
    cases dest with
    | literal => cases h
    | var | element =>
      cases h
      exact List.mem_cons_self
  | binary | not | call | getField | putField | branch | goto | ret | load => cases h

theorem mem_readOperands {instr : Instr} {operand : Operand} :
    operand ∈ instr.readOperands ↔ operand ∈ instr.loads ∨ operand ∈ instr.unloaded := by
  induction instr with
  | assign dest ty value ih =>
    cases dest with
    | element array index elementTy =>
      rw [readOperands, loads, unloaded, List.mem_cons, List.mem_cons, ih, or_assoc]
    | var | literal => exact ih
  | call kind target name? args returnTy =>
    cases kind <;> simp [readOperands, loads, unloaded, operands, or_comm]
  | _ => simp [readOperands, loads, unloaded]

theorem loads_subset_readOperands (instr : Instr) : instr.loads ⊆ instr.readOperands :=
  fun _ h => mem_readOperands.mpr (.inl h)

@[simp] theorem loads_mapVars (f : Variable → Variable) (instr : Instr) :
    (instr.mapVars f).loads = instr.loads.map (·.mapVars f) := by
  induction instr with
  | assign dest ty value ih =>
    cases dest with
    | element array index elementTy => simp [mapVars, loads, Operand.mapVars, ih]
    | literal | var => exact ih
  | call kind target name? args returnTy => cases kind <;> rfl
  | branch cond target => exact cond.operands_mapVars f
  | ret ty value => cases value <;> rfl
  | binary | not | getField | putField | goto | load => rfl

theorem readOperands_subset (instr : Instr) : instr.readOperands ⊆ instr.operands := by
  induction instr with
  | assign dest ty value ih =>
    cases dest with
    | element array index elementTy => exact List.cons_subset_cons _ ih
    | literal | var => exact List.subset_cons_of_subset _ ih
  | binary | not | call | getField | putField | branch | goto | ret | load =>
    exact List.Subset.refl _

/-- Values are taken from variables of the instruction. -/
theorem mem_vars_of_loads {instr : Instr} {var : Variable}
    (h : var ∈ instr.loads.flatMap Operand.vars) : var ∈ instr.vars := by
  obtain ⟨operand, hoperand, hvar⟩ := List.mem_flatMap.mp h
  have hread := instr.loads_subset_readOperands hoperand
  exact List.mem_flatMap.mpr ⟨operand, instr.readOperands_subset hread, hvar⟩

/-- Instructions that yield a value of simple operands. -/
inductive Yields : Instr → Prop where
  | load {operand : Operand} (h : operand.isSimple) : Yields (.load operand)
  | element (array : Variable) {index : Operand} (ty : Ty) (h : index.isSimple) :
      Yields (.load (.element array index ty))
  | binary (op : BinOp) {left right : Operand} (hleft : left.isSimple) (hright : right.isSimple) :
      Yields (.binary op left right)
  | not {operand : Operand} (h : operand.isSimple) : Yields (.not operand)
  | static (cls : Variable) (method : String) {args : List Operand} (ty : Ty)
      (h : ∀ arg ∈ args, arg.isSimple) : Yields (.call .static (.var cls) (some method) args ty)
  | virtual {target : Operand} (method : String) {args : List Operand} (ty : Ty)
      (htarget : target.isSimple) (h : ∀ arg ∈ args, arg.isSimple) :
      Yields (.call .virtual target (some method) args ty)
  | length {array : Operand} (h : array.isSimple) : Yields (.call .arrayLength array none [] .int)
  | newIntArray {size : Operand} (h : size.isSimple) :
      Yields (.call .newArray size none [] (.array .int))
  | newObject (cls : Variable) (name : String) :
      Yields (.call .newObject (.var cls) none [] (.object name))
  | getField (object field : Variable) : Yields (.getField (.var object) field)

/-- Instructions that lowered code is made of. -/
inductive Flat : Instr → Prop where
  | yields {instr : Instr} (h : Yields instr) : Flat instr
  | store (target : Variable) (ty : Ty) {value : Instr} (h : Yields value) :
      Flat (.assign (.var target) ty value)
  | storeElement (array : Variable) {index : Operand} (elementTy ty : Ty) {value : Instr}
      (hindex : index.isSimple) (h : Yields value) :
      Flat (.assign (.element array index elementTy) ty value)
  | construct (target : Variable) : Flat (.construct (.var target))
  | putField (object field : Variable) {value : Operand} (h : value.isSimple) :
      Flat (.putField (.var object) field value)
  | branch {cond : Condition} (target : String) (h : ∀ operand ∈ cond.operands, operand.isSimple) :
      Flat (.branch cond target)
  | goto (target : String) : Flat (.goto target)
  | ret (ty : Ty) {value : Option Operand} (h : ∀ operand ∈ value, operand.isSimple) :
      Flat (.ret ty value)

variable {instr : Instr}

/-- Simple operands stay simple, so the shape of an instruction does not depend on registers. -/
theorem Yields.mapVars (h : Yields instr) (f : Variable → Variable) :
    Yields (instr.mapVars f) := by
  have hargs {args : List Operand} (h : ∀ arg ∈ args, arg.isSimple) :
      ∀ arg ∈ args.map (·.mapVars f), arg.isSimple := by
    simpa using h
  cases h with
  | load h => exact .load (by simpa using h)
  | element array ty h => exact .element _ ty (by simpa using h)
  | binary op hleft hright => exact .binary op (by simpa using hleft) (by simpa using hright)
  | not h => exact .not (by simpa using h)
  | static cls method ty h => exact .static _ method ty (hargs h)
  | virtual method ty htarget h => exact .virtual method ty (by simpa using htarget) (hargs h)
  | length h => exact .length (by simpa using h)
  | newIntArray h => exact .newIntArray (by simpa using h)
  | newObject cls name => exact .newObject _ name
  | getField object field => exact .getField _ field

theorem Flat.mapVars (h : Flat instr) (f : Variable → Variable) : Flat (instr.mapVars f) := by
  cases h with
  | yields h => exact .yields (h.mapVars f)
  | store target ty h => exact .store _ ty (h.mapVars f)
  | storeElement array elementTy ty hindex h =>
    exact .storeElement _ elementTy ty (by simpa using hindex) (h.mapVars f)
  | construct target => exact .construct _
  | putField object field h => exact .putField _ field (by simpa using h)
  | branch target h => exact .branch target (by simpa using h)
  | goto target => exact .goto target
  | ret ty h => exact .ret ty (by simpa using h)

end Instr

namespace Method

def occurrences (method : Method) : List Variable := method.body.flatMap (·.instr.vars)

theorem mem_occurrences {method : Method} {line : Labeled} {var : Variable}
    (hline : line ∈ method.body) (hvar : var ∈ line.instr.vars) : var ∈ method.occurrences :=
  List.mem_flatMap.mpr ⟨line, hline, hvar⟩

theorem mem_occurrences_of_stored {method : Method} {index : Nat} {line : Labeled} {dest : Variable}
    {ty : Ty} {value : Instr} (hline : method.body[index]? = some line)
    (hinstr : line.instr = .assign (.var dest) ty value) : dest ∈ method.occurrences := by
  refine mem_occurrences (List.mem_of_getElem? hline) ?_
  rw [hinstr]
  exact List.mem_cons_self

/-- What lowering promises of every method. -/
structure Formed (method : Method) : Prop where
  parameters : ∀ (index : Nat) (param : Variable), method.parameters[index]? = some param →
    param.role = .parameter (UInt16.ofNat index + 1)
  flat : ∀ line ∈ method.body, line.instr.Flat
  locals : ∀ var ∈ method.locals, var.isAllocatable
  declared : ∀ var ∈ method.occurrences, var.isAllocatable → ∃ decl ∈ method.locals,
    decl.name = var.name
  noField : ∀ var ∈ method.occurrences, var.role ≠ .field
  stored : ∀ line ∈ method.body, ∀ target ∈ line.instr.written?,
    target.role ≠ .receiver ∧ target.role ≠ .className

def receiverCount (method : Method) : Nat := if method.isStatic then 0 else 1

/-- The slots that the receiver and the parameters need, however many they are. -/
def reservedCount (method : Method) : Nat := method.receiverCount + method.parameters.length

/-- The slots of the receiver, the parameters and the locals, when no two of them share one. -/
def slotCount (method : Method) : Nat := method.reservedCount + method.locals.length

theorem parameters_lt_of_slotCount {method : Method} (fits : method.slotCount < UInt16.size) :
    method.parameters.length < UInt16.size := by
  rw [slotCount, reservedCount] at fits
  omega

theorem receiverSlots_eq (method : Method) :
    method.receiverSlots = UInt16.ofNat method.receiverCount := by
  rw [receiverSlots, receiverCount]
  split <;> rfl

theorem reservedSlots_eq (method : Method) :
    method.reservedSlots = UInt16.ofNat method.reservedCount := by
  rw [reservedSlots, receiverSlots_eq, reservedCount, UInt16.ofNat_add]

theorem toNat_reservedSlots {method : Method} (fits : method.reservedCount < UInt16.size) :
    method.reservedSlots.toNat = method.reservedCount := by
  rw [reservedSlots_eq, UInt16.toNat_ofNat_of_lt' fits]

/-- The slot behind the reserved ones that a register names, if 16 bits can number it. -/
theorem toNat_reservedSlots_add {method : Method} {register : UInt16}
    (fits : method.reservedCount + register.toNat < UInt16.size) :
    (method.reservedSlots + register).toNat = method.reservedCount + register.toNat := by
  rw [UInt16.toNat_add, toNat_reservedSlots (Nat.lt_of_le_of_lt (Nat.le_add_right ..) fits)]
  exact Nat.mod_eq_of_lt fits

/-- The slot of a parameter never wraps around. -/
theorem toNat_parameterSlot (method : Method) {position : UInt16} (hone : 1 ≤ position.toNat) :
    (method.receiverSlots + position - 1).toNat = method.receiverCount + position.toNat - 1 := by
  have hle : 1 ≤ position := UInt16.le_iff_toNat_le.mpr hone
  rw [receiverSlots, receiverCount]
  split
  · rw [UInt16.zero_add, UInt16.toNat_sub_of_le _ _ hle, Nat.zero_add]
    rfl
  · rw [UInt16.add_comm, UInt16.add_sub_cancel, Nat.add_comm, Nat.add_sub_cancel]

/-- What lowering promises of a method whose parameters are those of its scope and can be counted in
16 bits: the receiver occurs only where there is one, as a reference, a parameter occurs with the
type it has at its position, and what has one key has one type. -/
structure Framed (method : Method) : Prop where
  receiver : ∀ var ∈ method.occurrences, var.role = .receiver →
    method.isStatic = false ∧ var.ty.isInteger = false
  parameter : ∀ var ∈ method.occurrences, ∀ position, var.role = .parameter position →
    1 ≤ position.toNat ∧
      ∃ param, method.parameters[position.toNat - 1]? = some param ∧ param.ty = var.ty
  typed : ∀ var ∈ method.occurrences, ∀ other ∈ method.occurrences, ∀ key,
    var.key? = some key → other.key? = some key → var.ty = other.ty

end Method

/-- Locals and temporaries are those that are identified by a name. -/
theorem Variable.key?_eq_local_iff {var : Variable} {name : String} :
    var.key? = some (.local name) ↔ var.isAllocatable ∧ var.name = name := by
  obtain ⟨name', ty, role, register⟩ := var
  cases role <;> simp [key?, isAllocatable]

/-- Changes nothing of an occurrence but its register. -/
structure Keeps (f : Variable → Variable) : Prop where
  name : ∀ var, (f var).name = var.name
  ty : ∀ var, (f var).ty = var.ty
  role : ∀ var, (f var).role = var.role

namespace Keeps

variable {f : Variable → Variable} (keeps : Keeps f)

include keeps

theorem isAllocatable (var : Variable) : (f var).isAllocatable = var.isAllocatable := by
  rw [Variable.isAllocatable, keeps.role, Variable.isAllocatable]

theorem key? (var : Variable) : (f var).key? = var.key? := by
  rw [Variable.key?, keeps.role, keeps.name, Variable.key?]

theorem operand_ty (operand : Operand) : (operand.mapVars f).ty = operand.ty := by
  cases operand with
  | var var => exact keeps.ty var
  | literal | element => rfl

theorem invoked? (instr : Instr) :
    (instr.mapVars f).invoked? = instr.invoked?.map (·.mapVars f) := by
  induction instr with
  | assign dest ty value ih => exact ih
  | call kind target name? args returnTy =>
    cases kind with
    | special =>
      cases target with
      | var var =>
        simp only [Instr.mapVars, Operand.mapVars, Instr.invoked?, keeps.role]
        split <;> rfl
      | literal | element => rfl
    | virtual | static | newObject | newArray | arrayLength => rfl
  | binary | not | getField | putField | branch | goto | ret | load => rfl

end Keeps

namespace Method

variable {method : Method} {f : Variable → Variable}

theorem occurrences_mapVars : (method.mapVars f).occurrences = method.occurrences.map f := by
  simp [occurrences, mapVars, List.flatMap_map, List.map_flatMap, Instr.vars_mapVars]

theorem vars_mapVars : (method.mapVars f).vars = method.vars.map f := by
  have hvars (method : Method) :
      method.vars = method.parameters ++ method.locals ++ method.occurrences := rfl
  rw [hvars, occurrences_mapVars, hvars, List.map_append, List.map_append]
  rfl

/-- What lowering promises still holds after registers have been written. -/
theorem Formed.mapVars (h : method.Formed) (keeps : Keeps f) : (method.mapVars f).Formed := by
  constructor
  · intro index param hparam
    obtain ⟨var, hvar, rfl⟩ : ∃ var, method.parameters[index]? = some var ∧ f var = param := by
      simpa [Method.mapVars] using hparam
    rw [keeps.role]
    exact h.parameters index var hvar
  · refine List.forall_mem_map.mpr ?_
    intro line hline
    exact (h.flat line hline).mapVars f
  · refine List.forall_mem_map.mpr ?_
    intro var hvar
    rw [keeps.isAllocatable]
    exact h.locals var hvar
  · rw [occurrences_mapVars, List.forall_mem_map]
    intro var hvar hallocatable
    rw [keeps.isAllocatable] at hallocatable
    obtain ⟨decl, hdecl, hname⟩ := h.declared var hvar hallocatable
    exact ⟨f decl, List.mem_map_of_mem hdecl, by rw [keeps.name, keeps.name, hname]⟩
  · rw [occurrences_mapVars, List.forall_mem_map]
    intro var hvar
    rw [keeps.role]
    exact h.noField var hvar
  · refine List.forall_mem_map.mpr ?_
    intro line hline target htarget
    obtain ⟨var, hvar, rfl⟩ : ∃ var, line.instr.written? = some var ∧ f var = target := by
      simpa using htarget
    rw [keeps.role]
    exact h.stored line hline var hvar

/-- The promises on roles and types mention no registers either. -/
theorem Framed.mapVars (h : method.Framed) (keeps : Keeps f) : (method.mapVars f).Framed := by
  constructor
  · rw [occurrences_mapVars, List.forall_mem_map]
    intro var hvar hrole
    rw [keeps.role] at hrole
    rw [keeps.ty]
    exact h.receiver var hvar hrole
  · rw [occurrences_mapVars, List.forall_mem_map]
    intro var hvar position hrole
    rw [keeps.role] at hrole
    obtain ⟨hone, param, hparam, hty⟩ := h.parameter var hvar position hrole
    refine ⟨hone, f param, by simp [Method.mapVars, hparam], ?_⟩
    rw [keeps.ty, keeps.ty, hty]
  · simp only [occurrences_mapVars, List.forall_mem_map]
    intro var hvar other hother key hkey hkey'
    rw [keeps.key?] at hkey hkey'
    rw [keeps.ty, keeps.ty]
    exact h.typed var hvar other hother key hkey hkey'

end Method

end ClassCompiler.Code
