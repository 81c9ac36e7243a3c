import ClassCompiler.Proofs.Lowering.Sites
import ClassCompiler.Proofs.Stack.Frame

/-!
# Calls and objects in assembly

The items of a line invoke a method by its name exactly if the line does, and with the types that
the line has. An object is allocated, kept in a slot and loaded again for its constructor, with
nothing in between.
-/

namespace ClassCompiler.Stack

open Code (Condition Labeled Operand Variable)
open Lowering (Realizes)
open Source (Scope Site SymbolTable)

def Item.invoked? : Item → Option MethodRef
  | .instr (.invoke .virtual ref) | .instr (.invoke .static ref) => some ref
  | _ => none

def Item.allocated? : Item → Option String
  | .instr (.new cls) => some cls
  | _ => none

def invocations (items : List Item) : List MethodRef := items.filterMap Item.invoked?

/-- The class whose constructor is called on an object that is on the stack: the object is stored in
a slot, loaded from that slot, and constructed. -/
def constructor? : List Item → Option String
  | .instr (.astore slot) :: .instr (.aload slot') :: .instr (.invoke .special ref) :: _ =>
    if slot = slot' ∧ ref.name = "<init>" ∧ ref.descriptor = "()V" then some ref.cls else none
  | _ => none

structure Construction where
  allocated : String
  constructor? : Option String
deriving DecidableEq

def constructions : List Item → List Construction
  | [] => []
  | item :: rest =>
    match item.allocated? with
    | some cls => ⟨cls, constructor? rest⟩ :: constructions rest
    | none => constructions rest

/-- Items that neither invoke a method by its name nor allocate an object. -/
def Silent (items : List Item) : Prop :=
  ∀ item ∈ items, item.invoked? = none ∧ item.allocated? = none

namespace Silent

variable {items items' : List Item}

theorem nil : Silent [] := nofun

theorem append (h : Silent items) (h' : Silent items') : Silent (items ++ items') := by
  intro item hitem
  rcases List.mem_append.mp hitem with hmem | hmem
  · exact h item hmem
  · exact h' item hmem

theorem instr {step : Instr} (h : (Item.instr step).invoked? = none)
    (h' : (Item.instr step).allocated? = none) : Silent (instrs [step]) := by
  intro item hitem
  obtain rfl := List.mem_singleton.mp hitem
  exact ⟨h, h'⟩

theorem labels (names : List String) : Silent (names.map .label) := by
  intro item hitem
  obtain ⟨name, _, rfl⟩ := List.mem_map.mp hitem
  exact ⟨rfl, rfl⟩

theorem invocations_eq (h : Silent items) : invocations items = [] :=
  List.filterMap_eq_nil_iff.mpr fun item hitem => (h item hitem).1

theorem constructions_append (h : Silent items) (rest : List Item) :
    constructions (items ++ rest) = constructions rest := by
  induction items with
  | nil => rfl
  | cons item others ih =>
    obtain ⟨hitem, hothers⟩ := List.forall_mem_cons.mp h
    simp only [List.cons_append, constructions, hitem.2]
    exact ih hothers

end Silent

@[simp] theorem invocations_append (items items' : List Item) :
    invocations (items ++ items') = invocations items ++ invocations items' :=
  List.filterMap_append

section

variable {cls : Code.Class} {method : String} {optimize : Bool} {number : Nat} {items : List Item}

theorem silent_loadVariable {var : Variable} (h : loadVariable method var = .ok items) :
    Silent items := by
  obtain ⟨slot, _, h⟩ := Outcome.bind_eq_ok.mp h
  obtain rfl := Outcome.pure_eq_ok.mp h
  split <;> exact .instr rfl rfl

theorem silent_loadOperand {operand : Operand} (h : loadOperand method operand = .ok items) :
    Silent items := by
  induction operand generalizing items with
  | literal =>
    cases h
    exact .instr rfl rfl
  | var var => exact silent_loadVariable h
  | element array index ty ih =>
    obtain ⟨arrayItems, harray, h⟩ := Outcome.bind_eq_ok.mp h
    obtain ⟨indexItems, hindex, h⟩ := Outcome.bind_eq_ok.mp h
    obtain rfl := Outcome.pure_eq_ok.mp h
    refine ((silent_loadVariable harray).append (ih hindex)).append ?_
    split <;> exact .instr rfl rfl

theorem silent_loadOperands {operands : List Operand}
    (h : loadOperands method operands = .ok items) : Silent items := by
  induction operands generalizing items with
  | nil =>
    cases h
    exact .nil
  | cons first rest ih =>
    obtain ⟨firstItems, hfirst, h⟩ := Outcome.bind_eq_ok.mp h
    obtain ⟨restItems, hrest, h⟩ := Outcome.bind_eq_ok.mp h
    obtain rfl := Outcome.pure_eq_ok.mp h
    exact (silent_loadOperand hfirst).append (ih hrest)

theorem silent_storeVariable {var : Variable} (h : storeVariable method var = .ok items) :
    Silent items := by
  rw [storeVariable] at h
  split at h
  · cases h
  · obtain ⟨slot, _, h⟩ := Outcome.bind_eq_ok.mp h
    obtain rfl := Outcome.pure_eq_ok.mp h
    split <;> exact .instr rfl rfl

theorem silent_operatorItems (number : Nat) (op : BinOp) : Silent (operatorItems number op) := by
  cases op <;> simp [Silent, operatorItems, instrs, Item.invoked?, Item.allocated?]

theorem silent_branchItems (target : String) (op : BinOp) : Silent (branchItems target op) := by
  cases op <;> simp [Silent, branchItems, instrs, Item.invoked?, Item.allocated?]

theorem silent_conditionItems {target : String} {cond : Condition}
    (h : conditionItems method target cond = .ok items) : Silent items := by
  cases cond with
  | binary op left right =>
    obtain ⟨loads, hloads, h⟩ := Outcome.bind_eq_ok.mp h
    obtain rfl := Outcome.pure_eq_ok.mp h
    exact (silent_loadOperands hloads).append (silent_branchItems target op)
  | not operand | holds operand =>
    obtain ⟨load, hload, h⟩ := Outcome.bind_eq_ok.mp h
    obtain rfl := Outcome.pure_eq_ok.mp h
    exact (silent_loadOperand hload).append (.instr rfl rfl)

/-- A reference to a method of that name with the descriptor of those types. -/
structure Refers (cls : Code.Class) (invocation : Code.Invocation) (ref : MethodRef) : Prop where
  name : ref.name = invocation.method
  descriptor : ref.descriptor = cls.methodDescriptor invocation.args invocation.returnTy

/-- What the items of an instruction invoke by name: nothing if the instruction is quiet, and else
the method that the instruction invokes. -/
inductive Emits (cls : Code.Class) (instr : Code.Instr) : List Item → Prop where
  | quiet {items : List Item} (hquiet : instr.isQuiet) (h : Silent items) : Emits cls instr items
  | invoke {invocation : Code.Invocation} {ref : MethodRef} {before after : List Item} {item : Item}
      (hinstr : instr.invocation? = some invocation) (hitem : item.invoked? = some ref)
      (hallocated : item.allocated? = none) (hrefers : Refers cls invocation ref)
      (hbefore : Silent before) (hafter : Silent after) :
      Emits cls instr (before ++ item :: after)

namespace Emits

variable {instr : Code.Instr} {others : List Item}

theorem prepend (hothers : Silent others) (h : Emits cls instr items) :
    Emits cls instr (others ++ items) := by
  cases h with
  | quiet hquiet h => exact .quiet hquiet (hothers.append h)
  | invoke hinstr hitem hallocated hrefers hbefore hafter =>
    rw [← List.append_assoc]
    exact .invoke hinstr hitem hallocated hrefers (hothers.append hbefore) hafter

theorem append (h : Emits cls instr items) (hothers : Silent others) :
    Emits cls instr (items ++ others) := by
  cases h with
  | quiet hquiet h => exact .quiet hquiet (h.append hothers)
  | invoke hinstr hitem hallocated hrefers hbefore hafter =>
    rw [List.append_assoc, List.cons_append]
    exact .invoke hinstr hitem hallocated hrefers hbefore (hafter.append hothers)

theorem assign (h : Emits cls instr items) (dest : Operand) (ty : Code.Ty) :
    Emits cls (.assign dest ty instr) items := by
  cases h with
  | quiet hquiet h => exact .quiet hquiet h
  | invoke hinstr hitem hallocated hrefers hbefore hafter =>
    exact .invoke hinstr hitem hallocated hrefers hbefore hafter

end Emits

def Plain (instr : Code.Instr) : Prop :=
  instr.isQuiet ∨ ∃ invocation, instr.invocation? = some invocation

/-- A call by name is the one invocation among its items. -/
theorem emits_callItems {kind : Code.CallKind} {target : Operand} {name? : Option String}
    {args : List Operand} {returnTy : Code.Ty}
    (hplain : Plain (.call kind target name? args returnTy))
    (h : callItems cls method kind target name? args returnTy = .ok items) :
    Emits cls (.call kind target name? args returnTy) items := by
  cases kind with
  | virtual | static =>
    cases name? with
    | none => cases h
    | some name =>
      obtain ⟨owner, _, h⟩ := Outcome.bind_eq_ok.mp h
      obtain ⟨loads, hloads, h⟩ := Outcome.bind_eq_ok.mp h
      obtain rfl := Outcome.pure_eq_ok.mp h
      exact .invoke rfl rfl rfl ⟨rfl, rfl⟩ (silent_loadOperands hloads) .nil
  | newArray =>
    obtain ⟨size, hsize, h⟩ := Outcome.bind_eq_ok.mp h
    split at h
    · obtain rfl := Outcome.pure_eq_ok.mp h
      refine .quiet rfl ((silent_loadOperand hsize).append ?_)
      split <;> exact .instr rfl rfl
    · cases h
  | arrayLength =>
    obtain ⟨array, harray, h⟩ := Outcome.bind_eq_ok.mp h
    obtain rfl := Outcome.pure_eq_ok.mp h
    exact .quiet rfl ((silent_loadOperand harray).append (.instr rfl rfl))
  | special =>
    obtain ⟨owner, _, h⟩ := Outcome.bind_eq_ok.mp h
    obtain ⟨loads, hloads, h⟩ := Outcome.bind_eq_ok.mp h
    obtain rfl := Outcome.pure_eq_ok.mp h
    exact .quiet rfl ((silent_loadOperands hloads).append (.instr rfl rfl))
  | newObject => rcases hplain with ⟨⟨⟩⟩ | ⟨_, ⟨⟩⟩

/-- A value that is a call invokes what the call says, and any other value nothing. -/
theorem emits_valueItems {instr : Code.Instr} (hplain : Plain instr)
    (h : valueItems cls method number instr = .ok items) : Emits cls instr items := by
  cases instr with
  | load operand => exact .quiet rfl (silent_loadOperand h)
  | binary op left right =>
    obtain ⟨loads, hloads, h⟩ := Outcome.bind_eq_ok.mp h
    obtain rfl := Outcome.pure_eq_ok.mp h
    exact .quiet rfl ((silent_loadOperands hloads).append (silent_operatorItems number op))
  | not operand =>
    obtain ⟨load, hload, h⟩ := Outcome.bind_eq_ok.mp h
    obtain rfl := Outcome.pure_eq_ok.mp h
    have hxor : Silent (instrs [.iconst 1] ++ instrs [.ixor]) :=
      (Silent.instr rfl rfl).append (.instr rfl rfl)
    exact .quiet rfl ((silent_loadOperand hload).append hxor)
  | call kind target name? args returnTy =>
    rw [valueItems] at h
    split at h
    · cases h
    · exact emits_callItems hplain h
  | getField object field =>
    obtain ⟨load, hload, h⟩ := Outcome.bind_eq_ok.mp h
    obtain rfl := Outcome.pure_eq_ok.mp h
    exact .quiet rfl ((silent_loadOperand hload).append (.instr rfl rfl))
  | assign | putField | branch | goto | ret => cases h

theorem emits_assignItems {dest : Operand} {value : Code.Instr} (ty : Code.Ty)
    (hplain : Plain value) (h : assignItems cls method optimize number dest value = .ok items) :
    Emits cls (.assign dest ty value) items := by
  refine Emits.assign ?_ dest ty
  unfold assignItems at h
  split at h
  · next slot delta hincrement =>
    split at hincrement
    · obtain ⟨var, _, _, _, increments, _⟩ := increment?_eq_some hincrement
      cases h
      refine .quiet ?_ (.instr rfl rfl)
      cases increments <;> rfl
    · cases hincrement
  · cases dest with
    | var var =>
      obtain ⟨value, hvalue, h⟩ := Outcome.bind_eq_ok.mp h
      obtain ⟨store, hstore, h⟩ := Outcome.bind_eq_ok.mp h
      obtain rfl := Outcome.pure_eq_ok.mp h
      exact (emits_valueItems hplain hvalue).append (silent_storeVariable hstore)
    | element array index elementTy =>
      obtain ⟨arrayItems, harray, h⟩ := Outcome.bind_eq_ok.mp h
      obtain ⟨indexItems, hindex, h⟩ := Outcome.bind_eq_ok.mp h
      obtain ⟨value, hvalue, h⟩ := Outcome.bind_eq_ok.mp h
      obtain rfl := Outcome.pure_eq_ok.mp h
      have hplace := (silent_loadVariable harray).append (silent_loadOperand hindex)
      refine ((emits_valueItems hplain hvalue).prepend hplace).append ?_
      split <;> exact .instr rfl rfl
    | literal => cases h

/-- The items of an instruction invoke what the instruction invokes, and allocate nothing. -/
theorem emits_statementItems {instr : Code.Instr} (hplain : Plain instr)
    (h : statementItems cls method optimize number instr = .ok items) : Emits cls instr items := by
  cases instr with
  | assign dest ty value => exact emits_assignItems ty hplain h
  | call kind target name? args returnTy =>
    obtain ⟨call, hcall, h⟩ := Outcome.bind_eq_ok.mp h
    obtain rfl := Outcome.pure_eq_ok.mp h
    split
    · exact emits_callItems hplain hcall
    · exact (emits_callItems hplain hcall).append (.instr rfl rfl)
  | putField object field value =>
    obtain ⟨loads, hloads, h⟩ := Outcome.bind_eq_ok.mp h
    obtain rfl := Outcome.pure_eq_ok.mp h
    exact .quiet rfl ((silent_loadOperands hloads).append (.instr rfl rfl))
  | branch cond target => exact .quiet rfl (silent_conditionItems h)
  | goto target =>
    cases h
    exact .quiet rfl (.instr rfl rfl)
  | ret ty value =>
    cases value with
    | none =>
      cases h
      exact .quiet rfl (.instr rfl rfl)
    | some value =>
      obtain ⟨load, hload, h⟩ := Outcome.bind_eq_ok.mp h
      obtain rfl := Outcome.pure_eq_ok.mp h
      refine .quiet rfl ((silent_loadOperand hload).append ?_)
      split <;> exact .instr rfl rfl
  | binary | not | getField | load =>
    obtain ⟨value, hvalue, h⟩ := Outcome.bind_eq_ok.mp h
    obtain rfl := Outcome.pure_eq_ok.mp h
    exact (emits_valueItems hplain hvalue).append (.instr rfl rfl)

/-- An object that is allocated is stored in the slot of its variable. -/
theorem allocation_of_statementItems {target created : Variable} {ty returnTy : Code.Ty}
    (h : statementItems cls method optimize number
      (.assign (.var target) ty (.call .newObject (.var created) none [] returnTy)) = .ok items) :
    ∃ slot, target.register = some slot ∧ items = instrs [.new (cls.qualify created.name),
      if target.ty.isInteger then .istore slot else .astore slot] := by
  have hincrement : (if optimize then increment? (.var target)
      (.call .newObject (.var created) none [] returnTy) else none) = none := by
    split
    · simp [increment?, addedConstant?]
    · rfl
  simp only [statementItems, assignItems, hincrement] at h
  obtain ⟨value, hvalue, h⟩ := Outcome.bind_eq_ok.mp h
  obtain ⟨store, hstore, h⟩ := Outcome.bind_eq_ok.mp h
  obtain rfl := Outcome.pure_eq_ok.mp h
  rw [valueItems] at hvalue
  split at hvalue
  · cases hvalue
  · cases hvalue
    rw [storeVariable] at hstore
    split at hstore
    · cases hstore
    · obtain ⟨slot, hslot, hstore⟩ := Outcome.bind_eq_ok.mp hstore
      obtain rfl := Outcome.pure_eq_ok.mp hstore
      exact ⟨slot, register_of_slotOf hslot, rfl⟩

theorem isInteger_of_ownerOf? {ty : Code.Ty} {owner : String} (h : cls.ownerOf? ty = some owner) :
    ty.isInteger = false := by
  cases ty with
  | int | bool => cases h
  | array | object | string | void => rfl

/-- The object is loaded from that slot, and the class of its constructor is that of the type there.
-/
theorem construction_of_statementItems {target : Variable} (hrole : target.role ≠ .receiver)
    (h : statementItems cls method optimize number (.construct (.var target)) = .ok items) :
    ∃ slot owner, target.register = some slot ∧ cls.ownerOf? target.ty = some owner ∧
      items = instrs [.aload slot, .invoke .special ⟨owner, "<init>", "()V", 0, false⟩] := by
  simp only [Code.Instr.construct, statementItems, callItems, ownerOf, if_neg hrole, classOf] at h
  obtain ⟨call, hcall, h⟩ := Outcome.bind_eq_ok.mp h
  obtain rfl := Outcome.pure_eq_ok.mp h
  cases howner : cls.ownerOf? target.ty with
  | none =>
    simp only [Operand.ty, howner] at hcall
    cases hcall
  | some owner =>
    simp only [Operand.ty, howner, Outcome.ok_bind] at hcall
    obtain ⟨loads, hloads, hcall⟩ := Outcome.bind_eq_ok.mp hcall
    obtain rfl := Outcome.pure_eq_ok.mp hcall
    obtain ⟨load, hload, hloads⟩ := Outcome.bind_eq_ok.mp hloads
    obtain ⟨none, hnone, hloads⟩ := Outcome.bind_eq_ok.mp hloads
    cases hnone
    obtain rfl := Outcome.pure_eq_ok.mp hloads
    obtain ⟨slot, hslot, hload⟩ := Outcome.bind_eq_ok.mp hload
    obtain rfl := Outcome.pure_eq_ok.mp hload
    have hreference := isInteger_of_ownerOf? howner
    have hdescriptor : cls.methodDescriptor [] .void = "()V" := by
      simp [Code.Class.methodDescriptor, Code.Class.descriptor]
    refine ⟨slot, owner, register_of_slotOf hslot, rfl, ?_⟩
    simp [hreference, instrs, hdescriptor]

/-- The construction of an object. The constructor is looked for in the type of the place that the
object is first kept in. -/
structure Constructs (cls : Code.Class) (creation : Source.Creation) (construction : Construction) :
    Prop where
  allocated : construction.allocated = cls.qualify creation.cls
  owner : construction.constructor? = cls.ownerOf? (.ofSource creation.kept)
  isConstructed : construction.constructor?.isSome

/-- Items that invoke a method for each call and construct each object of some sites, in order, and
do neither elsewhere. -/
structure Serves (table : SymbolTable) (scope : Scope) (cls : Code.Class) (sites : List Site)
    (items : List Item) : Prop where
  calls : List.Forall₂ (fun call ref => ∃ invocation,
    call.invocation? table scope = some invocation ∧ Refers cls invocation ref)
    (sites.filterMap Site.call?) (invocations items)
  objects : List.Forall₂ (Constructs cls) (sites.filterMap Site.creation?) (constructions items)

namespace Serves

variable {table : SymbolTable} {scope : Scope} {sites : List Site}

theorem after (h : Serves table scope cls sites items) {others : List Item}
    (hothers : Silent others) : Serves table scope cls sites (others ++ items) := by
  obtain ⟨calls, objects⟩ := h
  refine ⟨?_, ?_⟩
  · rwa [invocations_append, hothers.invocations_eq]
  · rwa [hothers.constructions_append]

theorem invoke {item : Item} {ref : MethodRef} {call : Source.Call} {invocation : Code.Invocation}
    (h : Serves table scope cls sites items) (hitem : item.invoked? = some ref)
    (hallocated : item.allocated? = none) (hcall : call.invocation? table scope = some invocation)
    (hrefers : Refers cls invocation ref) :
    Serves table scope cls (.call call :: sites) (item :: items) := by
  obtain ⟨calls, objects⟩ := h
  constructor
  · rw [invocations, List.filterMap_cons_some hitem]
    exact .cons ⟨invocation, hcall, hrefers⟩ calls
  · rw [constructions, hallocated]
    exact objects

/-- The four items of an object, behind those of other sites. -/
theorem construct {creation : Source.Creation} {owner : String}
    (h : Serves table scope cls sites items)
    (howner : cls.ownerOf? (.ofSource creation.kept) = some owner) (slot : UInt16) :
    Serves table scope cls (.object creation :: sites)
      (instrs [.new (cls.qualify creation.cls), .astore slot] ++
        (instrs [.aload slot, .invoke .special ⟨owner, "<init>", "()V", 0, false⟩] ++ items)) := by
  obtain ⟨calls, objects⟩ := h
  have hconstructions : constructions (instrs [.new (cls.qualify creation.cls), .astore slot] ++
      (instrs [.aload slot, .invoke .special ⟨owner, "<init>", "()V", 0, false⟩] ++ items)) =
      ⟨cls.qualify creation.cls, some owner⟩ :: constructions items := by
    simp [constructions, constructor?, instrs, Item.allocated?]
  refine ⟨calls, ?_⟩
  rw [hconstructions]
  exact .cons ⟨rfl, howner.symm, rfl⟩ objects

end Serves

theorem segments_cons {line : Labeled} {rest : List Labeled} {segs : List (List Item)}
    (h : segments cls method optimize number (line :: rest) = .ok segs) :
    ∃ items number' others, statementItems cls method optimize number line.instr = .ok items ∧
      segments cls method optimize number' rest = .ok others ∧
      segs = (line.labels.map .label ++ items) :: others := by
  rw [segments] at h
  obtain ⟨seg, hseg, h⟩ := Outcome.bind_eq_ok.mp h
  obtain ⟨others, hothers, h⟩ := Outcome.bind_eq_ok.mp h
  obtain rfl := Outcome.pure_eq_ok.mp h
  obtain ⟨items, hitems, hseg⟩ := Outcome.bind_eq_ok.mp hseg
  obtain rfl := Outcome.pure_eq_ok.mp hseg
  exact ⟨items, _, others, hitems, hothers, rfl⟩

/-- The segments of lines that realize some sites serve them. -/
theorem serves_of_segments {table : SymbolTable} {scope : Scope} {sites : List Site}
    {lines : List Labeled} {segs : List (List Item)} (h : Realizes table scope sites lines)
    (hsegs : segments cls method optimize number lines = .ok segs) :
    Serves table scope cls sites segs.flatten := by
  induction h generalizing number segs with
  | nil =>
    cases hsegs
    exact ⟨.nil, .nil⟩
  | quiet labels hquiet _ ih =>
    obtain ⟨items, number', others, hitems, hothers, rfl⟩ := segments_cons hsegs
    have hsilent : Silent (labels.map .label ++ items) := by
      cases emits_statementItems (.inl hquiet) hitems with
      | quiet _ hsilent => exact (Silent.labels labels).append hsilent
      | invoke hinstr =>
        rw [Code.Instr.invocation?_of_isQuiet hquiet] at hinstr
        cases hinstr
    exact (ih hothers).after hsilent
  | call labels hcall hinstr _ ih =>
    obtain ⟨items, number', others, hitems, hothers, rfl⟩ := segments_cons hsegs
    cases emits_statementItems (.inr ⟨_, hinstr⟩) hitems with
    | quiet hquiet =>
      rw [Code.Instr.invocation?_of_isQuiet hquiet] at hinstr
      cases hinstr
    | invoke hinstr' hitem hallocated hrefers hbefore hafter =>
      cases hinstr.symm.trans hinstr'
      have hrest := ((ih hothers).after hafter).invoke hitem hallocated hcall hrefers
      simpa using hrest.after ((Silent.labels labels).append hbefore)
  | object labels ty returnTy hcls htarget hrole _ ih =>
    obtain ⟨items, _, _, hitems, hrest, rfl⟩ := segments_cons hsegs
    obtain ⟨items', _, others, hitems', hothers, rfl⟩ := segments_cons hrest
    obtain ⟨slot, hslot, rfl⟩ := allocation_of_statementItems hitems
    obtain ⟨slot', owner, hslot', howner, rfl⟩ := construction_of_statementItems hrole hitems'
    cases hslot.symm.trans hslot'
    have hreference := isInteger_of_ownerOf? howner
    rw [htarget] at howner
    have hrest := (ih hothers).construct howner slot
    simpa [hreference, hcls] using hrest.after (Silent.labels labels)

theorem serves_of_bodyOf {table : SymbolTable} {scope : Scope} {sites : List Site}
    {bound? : Option UInt16} {source code : Code.Method} {body : Body}
    (hallocated : Registers.Allocated bound? source code)
    (h : Realizes table scope sites source.body) (hbody : bodyOf cls code optimize = .ok body) :
    Serves table scope cls sites body.items := by
  obtain ⟨map, _, _, rfl⟩ := hallocated
  obtain ⟨segs, _, hsegs, hitems, _⟩ := segments_of_bodyOf hbody
  rw [hitems]
  exact serves_of_segments (h.mapVars (Registers.keeps_withSlot source map)) hsegs

end

variable {analysis : Source.Analysis} {settings : Settings} {compiled : Compiled}

/-- The code of a program that has been compiled: a constructor, and then each method. -/
theorem allocated_of_compile (h : compile analysis settings = .ok compiled) :
    ∃ first codes, compiled.code.methods = first :: codes ∧
      Registers.Allocated settings.maxRegisters
        (Lowering.constructor analysis.program.decl.name) first ∧
      List.Forall₂ (fun method code => ∃ source,
        Lowering.lowerMethod analysis.table method = .ok source ∧
        Registers.Allocated settings.maxRegisters source code)
        analysis.program.decl.methods codes := by
  obtain ⟨lowered, _, hlower, hallocate, _⟩ := compile_eq_ok h
  have hall := Registers.allocated_of_allocateAll (Registers.allocate_eq_ok hallocate).1
  obtain ⟨sources, hsources, hlowered⟩ := Outcome.bind_eq_ok.mp (lower_eq_ok hlower).1
  obtain rfl := Outcome.pure_eq_ok.mp hlowered
  generalize compiled.code.methods = codes at hall
  cases hall with
  | cons hfirst hrest =>
    refine ⟨_, _, rfl, hfirst, Registers.forall₂_of_common (Outcome.forall₂_of_mapM hsources).flip
      hrest ?_⟩
    exact fun source _ method code hsource hcode => ⟨source, hsource, hcode⟩

/-- The bodies of a program that has been compiled serve the sites of its methods. -/
theorem serves_of_compile (h : compile analysis settings = .ok compiled) :
    ∃ first rest,
      compiled.code.methods.mapM (bodyOf compiled.code · settings.optimize) = .ok (first :: rest) ∧
      compiled.assembly = "\n".intercalate (classHeader compiled.code ++
        (List.zipWith (methodLines compiled.code) compiled.code.methods (first :: rest)).flatten) ∧
      invocations first.items = [] ∧ constructions first.items = [] ∧
      List.Forall₂ (fun method body => ∃ scope,
        analysis.table.method? method.signature = some scope ∧
        Serves analysis.table scope compiled.code (method.sites analysis.table scope) body.items)
        analysis.program.decl.methods rest := by
  obtain ⟨_, bodies, _, _, hbodies, hassembly⟩ := compile_eq_ok h
  obtain ⟨constructor, codes, hcodes, hconstructor, hmethods⟩ := allocated_of_compile h
  have hall := Outcome.forall₂_of_mapM hbodies
  rw [hcodes] at hall
  cases hall with
  | @cons _ first _ rest hfirst hrest =>
    refine ⟨first, rest, hbodies, hassembly, ?_⟩
    -- any scope will do for the constructor, since it has no sites
    have hserves : Serves analysis.table ⟨"", .void, [], []⟩ compiled.code [] first.items :=
      serves_of_bodyOf hconstructor (Lowering.realizes_constructor _) hfirst
    refine ⟨List.forall₂_nil_left_iff.mp hserves.calls,
      List.forall₂_nil_left_iff.mp hserves.objects,
      Registers.forall₂_of_common hmethods.flip hrest ?_⟩
    rintro code _ method body ⟨source, hsource, hallocated⟩ hbody
    obtain ⟨scope, hscope, hrealizes⟩ := Lowering.realizes_lowerMethod hsource
    exact ⟨scope, hscope, serves_of_bodyOf hallocated hrealizes hbody⟩

end ClassCompiler.Stack
