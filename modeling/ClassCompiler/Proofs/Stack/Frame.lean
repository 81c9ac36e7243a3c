import ClassCompiler.Proofs.Registers.Frames
import ClassCompiler.Proofs.Stack.Faults
import ClassCompiler.Proofs.Stack.Slots

/-!
# Frames of compiled methods

The receiver and the parameters come first in a frame, in order, then the locals and temporaries.
The size of the frame is read off the declarations, and the slots in the body are those of
occurrences; each of these has the slot of its declaration, so the frame covers them all. A bound on
registers never makes a frame larger. All this takes methods whose slots 16 bits can number. Whether
a method has a body does not depend on registers at all.
-/

namespace ClassCompiler.Stack

open Code (Labeled Method Operand Variable)
open Registers (Allocated RegisterMap assign naturalMap)

/-- Where the variables of a method are: the receiver and the parameters in the first slots, in
order, and the locals and temporaries behind them within the frame. -/
structure Arranged (method : Method) : Prop where
  reserved : method.reservedSlots.toNat = method.reservedCount
  parameters : ∀ (index : Nat) (param : Variable), method.parameters[index]? = some param →
    ∃ slot, param.register = some slot ∧ slot.toNat = method.receiverCount + index
  receiver : ∀ var ∈ method.occurrences, var.role = .receiver →
    method.isStatic = false ∧ var.register = some 0
  parameter : ∀ var ∈ method.occurrences, ∀ position, var.role = .parameter position →
    1 ≤ position.toNat ∧ ∃ param, method.parameters[position.toNat - 1]? = some param ∧
      var.register = param.register
  locals : ∀ var ∈ method.locals ++ method.occurrences, var.isAllocatable →
    ∃ slot, var.register = some slot ∧ method.reservedSlots ≤ slot ∧ slot < method.frameSize

theorem mem_vars_of_locals {method : Method} {var : Variable}
    (h : var ∈ method.locals ++ method.occurrences) : var ∈ method.vars := by
  rcases List.mem_append.mp h with hlocal | hoccurs
  · exact List.mem_append_left _ (List.mem_append_right _ hlocal)
  · exact List.mem_append_right _ hoccurs

/-- Locals and temporaries of one name have one register. -/
theorem register_eq_of_name {map : RegisterMap} {method : Method} {var other : Variable}
    (hvar : var ∈ (assign map method).vars) (hother : other ∈ (assign map method).vars)
    (hallocatable : var.isAllocatable) (hallocatable' : other.isAllocatable)
    (hname : var.name = other.name) : var.register = other.register := by
  rw [Registers.register_of_mem_vars hvar, Registers.register_of_mem_vars hother,
    Registers.slot?_of_isAllocatable hallocatable, Registers.slot?_of_isAllocatable hallocatable',
    hname]

section

variable {bound? : Option UInt16} {source method : Method}

theorem room_of_allocated (h : Allocated bound? source method) (formed : source.Formed)
    (fits : method.slotCount < UInt16.size) :
    ∀ slot ∈ method.frameSlots, slot.toNat + 1 < UInt16.size := by
  obtain ⟨map, hmap, _, rfl⟩ := h
  rw [Registers.slotCount_assign] at fits
  exact Registers.room_of_registerMap formed fits hmap

/-- The register of a local or temporary lies behind the parameters. -/
theorem reservedSlots_le (h : Allocated bound? source method) (formed : source.Formed)
    (fits : method.slotCount < UInt16.size) {var : Variable} (hvar : var ∈ method.vars)
    (hallocatable : var.isAllocatable) {slot : UInt16} (hslot : var.register = some slot) :
    method.reservedSlots ≤ slot := by
  obtain ⟨map, hmap, _, rfl⟩ := h
  rw [Registers.slotCount_assign] at fits
  obtain ⟨register, hget, rfl⟩ := Registers.register_local hvar hallocatable hslot
  have hlt := Registers.lt_of_registerMap formed fits hmap hget
  have hle := Registers.reservedCount_add_le_slotCount source
  rw [UInt16.le_iff_toNat_le, Registers.reservedSlots_assign,
    Method.toNat_reservedSlots_add (by omega), Method.toNat_reservedSlots (by omega)]
  exact Nat.le_add_right _ _

/-- The slots of a method, from the registers of its map. The frame is sized by declarations, and an
occurrence has the slot of its declaration. -/
theorem arranged_of_allocated (h : Allocated bound? source method) (formed : source.Formed)
    (framed : method.Framed) (fits : method.slotCount < UInt16.size) : Arranged method := by
  have room := room_of_allocated h formed fits
  have formed' := h.formed formed
  have hreserved : method.reservedCount < UInt16.size :=
    Nat.lt_of_le_of_lt (Nat.le_add_right ..) fits
  have hparameter : ∀ (index : Nat) (param : Variable), method.parameters[index]? = some param →
      param.register = some (method.receiverSlots + .ofNat index) := by
    intro index param hparam
    obtain ⟨map, _, _, rfl⟩ := h
    exact Registers.register_parameter formed' hparam
  refine ⟨Method.toNat_reservedSlots hreserved, ?_, ?_, ?_, ?_⟩
  · intro index param hparam
    refine ⟨_, hparameter index param hparam, Registers.toNat_register_parameter ?_⟩
    have hlt := (List.getElem?_eq_some_iff.mp hparam).1
    rw [Method.reservedCount] at hreserved
    omega
  · intro var hvar hrole
    refine ⟨(framed.receiver var hvar hrole).1, ?_⟩
    obtain ⟨map, _, _, rfl⟩ := h
    rw [Registers.register_of_mem_vars (List.mem_append_right _ hvar), Registers.slot?, hrole]
  · intro var hvar position hrole
    obtain ⟨hone, param, hparam, _⟩ := framed.parameter var hvar position hrole
    refine ⟨hone, param, hparam, ?_⟩
    rw [hparameter _ param hparam]
    obtain ⟨map, _, _, rfl⟩ := h
    rw [Registers.register_of_mem_vars (List.mem_append_right _ hvar), Registers.slot?, hrole,
      UInt16.ofNat_sub hone, UInt16.ofNat_toNat, UInt16.ofNat_one]
    simp only [Registers.receiverSlots_assign, UInt16.sub_eq_add_neg, UInt16.add_assoc]
  · intro var hvar hallocatable
    have hvars := mem_vars_of_locals hvar
    obtain ⟨slot, hslot⟩ := h.exists_register_local hvars hallocatable
    refine ⟨slot, hslot, reservedSlots_le h formed fits hvars hallocatable hslot, ?_⟩
    -- the frame is sized by declarations, and this variable has one
    obtain ⟨decl, hdecl, hname⟩ : ∃ decl ∈ method.locals, decl.name = var.name := by
      rcases List.mem_append.mp hvar with hlocal | hoccurs
      · exact ⟨var, hlocal, rfl⟩
      · exact formed'.declared var hoccurs hallocatable
    have hregister : decl.register = var.register := by
      obtain ⟨map, _, _, rfl⟩ := h
      exact register_eq_of_name (mem_vars_of_locals (List.mem_append_left _ hdecl)) hvars
        (formed'.locals decl hdecl) hallocatable hname
    exact UInt16.lt_iff_toNat_lt.mpr (Method.lt_frameSize room
      (Method.mem_frameSlots_of_register (List.mem_append_right _ hdecl) (hregister.trans hslot)))

/-- Every register that occurs is within the frame. -/
theorem Arranged.lt_frameSize (arranged : Arranged method) (h : Allocated bound? source method)
    (room : ∀ slot ∈ method.frameSlots, slot.toNat + 1 < UInt16.size) {var : Variable}
    (hvar : var ∈ method.occurrences) {slot : UInt16} (hslot : var.register = some slot) :
    slot < method.frameSize := by
  rw [UInt16.lt_iff_toNat_lt]
  cases hrole : var.role with
  | receiver =>
    obtain ⟨hinstance, hzero⟩ := arranged.receiver var hvar hrole
    rw [hzero] at hslot
    cases hslot
    exact Method.lt_frameSize room (Method.zero_mem_frameSlots hinstance)
  | parameter position =>
    obtain ⟨_, param, hparam, hregister⟩ := arranged.parameter var hvar position hrole
    exact Method.lt_frameSize room (Method.mem_frameSlots_of_register
      (List.mem_append_left _ (List.mem_of_getElem? hparam)) (hregister.symm.trans hslot))
  | declared | temporary =>
    have hallocatable : var.isAllocatable := by simp [Variable.isAllocatable, hrole]
    obtain ⟨slot', hslot', _, hlt⟩ :=
      arranged.locals var (List.mem_append_right _ hvar) hallocatable
    rw [hslot] at hslot'
    cases hslot'
    exact UInt16.lt_iff_toNat_lt.mp hlt
  | field | className =>
    obtain ⟨map, _, _, rfl⟩ := h
    rw [Registers.register_of_mem_vars (List.mem_append_right _ hvar), Registers.slot?,
      hrole] at hslot
    cases hslot

end

/-- An item of a body is a label or comes from a line. -/
theorem mem_items_of_bodyOf {cls : Code.Class} {method : Method} {optimize : Bool} {body : Body}
    (h : bodyOf cls method optimize = .ok body) {item : Item} (hitem : item ∈ body.items) :
    (∃ label, item = .label label) ∨ ∃ line ∈ method.body, ∃ number items,
      statementItems cls method.name optimize number line.instr = .ok items ∧ item ∈ items := by
  obtain ⟨segs, draft, hsegs, hitems, _⟩ := segments_of_bodyOf h
  rw [hitems] at hitem
  obtain ⟨seg, hseg, hmem⟩ := List.mem_flatten.mp hitem
  obtain ⟨index, hindex⟩ := List.mem_iff_getElem?.mp hseg
  obtain ⟨line, number, items, hline, hstatement, rfl⟩ := line_of_segments hsegs hindex
  rcases List.mem_append.mp hmem with hlabel | hinstr
  · obtain ⟨label, _, rfl⟩ := List.mem_map.mp hlabel
    exact .inl ⟨label, rfl⟩
  · exact .inr ⟨line, List.mem_of_getElem? hline, number, items, hstatement, hinstr⟩

/-- Every slot in a body is within the frame. -/
theorem slot_lt_frameSize {bound? : Option UInt16} {source method : Method}
    (arranged : Arranged method) (hallocated : Allocated bound? source method)
    (room : ∀ slot ∈ method.frameSlots, slot.toNat + 1 < UInt16.size) {cls : Code.Class}
    {optimize : Bool} {body : Body} (h : bodyOf cls method optimize = .ok body) {item : Item}
    (hitem : item ∈ body.items) {slot : UInt16} (hslot : item.slot? = some slot) :
    slot < method.frameSize := by
  rcases mem_items_of_bodyOf h hitem with ⟨label, rfl⟩ | ⟨line, hline, number, items, hitems, hmem⟩
  · cases hslot
  · obtain ⟨var, hvar, hregister⟩ := (accesses_statementItems hitems).exists_of_slot? hmem hslot
    exact arranged.lt_frameSize hallocated room (Method.mem_occurrences hline hvar) hregister

section

variable {f : Variable → Variable} {method : String} {instr : Code.Instr}

/-- Going against the types has nothing to do with registers. -/
theorem exists_misuse_mapVars (keeps : Code.Keeps f) (h : ∃ fault, Misuse method instr fault) :
    ∃ fault, Misuse method (instr.mapVars f) fault := by
  obtain ⟨fault, misuse⟩ := h
  cases misuse with
  | @className _ operand var hload hvar hrole =>
    refine ⟨_, @Misuse.className method _ (operand.mapVars f) (f var) ?_ ?_ ?_⟩
    · rw [Code.Instr.loads_mapVars]
      exact List.mem_map_of_mem hload
    · rw [Operand.vars_mapVars]
      exact List.mem_map_of_mem hvar
    · rw [keeps.role, hrole]
  | voidValue dest ty kind target name? args => exact ⟨_, .voidValue _ ty kind _ name? _⟩
  | @notInvocable _ target hinvoked notObject notString =>
    refine ⟨_, @Misuse.notInvocable method _ (target.mapVars f) ?_ ?_ ?_⟩
    · rw [keeps.invoked?, hinvoked]
      rfl
    · rw [keeps.operand_ty]
      exact notObject
    · rw [keeps.operand_ty]
      exact notString

theorem exists_misuse_of_mapVars (keeps : Code.Keeps f)
    (h : ∃ fault, Misuse method (instr.mapVars f) fault) : ∃ fault, Misuse method instr fault := by
  obtain ⟨fault, misuse⟩ := h
  generalize hmapped : instr.mapVars f = mapped at misuse
  cases misuse with
  | className hload hvar hrole =>
    rw [← hmapped, Code.Instr.loads_mapVars] at hload
    obtain ⟨operand, hoperand, rfl⟩ := List.mem_map.mp hload
    rw [Operand.vars_mapVars] at hvar
    obtain ⟨source, hsource, rfl⟩ := List.mem_map.mp hvar
    rw [keeps.role] at hrole
    exact ⟨_, .className hoperand hsource hrole⟩
  | voidValue dest ty kind target name? args =>
    cases instr with
    | assign dest' ty' value =>
      cases value with
      | call kind' target' name' args' returnTy =>
        obtain rfl : returnTy = .void := by simp_all [Code.Instr.mapVars]
        exact ⟨_, .voidValue dest' ty' kind' target' name' args'⟩
      | assign | binary | not | getField | putField | branch | goto | ret | load =>
        simp [Code.Instr.mapVars] at hmapped
    | binary | not | call | getField | putField | branch | goto | ret | load => cases hmapped
  | notInvocable hinvoked notObject notString =>
    rw [← hmapped, keeps.invoked?] at hinvoked
    obtain ⟨target, htarget, rfl⟩ := Option.map_eq_some_iff.mp hinvoked
    rw [keeps.operand_ty] at notObject notString
    exact ⟨_, .notInvocable htarget notObject notString⟩

end

/-- Whether a line is refused is decided before registers are assigned. -/
theorem refused_of_allocated {bound? : Option UInt16} {source method : Method}
    (h : Allocated bound? source method) :
    (∃ line ∈ method.body, wraps line.instr = true ∨ ∃ fault, Misuse method.name line.instr fault) ↔
      ∃ line ∈ source.body,
        wraps line.instr = true ∨ ∃ fault, Misuse source.name line.instr fault := by
  obtain ⟨map, _, _, rfl⟩ := h
  have keeps := Registers.keeps_withSlot source map
  constructor
  · rintro ⟨line, hline, hrefused⟩
    obtain ⟨line', hline', rfl⟩ := List.mem_map.mp hline
    rw [wraps_mapVars] at hrefused
    exact ⟨line', hline', hrefused.imp_right (exists_misuse_of_mapVars keeps)⟩
  · rintro ⟨line, hline, hrefused⟩
    refine ⟨_, List.mem_map_of_mem hline, ?_⟩
    rw [wraps_mapVars]
    exact hrefused.imp_right (exists_misuse_mapVars keeps)

section

variable {table : Source.SymbolTable} {program : Source.Program} {lowered : Code.Class}
  {bound? : Option UInt16} {source method : Method}

theorem exists_bodyOf_iff_of_lowered (hlower : Lowering.lowerProgram table program = .ok lowered)
    (hsource : source ∈ lowered.methods) (h : Allocated bound? source method) (cls : Code.Class)
    (optimize : Bool) :
    (∃ body, bodyOf cls method optimize = .ok body) ↔
      ¬ ∃ line ∈ source.body,
        wraps line.instr = true ∨ ∃ fault, Misuse source.name line.instr fault := by
  have formed := h.formed (Lowering.formed_lowerProgram hlower hsource)
  have complete := h.complete (complete_lowerProgram hlower hsource)
  rw [exists_bodyOf_iff formed complete (seated_of_allocated h formed), ← refused_of_allocated h]
  simp

/-- With the registers of a bound the frame is no larger than without one. -/
theorem frame_le_natural {other : Method} (h : Allocated bound? source method)
    (h' : Allocated none source other) (formed : source.Formed) :
    method.name = other.name ∧ method.reservedSlots = other.reservedSlots ∧
      (method.slotCount < UInt16.size → method.frameSize ≤ other.frameSize) := by
  have hframe : method.slotCount < UInt16.size → method.frameSize ≤ other.frameSize := by
    intro fits
    rw [h.slotCount_eq] at fits
    exact UInt16.le_iff_toNat_le.mpr (h.frameSize_le_natural h' formed fits)
  obtain ⟨map, _, _, rfl⟩ := h
  obtain ⟨map', _, _, rfl⟩ := h'
  refine ⟨rfl, ?_, hframe⟩
  rw [Registers.reservedSlots_assign, Registers.reservedSlots_assign]

/-- The constructor of a class always has a body. -/
theorem exists_bodyOf_constructor (hlower : Lowering.lowerProgram table program = .ok lowered)
    {name : String} (hsource : Lowering.constructor name ∈ lowered.methods)
    (h : Allocated bound? (Lowering.constructor name) method) (cls : Code.Class)
    (optimize : Bool) : ∃ body, bodyOf cls method optimize = .ok body := by
  rw [exists_bodyOf_iff_of_lowered hlower hsource h]
  rintro ⟨line, hline, hrefused⟩
  rcases List.mem_pair.mp hline with rfl | rfl
  · rcases hrefused with hwraps | ⟨fault, misuse⟩
    · cases hwraps
    · cases misuse with
      | className hload hvar hrole =>
        obtain rfl := List.mem_singleton.mp hload
        obtain rfl := List.mem_singleton.mp hvar
        cases hrole
      | notInvocable hinvoked => cases hinvoked
  · rcases hrefused with hwraps | ⟨fault, misuse⟩
    · cases hwraps
    · cases misuse with
      | className hload => cases hload
      | notInvocable hinvoked => cases hinvoked

end

section

variable {analysis : Source.Analysis} {settings : Settings} {lowered : Code.Class}

/-- Whether there is assembly is decided before registers are assigned: a program that is compiled
with some registers is compiled with any others. The methods are the same but for the registers. -/
theorem exists_reassigned {settings' : Settings} (hlower : lower analysis settings = .ok lowered)
    (hlower' : lower analysis settings' = .ok lowered) {code code' : Code.Class}
    (hallocate : ClassCompiler.allocate settings lowered = .ok code)
    (hallocate' : ClassCompiler.allocate settings' lowered = .ok code')
    (hbodies : ∀ method ∈ code.methods, ∃ body, bodyOf code method settings.optimize = .ok body) :
    ∃ other, compile analysis settings' = .ok other ∧ other.code = code' ∧
      List.Forall₂ (fun method method' => ∃ source ∈ lowered.methods,
        Allocated settings.maxRegisters source method ∧
          Allocated settings'.maxRegisters source method') code.methods code'.methods := by
  have hlowered := (lower_eq_ok hlower).1
  have hboth : List.Forall₂ (fun method method' => ∃ source ∈ lowered.methods,
      Allocated settings.maxRegisters source method ∧
        Allocated settings'.maxRegisters source method') code.methods code'.methods := by
    refine Registers.forall₂_of_common
      (Registers.allocated_of_allocateAll (Registers.allocate_eq_ok hallocate).1)
      (Registers.allocated_of_allocateAll (Registers.allocate_eq_ok hallocate').1) ?_
    exact fun source hsource method method' h h' => ⟨source, hsource, h, h'⟩
  obtain ⟨other, hother, hcode⟩ := exists_compile hlower' hallocate' fun method' hmethod' => by
    obtain ⟨method, hmethod, source, hsource, h, h'⟩ := Registers.exists_of_forall₂ hboth hmethod'
    rw [exists_bodyOf_iff_of_lowered hlowered hsource h']
    exact (exists_bodyOf_iff_of_lowered hlowered hsource h ..).mp (hbodies method hmethod)
  exact ⟨other, hother, hcode, hboth⟩

/-- A program that is compiled under a bound is compiled without one. -/
theorem exists_unbounded {code : Code.Class} (hlower : lower analysis settings = .ok lowered)
    (hallocate : ClassCompiler.allocate settings lowered = .ok code)
    (hbodies : ∀ method ∈ code.methods, ∃ body, bodyOf code method settings.optimize = .ok body) :
    ∃ unbounded, compile analysis { settings with maxRegisters := none } = .ok unbounded ∧
      List.Forall₂ (fun method other => ∃ source ∈ lowered.methods,
        Allocated settings.maxRegisters source method ∧ Allocated none source other)
        code.methods unbounded.code.methods := by
  obtain ⟨hlowered, hlower'⟩ := lower_eq_ok hlower
  obtain ⟨unbounded, hunbounded, hcode, hboth⟩ :=
    exists_reassigned hlower hlower' hallocate (allocate_natural hlowered rfl) hbodies
  exact ⟨unbounded, hunbounded, hcode ▸ hboth⟩

/-- The frames of a program that has been compiled. The number that is printed for the locals of a
method is the size of its frame. If 16 bits can number the slots of the method, the frame covers
every slot in the body. The receiver and the parameters take the first slots in order, and no local
or temporary takes one of them. Under a bound the others are as many as the bound at most, and never
more than without a bound. Without a bound, locals and temporaries of different names have different
slots. -/
theorem frames_of_compile {compiled : Compiled} (h : compile analysis settings = .ok compiled)
    (declares : Source.Declares analysis.table analysis.program) :
    (∃ bodies, compiled.code.methods.mapM (bodyOf compiled.code · settings.optimize) = .ok bodies ∧
      compiled.assembly = "\n".intercalate (classHeader compiled.code ++
        (List.zipWith (methodLines compiled.code) compiled.code.methods bodies).flatten)) ∧
    (∀ method ∈ compiled.code.methods, ∃ body,
      bodyOf compiled.code method settings.optimize = .ok body ∧
      (methodLines compiled.code method body)[2]? = some s!"  .limit locals {method.frameSize}" ∧
      (method.slotCount < UInt16.size →
        (∀ item ∈ body.items, ∀ slot ∈ item.slot?, slot < method.frameSize) ∧
        Arranged method ∧
        (∀ bound ∈ settings.maxRegisters,
          method.frameSize.toNat ≤ method.reservedSlots.toNat + bound.toNat) ∧
        (settings.maxRegisters = none → ∀ var ∈ method.locals ++ method.occurrences,
          ∀ other ∈ method.locals ++ method.occurrences, var.isAllocatable → other.isAllocatable →
            var.name ≠ other.name → var.register ≠ other.register))) ∧
    ∃ unbounded, compile analysis { settings with maxRegisters := none } = .ok unbounded ∧
      List.Forall₂ (fun method other => method.name = other.name ∧
        method.reservedSlots = other.reservedSlots ∧
        (method.slotCount < UInt16.size → method.frameSize ≤ other.frameSize))
        compiled.code.methods unbounded.code.methods := by
  obtain ⟨lowered, bodies, hlower, hallocate, hbodies, hassembly⟩ := compile_eq_ok h
  obtain ⟨hlowered, _⟩ := lower_eq_ok hlower
  have haccepted : ∀ method ∈ compiled.code.methods, ∃ body,
      bodyOf compiled.code method settings.optimize = .ok body :=
    fun method hmethod => Outcome.exists_of_mapM hbodies hmethod
  refine ⟨⟨bodies, hbodies, hassembly⟩, ?_, ?_⟩
  · intro method hmethod
    obtain ⟨source, hsource, hallocated, _⟩ := exists_source hlowered hallocate hmethod
    obtain ⟨body, hbody⟩ := haccepted method hmethod
    refine ⟨body, hbody, rfl, fun fits => ?_⟩
    have formed := Lowering.formed_lowerProgram hlowered hsource
    have fits' : source.slotCount < UInt16.size := by rwa [← hallocated.slotCount_eq]
    have framed := hallocated.framed (Lowering.framed_lowerProgram hlowered declares hsource
      (Method.parameters_lt_of_slotCount fits'))
    have arranged := arranged_of_allocated hallocated formed framed fits
    have room := room_of_allocated hallocated formed fits
    refine ⟨?_, arranged, ?_, ?_⟩
    · exact fun item hitem slot hslot =>
        slot_lt_frameSize arranged hallocated room hbody hitem hslot
    · intro bound hbound
      rw [hbound] at hallocated
      rw [arranged.reserved, hallocated.reservedCount_eq]
      exact hallocated.frameSize_le_of_bound formed fits'
    · intro hnone var hvar other hother hallocatable hallocatable' hname
      rw [hnone] at hallocated
      exact hallocated.register_ne fits' (mem_vars_of_locals hvar) (mem_vars_of_locals hother)
        hallocatable hallocatable' hname
  · obtain ⟨unbounded, hunbounded, hboth⟩ := exists_unbounded hlower hallocate haccepted
    refine ⟨unbounded, hunbounded, hboth.imp ?_⟩
    rintro method other ⟨source, hsource, h, h'⟩
    exact frame_le_natural h h' (Lowering.formed_lowerProgram hlowered hsource)

end

/-- A class with a method whose two locals can share a register, and a static method with a
parameter of each kind. -/
def sparing : Source.Program :=
  ⟨[], "Sparing", none, [], [
    ⟨"grow", false, [⟨"n", .int⟩], .int,
      [.assign "a" (.binary .add (.name "n") (.int 1)),
        .assign "b" (.binary .mul (.name "a") (.name "n"))],
      some (.name "b")⟩,
    ⟨"pick", true, [⟨"cells", .array .int⟩, ⟨"n", .int⟩], .int,
      [.assign "cell" (.index (.name "cells") (.name "n"))], some (.name "cell")⟩]⟩

def sparingAnalysis : Source.Analysis where
  program := sparing
  table :=
    (Source.SymbolTable.addMethod ⟨"Sparing", none, [], [], ∅⟩
      ⟨"grow", .int, [⟨"n", .int⟩], [⟨"a", .int⟩, ⟨"b", .int⟩]⟩).addMethod
        ⟨"pick", .int, [⟨"cells", .array .int⟩, ⟨"n", .int⟩], [⟨"cell", .int⟩]⟩
  diagnostics := []

theorem declares_sparing :
    Source.Declares sparingAnalysis.table sparingAnalysis.program :=
  ⟨by decide +kernel, by decide +kernel⟩

/-- With one register the frame of the first method is smaller than without a bound. -/
theorem frames_sparing :
    ∃ compiled unbounded, compile sparingAnalysis ⟨true, some 1⟩ = .ok compiled ∧
      compile sparingAnalysis ⟨true, none⟩ = .ok unbounded ∧
      compiled.code.methods.map (·.frameSize) = [1, 3, 3] ∧
      unbounded.code.methods.map (·.frameSize) = [1, 4, 3] ∧
      List.Forall₂ (fun method other => method.name = other.name ∧
        method.reservedSlots = other.reservedSlots ∧
        (method.slotCount < UInt16.size → method.frameSize ≤ other.frameSize))
        compiled.code.methods unbounded.code.methods ∧
      ∀ method ∈ compiled.code.methods, ∃ body, bodyOf compiled.code method true = .ok body ∧
        (∀ item ∈ body.items, ∀ slot ∈ item.slot?, slot < method.frameSize) ∧ Arranged method ∧
        method.frameSize.toNat ≤ method.reservedSlots.toNat + 1 := by
  have hframes : (compile sparingAnalysis ⟨true, some 1⟩).toOption.map
      (fun compiled => compiled.code.methods.map (·.frameSize)) = some [1, 3, 3] := by
    decide +kernel
  have hframes' : (compile sparingAnalysis ⟨true, none⟩).toOption.map
      (fun compiled => compiled.code.methods.map (·.frameSize)) = some [1, 4, 3] := by
    decide +kernel
  have hcounts : (compile sparingAnalysis ⟨true, some 1⟩).toOption.map
      (fun compiled => compiled.code.methods.all (·.slotCount < UInt16.size)) = some true := by
    decide +kernel
  obtain ⟨compiled, hcompiled, hsizes⟩ := Outcome.exists_of_toOption hframes
  obtain ⟨compiled', hcompiled', hfits⟩ := Outcome.exists_of_toOption hcounts
  obtain rfl : compiled' = compiled := Except.ok.inj (hcompiled'.symm.trans hcompiled)
  obtain ⟨_, hmethods, unbounded, hunbounded, hboth⟩ := frames_of_compile hcompiled declares_sparing
  obtain ⟨unbounded', hunbounded', hsizes'⟩ := Outcome.exists_of_toOption hframes'
  obtain rfl : unbounded' = unbounded := Except.ok.inj (hunbounded'.symm.trans hunbounded)
  refine ⟨compiled', unbounded', hcompiled, hunbounded, hsizes, hsizes', hboth, ?_⟩
  intro method hmethod
  obtain ⟨body, hbody, _, hframe⟩ := hmethods method hmethod
  have fits : method.slotCount < UInt16.size := by
    simpa using List.all_eq_true.mp hfits method hmethod
  obtain ⟨hslots, arranged, hbound, _⟩ := hframe fits
  exact ⟨body, hbody, hslots, arranged, hbound 1 rfl⟩

/-- The locals of a method: an integer and an array, and the array once more behind `count` others,
which have one name. -/
def crowdedLocals (count : Nat) : List Source.Symbol :=
  ⟨"n", .int⟩ :: ⟨"cells", .array .int⟩ ::
    (List.replicate count ⟨"d", .int⟩ ++ [⟨"cells", .array .int⟩, ⟨"d", .int⟩])

def crowding (count : Nat) : Source.Analysis where
  program := ⟨[], "Crowding", none, [], [
    ⟨"keep", true, [], .int,
      [.assign "n" (.int 1), .assign "cells" (.newIntArray (.int 1))], some (.name "n")⟩]⟩
  table := Source.SymbolTable.addMethod ⟨"Crowding", none, [], [], ∅⟩
    ⟨"keep", .int, [], crowdedLocals count⟩
  diagnostics := []

theorem declares_crowding (count : Nat) :
    Source.Declares (crowding count).table (crowding count).program := by
  have hentry : (crowding count).table.method? "keep()" =
    some ⟨"keep", .int, [], crowdedLocals count⟩ := rfl
  constructor
  · intro method hmethod scope hscope
    obtain rfl := List.mem_singleton.mp hmethod
    cases hentry.symm.trans hscope
    rfl
  · intro method hmethod _ scope hscope
    obtain rfl := List.mem_singleton.mp hmethod
    cases hentry.symm.trans hscope
    rfl

def crowdedBody (register : Option UInt16) : List Labeled := [
  ⟨[], .assign (.var ⟨"n", .int, .declared, register⟩) .int (.load (.int 1))⟩,
  ⟨[], .assign (.var ⟨"cells", .array .int, .declared, register⟩) (.array .int)
    (.call .newArray (.int 1) none [] (.array .int))⟩,
  ⟨[], .ret .int (some (.var ⟨"n", .int, .declared, register⟩))⟩]

def crowdedMethod (count : Nat) : Method where
  name := "keep"
  isStatic := true
  isConstructor := false
  parameters := []
  returnTy := .int
  locals := (crowdedLocals count).map fun symbol => .declared symbol.name (.ofSource symbol.ty)
  body := crowdedBody none

theorem lower_crowding (count : Nat) : lower (crowding count) ⟨false, none⟩ =
    .ok ⟨"Crowding", none, [], [],
      [Lowering.constructor "Crowding", crowdedMethod count]⟩ := by
  -- no temporaries are added to the locals
  have h : lower (crowding count) ⟨false, none⟩ = .ok ⟨"Crowding", none, [], [],
    [Lowering.constructor "Crowding",
      { crowdedMethod count with locals := (crowdedMethod count).locals ++ [] }]⟩ := rfl
  rw [h, List.append_nil]

theorem localNames_crowded (count : Nat) : Registers.localNames (crowdedMethod count) =
    "n" :: "cells" :: (List.replicate count "d" ++ ["cells", "d"]) := by
  simp [Registers.localNames, crowdedMethod, crowdedLocals, Variable.declared,
    Variable.isAllocatable]

/-- The integer is declared first. If 16 bits make no difference between none and what is declared
before the array, both have the first register. -/
theorem body_assign_crowded {count : Nat} (h : UInt16.ofNat (count + 2) = 0) :
    (assign (naturalMap (crowdedMethod count)) (crowdedMethod count)).body =
      crowdedBody (some 0) := by
  have hnumber : (naturalMap (crowdedMethod count)).get? "n" = some 0 :=
    @Registers.get?_naturalMap _ _ [] _ (localNames_crowded count) (by simp)
  have hcells : (naturalMap (crowdedMethod count)).get? "cells" = some 0 := by
    have hsplit : Registers.localNames (crowdedMethod count) =
        ("n" :: "cells" :: List.replicate count "d") ++ "cells" :: ["d"] :=
      localNames_crowded count
    rw [Registers.get?_naturalMap hsplit (by simp), List.length_cons, List.length_cons,
      List.length_replicate, h]
  have hbody : (assign (naturalMap (crowdedMethod count)) (crowdedMethod count)).body = [
    ⟨[], .assign (.var ⟨"n", .int, .declared,
      ((naturalMap (crowdedMethod count)).get? "n").map (0 + ·)⟩) .int (.load (.int 1))⟩,
    ⟨[], .assign (.var ⟨"cells", .array .int, .declared,
      ((naturalMap (crowdedMethod count)).get? "cells").map (0 + ·)⟩) (.array .int)
      (.call .newArray (.int 1) none [] (.array .int))⟩,
    ⟨[], .ret .int (some (.var ⟨"n", .int, .declared,
      ((naturalMap (crowdedMethod count)).get? "n").map (0 + ·)⟩))⟩] := rfl
  rw [hbody, hnumber, hcells]
  rfl

/-- The method with its registers, where the array is declared behind `2 ^ 16` other locals. -/
def crowdedAssigned : Method :=
  assign (naturalMap (crowdedMethod 65534)) (crowdedMethod 65534)

def crowdedCode : Code.Class :=
  ⟨"Crowding", none, [], [],
    [assign (naturalMap (Lowering.constructor "Crowding")) (Lowering.constructor "Crowding"),
      crowdedAssigned]⟩

def crowdedItems : List Item :=
  instrs [.iconst 1, .istore 0, .iconst 1, .newIntArray, .astore 0, .iload 0, .ireturn]

theorem body_crowdedAssigned : crowdedAssigned.body = crowdedBody (some 0) :=
  body_assign_crowded (by decide)

theorem bodyOf_crowdedAssigned :
    bodyOf crowdedCode crowdedAssigned false = .ok ⟨crowdedItems, 1⟩ := by
  rw [bodyOf, body_crowdedAssigned]
  decide +kernel

theorem compile_crowding :
    ∃ compiled, compile (crowding 65534) ⟨false, none⟩ = .ok compiled ∧
      compiled.code = crowdedCode := by
  have hlowered := (lower_eq_ok (lower_crowding 65534)).1
  have hallocate := @allocate_natural ⟨false, none⟩ _ _ _ hlowered rfl
  refine exists_compile (lower_crowding 65534) hallocate ?_
  refine List.forall_mem_cons.mpr ⟨?_, List.forall_mem_singleton.mpr ⟨_, bodyOf_crowdedAssigned⟩⟩
  have hall := Registers.allocated_of_allocateAll (Registers.allocate_eq_ok hallocate).1
  have hconstructor := (List.forall₂_cons.mp hall).1
  exact exists_bodyOf_constructor hlowered List.mem_cons_self hconstructor ..

/-- Without a bound, an integer and an array share a slot. -/
theorem slots_shared_crowding :
    Source.Declares (crowding 65534).table (crowding 65534).program ∧
    ∃ compiled, compile (crowding 65534) ⟨false, none⟩ = .ok compiled ∧
      ∃ method ∈ compiled.code.methods, ∃ var ∈ method.occurrences, ∃ other ∈ method.occurrences,
        var.isAllocatable ∧ other.isAllocatable ∧ var.name ≠ other.name ∧
          var.register = some 0 ∧ other.register = some 0 := by
  obtain ⟨compiled, hcompiled, hcode⟩ := compile_crowding
  refine ⟨declares_crowding _, compiled, hcompiled, crowdedAssigned, ?_,
    ⟨"n", .int, .declared, some 0⟩, ?_, ⟨"cells", .array .int, .declared, some 0⟩, ?_, rfl, rfl,
    by decide, rfl, rfl⟩
  · rw [hcode]
    exact List.mem_cons_of_mem _ (List.mem_singleton_self _)
  · rw [Method.occurrences, body_crowdedAssigned]
    decide
  · rw [Method.occurrences, body_crowdedAssigned]
    decide

end ClassCompiler.Stack
