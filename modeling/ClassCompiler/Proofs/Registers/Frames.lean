import ClassCompiler.Proofs.Registers.Assigned
import ClassCompiler.Proofs.Registers.Selection

/-!
# The size of frames

A frame has room for the receiver, the parameters, and the registers of locals and temporaries.
Without a bound every declaration has a register of its own. Colors stay below their bound, and as
each vertex takes the least color that is free they also stay below the number of vertices, so
coloring never makes a frame larger. All this takes declarations that 16 bits can number.
-/

namespace ClassCompiler.Code.Method

variable {method : Method} {slot : UInt16} {limit : Nat}

instance : Std.LawfulOrderMax UInt16 where
  max_le_iff left right bound := by
    simp only [UInt16.le_iff_toNat_le, UInt16.toNat_max]
    exact Nat.max_le
  max_eq_or left right := by
    simp only [← UInt16.toNat_inj, UInt16.toNat_max]
    omega

/-- The slots that are taken in a frame by declarations and by the receiver. -/
def frameSlots (method : Method) : List UInt16 :=
  (method.parameters ++ method.locals).filterMap (·.register) ++
    if method.isStatic then [] else [0]

/-- A frame is as large as its slots require and no larger, unless one of them is the last that 16
bits can number. -/
theorem frameSize_le_iff (room : ∀ slot ∈ method.frameSlots, slot.toNat + 1 < UInt16.size) :
    method.frameSize.toNat ≤ limit ↔ ∀ slot ∈ method.frameSlots, slot.toNat < limit := by
  have hmax : method.maxRegister? = method.frameSlots.max? := rfl
  rw [frameSize, hmax]
  cases htop : method.frameSlots.max? with
  | none =>
    rw [List.max?_eq_none_iff.mp htop]
    simp
  | some top =>
    obtain ⟨hmem, hle⟩ := List.max?_eq_some_iff.mp htop
    have hnext : (top + 1).toNat = top.toNat + 1 := by
      rw [UInt16.toNat_add]
      exact Nat.mod_eq_of_lt (room top hmem)
    simp only [hnext]
    constructor
    · intro hlimit slot hslot
      exact Nat.lt_of_le_of_lt (UInt16.le_iff_toNat_le.mp (hle slot hslot)) hlimit
    · intro hall
      exact hall top hmem

theorem lt_frameSize (room : ∀ slot ∈ method.frameSlots, slot.toNat + 1 < UInt16.size)
    (h : slot ∈ method.frameSlots) : slot.toNat < method.frameSize.toNat :=
  (frameSize_le_iff room).mp (Nat.le_refl _) slot h

theorem mem_frameSlots_of_register {var : Variable}
    (hvar : var ∈ method.parameters ++ method.locals) (hslot : var.register = some slot) :
    slot ∈ method.frameSlots :=
  List.mem_append_left _ (List.mem_filterMap.mpr ⟨var, hvar, hslot⟩)

theorem zero_mem_frameSlots (h : method.isStatic = false) : 0 ∈ method.frameSlots := by
  simp [frameSlots, h]

end ClassCompiler.Code.Method

namespace ClassCompiler.Registers

open Code (Method Variable)

section

variable {graph : InterferenceGraph} {bound : Nat}

/-- A color that is chosen is at most the number of colors in use. -/
theorem le_of_find? {taken : List Nat} {count color : Nat} (htaken : ∀ other ∈ taken, other < count)
    (h : (List.range bound).find? (· ∉ taken) = some color) : color ≤ count := by
  refine Nat.le_of_not_lt fun hlt => ?_
  obtain ⟨_, _, hbefore⟩ := List.find?_range_eq_some.mp h
  have hmem : count ∈ taken := by simpa using hbefore count hlt
  exact Nat.lt_irrefl count (htaken count hmem)

/-- The first free color is at most the number of vertices that have been colored before. -/
theorem lt_of_select {order : List Nat} {colors result : PartialColoring} {count color : Nat}
    (h : select graph (List.range bound) order colors = .ok result)
    (hcolors : ∀ color, some color ∈ colors → color < count) (hcolor : some color ∈ result) :
    color < count + order.length := by
  induction order generalizing colors count with
  | nil =>
    cases h
    exact hcolors color hcolor
  | cons first rest ih =>
    rw [select] at h
    split at h
    · next chosen hchosen =>
      have htaken : ∀ other ∈ takenColors graph colors first, other < count := by
        intro other hother
        obtain ⟨neighbor, _, hget⟩ := List.mem_filterMap.mp hother
        exact hcolors other (mem_of_getD_eq_some hget)
      have hle := le_of_find? htaken hchosen
      have hnext : ∀ other, some other ∈ colors.set first (some chosen) → other < count + 1 := by
        intro other hother
        rcases List.mem_or_eq_of_mem_set hother with hmem | heq
        · have := hcolors other hmem
          omega
        · cases heq
          omega
      have := ih h hnext
      rw [List.length_cons]
      omega
    · cases h

/-- There are no more colors in use than vertices. -/
theorem color_lt_size (sound : graph.Sound) {colors : List Nat} (h : color graph bound = .ok colors)
    {color : Nat} (hcolor : color ∈ colors) : color < graph.size := by
  obtain ⟨order, result, horder, hselect, _, hlength, hget⟩ := exists_select_of_color sound h
  obtain ⟨i, hi⟩ := List.mem_iff_getElem?.mp hcolor
  obtain ⟨hlt, _⟩ := List.getElem?_eq_some_iff.mp hi
  obtain ⟨chosen, hchosen, hcolors⟩ := hget i (hlength ▸ hlt)
  obtain rfl : chosen = color := Option.some.inj (hcolors.symm.trans hi)
  have hnone : ∀ other, some other ∈ List.replicate graph.size (none : Option Nat) → other < 0 :=
    fun other hother => absurd (List.eq_of_mem_replicate hother) nofun
  have := lt_of_select hselect hnone (mem_of_getD_eq_some hchosen)
  omega

end

variable {method : Method} {map : RegisterMap} {name : String} {register bound : UInt16}
  {bound? : Option UInt16}

theorem mem_colors_of_colorMap {graph : InterferenceGraph} {colors : List Nat}
    (h : (colorMap graph colors).get? name = some register) :
    ∃ color ∈ colors, register = .ofNat color := by
  have hmem := (List.of_mem_zip (mem_of_get?_ofList h)).2
  obtain ⟨color, hcolor, rfl⟩ := List.mem_map.mp hmem
  exact ⟨color, hcolor, rfl⟩

theorem mem_localNames {var : Variable} (formed : method.Formed) (hvar : var ∈ method.occurrences)
    (hallocatable : var.isAllocatable) : var.name ∈ localNames method := by
  obtain ⟨decl, hdecl, hname⟩ := formed.declared var hvar hallocatable
  rw [← hname]
  exact List.mem_map_of_mem (List.mem_filter.mpr ⟨hdecl, formed.locals decl hdecl⟩)

/-- Instructions read and write variables that are declared. -/
theorem variableNames_subset (formed : method.Formed) {flow : Flow.Graph}
    (hflow : Flow.Graph.ofBody method.body = .ok flow) :
    InterferenceGraph.variableNames method flow ⊆ localNames method := by
  intro name hname
  rcases List.mem_append.mp hname with hlocal | hmentioned
  · exact hlocal
  obtain ⟨point, hpoint, hname⟩ := List.mem_flatMap.mp hmentioned
  obtain ⟨index, hindex⟩ := List.mem_iff_getElem?.mp hpoint
  have hlt : index < method.body.length := by
    rw [← Flow.size_eq hflow, Flow.Graph.size, ← Array.length_toList]
    exact (List.getElem?_eq_some_iff.mp hindex).1
  have hline := List.getElem?_eq_getElem hlt
  have hget : flow.points[index]? = some point := by simpa using hindex
  obtain ⟨_, huses, hdefs⟩ := Flow.point_of_line hflow hline
  simp only [Flow.Graph.uses, Flow.Graph.defs, hget] at huses hdefs
  have hoccurs {var : Variable} (hvar : var ∈ (method.body[index]).instr.vars) :
      var ∈ method.occurrences :=
    Method.mem_occurrences (List.mem_of_getElem? hline) hvar
  rcases List.mem_append.mp hname with hmem | hmem
  · rw [NameSet.mem_names, huses] at hmem
    obtain ⟨var, hvar, hallocatable, rfl⟩ := mem_allocatableNames.mp hmem
    obtain ⟨operand, hoperand, hvar⟩ := List.mem_flatMap.mp hvar
    refine mem_localNames formed (hoccurs ?_) hallocatable
    exact List.mem_flatMap.mpr ⟨operand, Code.Instr.readOperands_subset _ hoperand, hvar⟩
  · rw [NameSet.mem_names, hdefs] at hmem
    obtain ⟨var, hvar, hallocatable, rfl⟩ := mem_allocatableNames.mp hmem
    refine mem_localNames formed (hoccurs ?_) hallocatable
    exact Code.Instr.mem_vars_of_written? (by simpa using hvar)

/-- Registers that coloring gives are below the bound, and below the number of locals. -/
theorem lt_of_coloredMap (formed : method.Formed) (h : coloredMap method bound = .ok map)
    (hget : map.get? name = some register) :
    register.toNat < bound.toNat ∧ register.toNat < (localNames method).length := by
  obtain ⟨flow, colors, hflow, hcolors, rfl⟩ := coloredMap_eq_ok h
  obtain ⟨color, hmem, rfl⟩ := mem_colors_of_colorMap hget
  have built := InterferenceGraph.built_ofMethod method flow
  have sound := built.simple.toSound
  have hbound := color_lt sound hcolors hmem
  rw [UInt16.toNat_ofNat_of_lt' (Nat.lt_trans hbound bound.toNat_lt)]
  refine ⟨hbound, ?_⟩
  have hnames : (InterferenceGraph.ofMethod method flow flow.liveness).names ⊆ localNames method :=
    fun name hname => variableNames_subset formed hflow (built.names_subset hname)
  have hsize := sound.distinct.length_le_of_subset hnames
  have hlt := color_lt_size sound hcolors hmem
  rw [InterferenceGraph.size] at hlt
  omega

theorem reservedCount_add_le_slotCount (method : Method) :
    method.reservedCount + (localNames method).length ≤ method.slotCount := by
  rw [Method.slotCount, localNames, List.length_map]
  exact Nat.add_le_add_left (List.length_filter_le ..) _

/-- Registers are below the number of locals, with a bound or without one. -/
theorem lt_of_registerMap (formed : method.Formed) (fits : method.slotCount < UInt16.size)
    (h : registerMap method bound? = .ok map) (hget : map.get? name = some register) :
    register.toNat < (localNames method).length := by
  cases bound? with
  | some bound => exact (lt_of_coloredMap formed h hget).2
  | none =>
    cases h
    obtain ⟨index, hindex, rfl⟩ := getElem?_of_naturalMap hget
    obtain ⟨hlt, _⟩ := List.getElem?_eq_some_iff.mp hindex
    have hle := reservedCount_add_le_slotCount method
    rwa [UInt16.toNat_ofNat_of_lt' (by omega)]

theorem roomy_of_registerMap (formed : method.Formed) (fits : method.slotCount < UInt16.size)
    (h : registerMap method bound? = .ok map) : Roomy method map := by
  rintro ⟨name, register⟩ hentry
  have hlt := lt_of_registerMap formed fits h (NameMap.get?_eq_some_iff.mpr hentry)
  have hle := reservedCount_add_le_slotCount method
  simp only
  omega

/-- Without a bound, variables of different names have different registers. -/
theorem naturalMap_inj (fits : method.slotCount < UInt16.size) {other : String}
    (h : (naturalMap method).get? name = some register)
    (h' : (naturalMap method).get? other = some register) : name = other := by
  obtain ⟨index, hindex, rfl⟩ := getElem?_of_naturalMap h
  obtain ⟨index', hindex', heq⟩ := getElem?_of_naturalMap h'
  obtain ⟨hlt, _⟩ := List.getElem?_eq_some_iff.mp hindex
  obtain ⟨hlt', _⟩ := List.getElem?_eq_some_iff.mp hindex'
  have hle := reservedCount_add_le_slotCount method
  have hsame := congrArg UInt16.toNat heq
  rw [UInt16.toNat_ofNat_of_lt' (by omega), UInt16.toNat_ofNat_of_lt' (by omega)] at hsame
  rw [hsame, hindex'] at hindex
  exact (Option.some.inj hindex).symm

/-- Without a bound, the register of a name counts what is declared before its last declaration. -/
theorem get?_naturalMap {before after : List String}
    (h : localNames method = before ++ name :: after) (hlast : name ∉ after) :
    (naturalMap method).get? name = some (.ofNat before.length) := by
  have hmap : naturalMap method = .ofList ((localNames method).zipIdx.map fun entry =>
    (entry.1, UInt16.ofNat entry.2)) := rfl
  have hothers : ∀ entry ∈ (after.zipIdx (before.length + 1)).map fun entry =>
      (entry.1, UInt16.ofNat entry.2), entry.1 ≠ name := by
    refine List.forall_mem_map.mpr ?_
    rintro ⟨other, index⟩ hentry rfl
    exact hlast (List.fst_mem_of_mem_zipIdx hentry)
  rw [hmap, h, List.zipIdx_append, List.zipIdx_cons, List.map_append, List.map_cons,
    List.append_cons, Nat.zero_add, NameMap.get?_ofList_append _ hothers]
  exact NameMap.get?_ofList_concat ..

/-- Without a bound, the variable declared last has the highest register. -/
theorem exists_get?_naturalMap_last (h : localNames method ≠ []) :
    ∃ name ∈ localNames method,
      (naturalMap method).get? name = some (.ofNat ((localNames method).length - 1)) := by
  obtain ⟨others, last, hsplit⟩ := (List.eq_nil_or_concat' (localNames method)).resolve_left h
  refine ⟨last, by simp [hsplit], ?_⟩
  rw [get?_naturalMap hsplit List.not_mem_nil, hsplit, List.length_append]
  rfl

theorem reservedCount_assign (map : RegisterMap) (method : Method) :
    (assign map method).reservedCount = method.reservedCount := by
  have hlength : (assign map method).parameters.length = method.parameters.length :=
    List.length_map _
  rw [Method.reservedCount, hlength]
  rfl

theorem slotCount_assign (map : RegisterMap) (method : Method) :
    (assign map method).slotCount = method.slotCount := by
  have hlength : (assign map method).locals.length = method.locals.length := List.length_map _
  rw [Method.slotCount, reservedCount_assign, hlength, Method.slotCount]

theorem register_parameter (formed : (assign map method).Formed) {index : Nat} {param : Variable}
    (h : (assign map method).parameters[index]? = some param) :
    param.register = some (method.receiverSlots + .ofNat index) := by
  have hmem : param ∈ (assign map method).vars :=
    List.mem_append_left _ (List.mem_append_left _ (List.mem_of_getElem? h))
  rw [register_of_mem_vars hmem, slot?, formed.parameters index param h]
  simp only [receiverSlots_assign, ← UInt16.add_assoc, UInt16.add_sub_cancel]

/-- The slot of a parameter, if 16 bits can number it. -/
theorem toNat_register_parameter {index : Nat} (fits : method.receiverCount + index < UInt16.size) :
    (method.receiverSlots + UInt16.ofNat index).toNat = method.receiverCount + index := by
  rw [Method.receiverSlots_eq, ← UInt16.ofNat_add, UInt16.toNat_ofNat_of_lt' fits]

theorem slot?_of_isAllocatable {var : Variable} (h : var.isAllocatable) :
    slot? method map var = (map.get? var.name).map (method.reservedSlots + ·) := by
  rw [slot?_eq_keySlot?, Variable.key?_eq_local_iff.mpr ⟨h, rfl⟩]
  rfl

theorem register_local {var : Variable} (hvar : var ∈ (assign map method).vars)
    (hallocatable : var.isAllocatable) {slot : UInt16} (hslot : var.register = some slot) :
    ∃ register, map.get? var.name = some register ∧ slot = method.reservedSlots + register := by
  rw [register_of_mem_vars hvar, slot?_assign, slot?_of_isAllocatable hallocatable] at hslot
  obtain ⟨register, hregister, heq⟩ := Option.map_eq_some_iff.mp hslot
  exact ⟨register, hregister, heq.symm⟩

/-- Declarations lie behind one another in the frame, as far as registers go. -/
theorem lt_of_mem_frameSlots (formed : (assign map method).Formed) {limit : Nat}
    (hmap : ∀ name register, map.get? name = some register → register.toNat < limit)
    (fits : method.reservedCount + limit < UInt16.size) {slot : UInt16}
    (hslot : slot ∈ (assign map method).frameSlots) :
    slot.toNat < method.reservedCount + limit := by
  have hreserved : method.reservedCount = method.receiverCount + method.parameters.length := rfl
  rcases List.mem_append.mp hslot with hdeclared | hreceiver
  · obtain ⟨var, hvar, hslot⟩ := List.mem_filterMap.mp hdeclared
    rcases List.mem_append.mp hvar with hparam | hlocal
    · obtain ⟨index, hindex⟩ := List.mem_iff_getElem?.mp hparam
      have hlt : index < method.parameters.length := by
        simpa [assign, Method.mapVars] using (List.getElem?_eq_some_iff.mp hindex).1
      rw [register_parameter formed hindex] at hslot
      cases hslot
      rw [toNat_register_parameter (by omega)]
      omega
    · obtain ⟨register, hregister, rfl⟩ :=
        register_local (List.mem_append_left _ hvar) (formed.locals var hlocal) hslot
      have hlt := hmap _ register hregister
      rw [Method.toNat_reservedSlots_add (by omega)]
      omega
  · split at hreceiver
    · cases hreceiver
    · next hinstance =>
      obtain rfl := List.mem_singleton.mp hreceiver
      have hcount : method.receiverCount = 1 := if_neg hinstance
      rw [UInt16.toNat_zero]
      omega

theorem frameSize_assign_le (formed : (assign map method).Formed) {limit : Nat}
    (hmap : ∀ name register, map.get? name = some register → register.toNat < limit)
    (fits : method.reservedCount + limit < UInt16.size) :
    (assign map method).frameSize.toNat ≤ method.reservedCount + limit := by
  have hslots := fun slot => @lt_of_mem_frameSlots method map formed limit hmap fits slot
  exact (Method.frameSize_le_iff fun slot hslot => Nat.lt_of_le_of_lt (hslots slot hslot) fits).mpr
    hslots

theorem mem_locals_assign (map : RegisterMap) (h : name ∈ localNames method) :
    ∃ var ∈ (assign map method).locals, var.isAllocatable ∧ var.name = name := by
  obtain ⟨decl, hdecl, rfl⟩ := List.mem_map.mp h
  obtain ⟨hlocal, hallocatable⟩ := List.mem_filter.mp hdecl
  exact ⟨withSlot method map decl, List.mem_map_of_mem hlocal, hallocatable, rfl⟩

theorem room_of_registerMap (formed : method.Formed) (fits : method.slotCount < UInt16.size)
    (h : registerMap method bound? = .ok map) :
    ∀ slot ∈ (assign map method).frameSlots, slot.toNat + 1 < UInt16.size := by
  intro slot hslot
  have formed' := formed.mapVars (keeps_withSlot method map)
  have hle := reservedCount_add_le_slotCount method
  have hlt := lt_of_mem_frameSlots formed' (fun _ _ => lt_of_registerMap formed fits h) (by omega)
    hslot
  omega

/-- The slot of the last parameter is in the frame, or that of the receiver. -/
theorem reservedCount_le_frameSize (formed : (assign map method).Formed)
    (room : ∀ slot ∈ (assign map method).frameSlots, slot.toNat + 1 < UInt16.size)
    (fits : method.reservedCount < UInt16.size) :
    method.reservedCount ≤ (assign map method).frameSize.toNat := by
  have hreserved : method.reservedCount = method.receiverCount + method.parameters.length := rfl
  cases hparams : method.parameters.length with
  | zero =>
    by_cases hstatic : method.isStatic
    · have hcount : method.receiverCount = 0 := if_pos hstatic
      omega
    · have hcount : method.receiverCount = 1 := if_neg hstatic
      have hzero := Method.lt_frameSize room
        (@Method.zero_mem_frameSlots (assign map method) (Bool.eq_false_iff.mpr hstatic))
      omega
  | succ count =>
    have hlt : count < (assign map method).parameters.length := by
      simp [assign, Method.mapVars, hparams]
    have hlast := List.getElem?_eq_getElem hlt
    have hmem := Method.mem_frameSlots_of_register
      (List.mem_append_left _ (List.mem_of_getElem? hlast)) (register_parameter formed hlast)
    have hframe := Method.lt_frameSize room hmem
    rw [toNat_register_parameter (by omega)] at hframe
    omega

/-- Without a bound, a frame has room for the receiver, the parameters and each local. -/
theorem le_frameSize_naturalMap (formed : method.Formed) (fits : method.slotCount < UInt16.size) :
    method.reservedCount + (localNames method).length ≤
      (assign (naturalMap method) method).frameSize.toNat := by
  have formed' := formed.mapVars (keeps_withSlot method (naturalMap method))
  have room := @room_of_registerMap method _ none formed fits rfl
  have hle := reservedCount_add_le_slotCount method
  by_cases hlocals : localNames method = []
  · have hreserved := reservedCount_le_frameSize formed' room (by omega)
    rw [hlocals, List.length_nil]
    exact hreserved
  · obtain ⟨name, hname, hget⟩ := exists_get?_naturalMap_last hlocals
    obtain ⟨var, hvar, hallocatable, rfl⟩ := mem_locals_assign (naturalMap method) hname
    have hvars : var ∈ (assign (naturalMap method) method).vars :=
      List.mem_append_left _ (List.mem_append_right _ hvar)
    have hslot : var.register = some (method.reservedSlots +
        .ofNat ((localNames method).length - 1)) := by
      rw [register_of_mem_vars hvars, slot?_assign, slot?_of_isAllocatable hallocatable, hget]
      rfl
    have hframe := Method.lt_frameSize room
      (Method.mem_frameSlots_of_register (List.mem_append_right _ hvar) hslot)
    have hlast := @UInt16.toNat_ofNat_of_lt' ((localNames method).length - 1) (by omega)
    rw [Method.toNat_reservedSlots_add (by omega), hlast] at hframe
    have hpositive := List.length_pos_of_ne_nil hlocals
    omega

namespace Allocated

variable {assigned natural : Method}

theorem reservedCount_eq (h : Allocated bound? method assigned) :
    assigned.reservedCount = method.reservedCount := by
  obtain ⟨map, _, _, rfl⟩ := h
  exact reservedCount_assign map method

theorem slotCount_eq (h : Allocated bound? method assigned) :
    assigned.slotCount = method.slotCount := by
  obtain ⟨map, _, _, rfl⟩ := h
  exact slotCount_assign map method

/-- A bound holds for the registers beyond those of the receiver and the parameters. -/
theorem frameSize_le_of_bound (h : Allocated (some bound) method assigned)
    (formed : method.Formed) (fits : method.slotCount < UInt16.size) :
    assigned.frameSize.toNat ≤ method.reservedCount + bound.toNat := by
  have formed' := h.formed formed
  obtain ⟨map, hmap, _, rfl⟩ := h
  have hle := reservedCount_add_le_slotCount method
  have hframe := frameSize_assign_le formed'
    (fun name register hget => Nat.lt_min.mpr (lt_of_coloredMap formed hmap hget)) (by omega)
  omega

/-- Without a bound, locals and temporaries of different names have different registers. -/
theorem register_ne (h : Allocated none method assigned) (fits : method.slotCount < UInt16.size)
    {var other : Variable} (hvar : var ∈ assigned.vars) (hother : other ∈ assigned.vars)
    (hallocatable : var.isAllocatable) (hallocatable' : other.isAllocatable)
    (hname : var.name ≠ other.name) : var.register ≠ other.register := by
  intro heq
  obtain ⟨slot, hslot⟩ := h.exists_register_local hvar hallocatable
  obtain ⟨map, hmap, _, rfl⟩ := h
  cases hmap
  obtain ⟨register, hget, rfl⟩ := register_local hvar hallocatable hslot
  obtain ⟨register', hget', hsame⟩ := register_local hother hallocatable' (heq.symm.trans hslot)
  obtain rfl : register = register' := (UInt16.add_right_inj _).mp hsame
  exact hname (naturalMap_inj fits hget hget')

/-- Variables that clash have different registers, with a bound or without one. -/
theorem register_ne_of_clash (h : Allocated bound? method assigned)
    (fits : method.slotCount < UInt16.size) {flow : Flow.Graph}
    (hflow : Flow.Graph.ofBody assigned.body = .ok flow) {index : Nat} (hindex : index < flow.size)
    {var other : Variable} (hvar : var ∈ assigned.vars) (hother : other ∈ assigned.vars)
    (hallocatable : var.isAllocatable) (hallocatable' : other.isAllocatable)
    (clash : InterferenceGraph.Clash flow flow.liveness index var.name other.name) :
    var.register ≠ other.register := by
  cases bound? with
  | none => exact register_ne h fits hvar hother hallocatable hallocatable' clash.1
  | some bound =>
    rw [h.ofBody_eq] at hflow
    obtain ⟨slot, hslot⟩ := h.exists_register_local hvar hallocatable
    obtain ⟨map, hmap, _, rfl⟩ := h
    obtain ⟨flow', hflow', separates⟩ := coloredMap_spec hmap
    obtain rfl : flow' = flow := Except.ok.inj (hflow'.symm.trans hflow)
    intro heq
    obtain ⟨register, hget, rfl⟩ := register_local hvar hallocatable hslot
    obtain ⟨register', hget', hsame⟩ := register_local hother hallocatable' (heq.symm.trans hslot)
    obtain rfl : register = register' := (UInt16.add_right_inj _).mp hsame
    exact separates.differ hindex clash (hget.trans hget'.symm)

/-- A frame is never larger than without a bound. -/
theorem frameSize_le_natural (h : Allocated bound? method assigned)
    (hnatural : Allocated none method natural) (formed : method.Formed)
    (fits : method.slotCount < UInt16.size) :
    assigned.frameSize.toNat ≤ natural.frameSize.toNat := by
  have formed' := h.formed formed
  obtain ⟨map, hmap, _, rfl⟩ := h
  obtain ⟨_, hnatural, _, rfl⟩ := hnatural
  cases hnatural
  have hle := reservedCount_add_le_slotCount method
  have hframe := frameSize_assign_le formed' (fun _ _ => lt_of_registerMap formed fits hmap)
    (by omega)
  exact Nat.le_trans hframe (le_frameSize_naturalMap formed fits)

end Allocated

end ClassCompiler.Registers
