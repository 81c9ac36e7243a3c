import ClassCompiler.Proofs.Registers.Allocation
import ClassCompiler.Proofs.Registers.Preservation

/-!
# Methods that have registers

Assigning registers writes the slot of each variable to all its occurrences and keeps everything
else, so what lowering promises of a method still holds of it, and its flow graph is the same. As
long as 16 bits can number all slots, the receiver, the parameters and the locals have slots of
their own, and only locals and temporaries can share one.
-/

namespace ClassCompiler.Flow

open Code (Instr Keeps Labeled Variable)

variable {f : Variable → Variable} (keeps : Keeps f)

include keeps

theorem allocatableNames_map (vars : List Variable) :
    allocatableNames (vars.map f) = allocatableNames vars := by
  simp [allocatableNames, List.filter_map, Function.comp_def, keeps.isAllocatable, keeps.name]

theorem usesOf_mapVars (instr : Instr) : usesOf (instr.mapVars f) = usesOf instr := by
  rw [usesOf, usesOf, ← allocatableNames_map keeps (instr.readOperands.flatMap (·.vars))]
  simp [List.flatMap_map, List.map_flatMap]

theorem defsOf_mapVars (instr : Instr) : defsOf (instr.mapVars f) = defsOf instr := by
  rw [defsOf, defsOf, ← allocatableNames_map keeps instr.written?.toList, Instr.written?_mapVars,
    Option.toList_map]

/-- The flow graph does not depend on registers. -/
theorem pointsFrom_mapVars (labels : NameMap Nat) (count index : Nat) (lines : List Labeled) :
    pointsFrom labels count index
      (lines.map fun line => { line with instr := line.instr.mapVars f }) =
        pointsFrom labels count index lines := by
  induction lines generalizing index with
  | nil => rfl
  | cons line rest ih =>
    have hnext : nextOf labels count index (line.instr.mapVars f) =
        nextOf labels count index line.instr := by
      cases line.instr <;> rfl
    rw [List.map_cons, pointsFrom, pointsFrom, ih, hnext, usesOf_mapVars keeps,
      defsOf_mapVars keeps]

omit keeps in
theorem labelsFrom_mapVars (index : Nat) (labels : NameMap Nat) (lines : List Labeled) :
    labelsFrom index labels (lines.map fun line => { line with instr := line.instr.mapVars f }) =
      labelsFrom index labels lines := by
  induction lines generalizing index labels with
  | nil => rfl
  | cons line rest ih =>
    rw [List.map_cons, labelsFrom, labelsFrom]
    simp only [ih]

theorem ofBody_mapVars (method : Code.Method) :
    Graph.ofBody (method.mapVars f).body = Graph.ofBody method.body := by
  rw [Code.Method.mapVars, Graph.ofBody, Graph.ofBody, labelsFrom_mapVars]
  simp only [pointsFrom_mapVars keeps, List.length_map]

end ClassCompiler.Flow

namespace ClassCompiler.Registers

open Code (Method Variable)

theorem keeps_withSlot (method : Method) (map : RegisterMap) :
    Code.Keeps (withSlot method map) :=
  ⟨fun _ => rfl, fun _ => rfl, fun _ => rfl⟩

theorem receiverSlots_assign (map : RegisterMap) (method : Method) :
    (assign map method).receiverSlots = method.receiverSlots := rfl

theorem reservedSlots_assign (map : RegisterMap) (method : Method) :
    (assign map method).reservedSlots = method.reservedSlots := by
  have hlength : (assign map method).parameters.length = method.parameters.length :=
    List.length_map _
  rw [Method.reservedSlots, receiverSlots_assign, hlength, Method.reservedSlots]

theorem slot?_assign (map : RegisterMap) (method : Method) (var : Variable) :
    slot? (assign map method) map var = slot? method map var := by
  rw [slot?, receiverSlots_assign, reservedSlots_assign, slot?]

/-- Every occurrence has the slot of its variable, and so does every declaration. -/
theorem register_of_mem_vars {map : RegisterMap} {method : Method} {var : Variable}
    (h : var ∈ (assign map method).vars) : var.register = slot? (assign map method) map var := by
  rw [assign, Method.vars_mapVars] at h
  obtain ⟨source, _, rfl⟩ := List.mem_map.mp h
  rw [slot?_assign]
  rfl

/-- The slot of a variable, by what identifies the variable. -/
def keySlot? (method : Method) (map : RegisterMap) : Code.Key → Option UInt16
  | .local name => (map.get? name).map (method.reservedSlots + ·)
  | .parameter position => some (method.receiverSlots + .ofNat position - 1)
  | .receiver => some 0

theorem slot?_eq_keySlot? (method : Method) (map : RegisterMap) (var : Variable) :
    slot? method map var = var.key?.bind (keySlot? method map) := by
  obtain ⟨name, ty, role, register⟩ := var
  cases role with
  | parameter position => simp [slot?, keySlot?, Variable.key?]
  | declared | temporary | receiver | field | className => rfl

/-- Where a slot is: that of the receiver, then those of the parameters, then all others. -/
theorem keySlot?_cases {method : Method} {map : RegisterMap} (roomy : Roomy method map)
    {var : Variable} {key : Code.Key} {slot : UInt16} (placed : Placed method var.role)
    (hkey : var.key? = some key) (h : keySlot? method map key = some slot) :
    key = .receiver ∧ slot.toNat = 0 ∧ method.receiverCount = 1 ∨
      (∃ position, key = .parameter position ∧ 1 ≤ position ∧
        position ≤ method.parameters.length ∧ slot.toNat + 1 = method.receiverCount + position) ∨
      var.isAllocatable ∧ key = .local var.name ∧ method.reservedCount ≤ slot.toNat := by
  obtain ⟨name, ty, role, register⟩ := var
  cases role with
  | receiver =>
    cases hkey
    cases h
    have hstatic : method.isStatic = false := placed
    exact .inl ⟨rfl, rfl, by simp [Method.receiverCount, hstatic]⟩
  | parameter position =>
    cases hkey
    obtain ⟨hone, hle⟩ := placed
    simp only [keySlot?, UInt16.ofNat_toNat, Option.some.injEq] at h
    have hslot := Method.toNat_parameterSlot method hone
    rw [h] at hslot
    exact .inr (.inl ⟨position.toNat, rfl, hone, hle, by omega⟩)
  | declared | temporary =>
    cases hkey
    obtain ⟨register', hregister, rfl⟩ := Option.map_eq_some_iff.mp h
    refine .inr (.inr ⟨rfl, rfl, ?_⟩)
    rw [Method.toNat_reservedSlots_add (roomy.lt hregister)]
    exact Nat.le_add_right ..
  | field | className => cases hkey

/-- Different variables in one slot are locals or temporaries. -/
theorem isAllocatable_of_keySlot? {method : Method} {map : RegisterMap} (roomy : Roomy method map)
    {var other : Variable} {key key' : Code.Key} {slot : UInt16}
    (placed : Placed method var.role) (placed' : Placed method other.role)
    (hkey : var.key? = some key) (hkey' : other.key? = some key')
    (h : keySlot? method map key = some slot) (h' : keySlot? method map key' = some slot)
    (hne : key ≠ key') :
    (var.isAllocatable ∧ key = .local var.name) ∧
      other.isAllocatable ∧ key' = .local other.name := by
  have hreserved : method.reservedCount = method.receiverCount + method.parameters.length := rfl
  have hcases' := keySlot?_cases roomy placed' hkey' h'
  rcases keySlot?_cases roomy placed hkey h with
    ⟨rfl, _, _⟩ | ⟨position, rfl, _, _, _⟩ | ⟨hvar, rfl, _⟩
  · rcases hcases' with ⟨rfl, _, _⟩ | ⟨_, rfl, _, _, _⟩ | ⟨_, rfl, _⟩
    · exact absurd rfl hne
    · omega
    · omega
  · rcases hcases' with ⟨rfl, _, _⟩ | ⟨other, rfl, _, _, _⟩ | ⟨_, rfl, _⟩
    · omega
    · obtain rfl : position = other := by omega
      exact absurd rfl hne
    · omega
  · rcases hcases' with ⟨rfl, _, _⟩ | ⟨_, rfl, _, _, _⟩ | ⟨hother, rfl, _⟩
    · omega
    · omega
    · exact ⟨⟨hvar, rfl⟩, hother, rfl⟩

/-- What occurs in a method whose parameters are those of its scope has a place in the frame. -/
theorem placed_of_framed {method : Method} (framed : method.Framed) {var : Variable}
    (hvar : var ∈ method.occurrences) : Placed method var.role := by
  cases hrole : var.role with
  | receiver => exact (framed.receiver var hvar hrole).1
  | parameter position =>
    obtain ⟨hone, param, hparam, _⟩ := framed.parameter var hvar position hrole
    obtain ⟨hlt, _⟩ := List.getElem?_eq_some_iff.mp hparam
    exact ⟨hone, by omega⟩
  | declared | temporary | field | className => trivial

/-- Of two lists that correspond, each element of the second has one in the first. -/
theorem exists_of_forall₂ {α β : Type} {R : α → β → Prop} {as : List α} {bs : List β}
    (h : List.Forall₂ R as bs) {b : β} (hb : b ∈ bs) : ∃ a ∈ as, R a b := by
  induction h with
  | nil => cases hb
  | cons hfirst _ ih =>
    rcases List.mem_cons.mp hb with rfl | hrest
    · exact ⟨_, List.mem_cons_self, hfirst⟩
    · obtain ⟨a, ha, hab⟩ := ih hrest
      exact ⟨a, List.mem_cons_of_mem _ ha, hab⟩

/-- Two lists that correspond to a third one correspond to one another. -/
theorem forall₂_of_common {α β γ : Type} {R : α → β → Prop} {S : α → γ → Prop} {T : β → γ → Prop}
    {as : List α} {bs : List β} {cs : List γ} (h : List.Forall₂ R as bs) (h' : List.Forall₂ S as cs)
    (hall : ∀ a ∈ as, ∀ b c, R a b → S a c → T b c) : List.Forall₂ T bs cs := by
  induction h generalizing cs with
  | nil =>
    cases h'
    exact .nil
  | cons hfirst _ ih =>
    cases h' with
    | cons hfirst' hrest' =>
      refine .cons (hall _ List.mem_cons_self _ _ hfirst hfirst') (ih hrest' ?_)
      exact fun a ha => hall a (List.mem_cons_of_mem _ ha)

variable {bound? : Option UInt16} {method assigned : Method}

namespace Allocated

theorem formed (h : Allocated bound? method assigned) (formed : method.Formed) :
    assigned.Formed := by
  obtain ⟨map, _, _, rfl⟩ := h
  exact formed.mapVars (keeps_withSlot method map)

theorem framed (h : Allocated bound? method assigned) (framed : method.Framed) :
    assigned.Framed := by
  obtain ⟨map, _, _, rfl⟩ := h
  exact framed.mapVars (keeps_withSlot method map)

theorem ofBody_eq (h : Allocated bound? method assigned) :
    Flow.Graph.ofBody assigned.body = Flow.Graph.ofBody method.body := by
  obtain ⟨map, _, _, rfl⟩ := h
  exact Flow.ofBody_mapVars (keeps_withSlot method map) method

theorem complete (h : Allocated bound? method assigned) (complete : Stack.Complete method.body) :
    Stack.Complete assigned.body := by
  obtain ⟨map, _, _, rfl⟩ := h
  exact complete.mapVars (withSlot method map)

/-- A variable that is no field and no class name has a register. -/
theorem exists_register (h : Allocated bound? method assigned) {var : Variable}
    (hvar : var ∈ assigned.vars) (notField : var.role ≠ .field) (notClass : var.role ≠ .className) :
    ∃ slot, var.register = some slot := by
  obtain ⟨map, _, covers, rfl⟩ := h
  rw [register_of_mem_vars hvar]
  have hget (hallocatable : var.isAllocatable) : ∃ register, map.get? var.name = some register := by
    rw [assign, Method.vars_mapVars] at hvar
    obtain ⟨source, hsource, rfl⟩ := List.mem_map.mp hvar
    exact covers source hsource hallocatable
  obtain ⟨name, ty, role, register⟩ := var
  cases role with
  | receiver => exact ⟨_, rfl⟩
  | parameter position => exact ⟨_, rfl⟩
  | declared | temporary =>
    obtain ⟨register', hregister⟩ := hget rfl
    exact ⟨(assign map method).reservedSlots + register', by simp [slot?, hregister]⟩
  | field => exact absurd rfl notField
  | className => exact absurd rfl notClass

theorem exists_register_local (h : Allocated bound? method assigned) {var : Variable}
    (hvar : var ∈ assigned.vars) (hallocatable : var.isAllocatable) :
    ∃ slot, var.register = some slot := by
  apply h.exists_register hvar
  · intro hrole
    simp [Variable.isAllocatable, hrole] at hallocatable
  · intro hrole
    simp [Variable.isAllocatable, hrole] at hallocatable

end Allocated

end ClassCompiler.Registers
