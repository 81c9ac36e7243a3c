import ClassCompiler.Proofs.Code.Form
import ClassCompiler.Proofs.Flow.Graph
import ClassCompiler.Proofs.Machine.Reading
import ClassCompiler.Proofs.NameMap
import ClassCompiler.Proofs.Registers.Coloring

/-!
# Assigning registers by coloring preserves execution

A method is executed with its variables kept by name, and once more with registers assigned and its
variables kept in slots. Both executions go through the same instructions with the same effects.
What carries the induction is that the two stores agree on the receiver, on the parameters and on
every variable that is live; dead variables may have been overwritten in their slot.
-/

namespace ClassCompiler.Registers

open Code (Config Executor Instr Key Labeled Method NamedStore Request Role SlotStore Variable named
  place? put slotted)
open Machine (Effect Session Value World)

/-- A role that a variable can have in a method: the parameters are counted from 1, and there is a
receiver only in methods that are not static. -/
def Placed (method : Method) : Role → Prop
  | .parameter position => 1 ≤ position.toNat ∧ position.toNat ≤ method.parameters.length
  | .receiver => method.isStatic = false
  | _ => True

instance (method : Method) : ∀ role, Decidable (Placed method role)
  | .parameter position =>
    inferInstanceAs (Decidable (1 ≤ position.toNat ∧ position.toNat ≤ method.parameters.length))
  | .receiver => inferInstanceAs (Decidable (method.isStatic = false))
  | .declared | .temporary | .field | .className => .isTrue trivial

/-- No register of the map lies behind the last slot that 16 bits can number. -/
def Roomy (method : Method) (map : RegisterMap) : Prop :=
  ∀ entry ∈ map.entries, method.reservedCount + entry.2.toNat < UInt16.size

theorem Roomy.lt {method : Method} {map : RegisterMap} (roomy : Roomy method map) {name : String}
    {register : UInt16} (h : map.get? name = some register) :
    method.reservedCount + register.toNat < UInt16.size :=
  roomy _ (NameMap.get?_eq_some_iff.mp h)

/-- The slots of parameters come before those of locals, as long as there is room. -/
theorem parameterSlot_ne {method : Method} {position register : UInt16}
    (fits : method.reservedCount + register.toNat < UInt16.size) (hone : 1 ≤ position.toNat)
    (hle : position.toNat ≤ method.parameters.length) :
    method.receiverSlots + position - 1 ≠ method.reservedSlots + register := by
  rw [← UInt16.toNat_inj.ne, Method.toNat_parameterSlot method hone,
    Method.toNat_reservedSlots_add fits, Method.reservedCount]
  omega

theorem receiverSlot_ne {method : Method} {register : UInt16} (hstatic : method.isStatic = false)
    (fits : method.reservedCount + register.toNat < UInt16.size) :
    method.reservedSlots + register ≠ 0 := by
  rw [← UInt16.toNat_inj.ne, Method.toNat_reservedSlots_add fits, Method.reservedCount,
    Method.receiverCount, hstatic, UInt16.toNat_zero]
  simp

def withSlot (method : Method) (map : RegisterMap) (var : Variable) : Variable :=
  { var with register := slot? method map var }

/-- A store by name and a store by slot agree on the receiver, the parameters and what is live. -/
structure Agree (method : Method) (map : RegisterMap) (live : NameSet) (store : NamedStore)
    (slots : SlotStore) : Prop where
  receiver : method.isStatic = false → store .receiver = slots 0
  parameter : ∀ position : UInt16, 1 ≤ position.toNat →
    position.toNat ≤ method.parameters.length →
    store (.parameter position.toNat) = slots (method.receiverSlots + position - 1)
  live : ∀ name ∈ live, ∃ register, map.get? name = some register ∧
    store (.local name) = slots (method.reservedSlots + register)

section

variable {method : Method} {map : RegisterMap} {store : NamedStore} {slots : SlotStore}
  {live live' : NameSet} {S : Type} (fits : Code.Ty → Value → Bool)
  (perform : Request → Effect S Value)

theorem Agree.mono (h : Agree method map live store slots) (hsub : ∀ name ∈ live', name ∈ live) :
    Agree method map live' store slots :=
  ⟨h.receiver, h.parameter, fun name hname => h.live name (hsub name hname)⟩

theorem mirror_withSlot :
    Code.Mirror (withSlot method map) (named fits perform) (slotted fits perform) :=
  ⟨rfl, rfl, fun _ => rfl, fun _ => rfl, fun _ => rfl⟩

/-- Stores that agree on a variable yield the same value for it. -/
theorem Agree.get_eq (h : Agree method map live store slots) {var : Variable}
    (placed : Placed method var.role) (hlive : var.isAllocatable → var.name ∈ live) :
    (named fits perform).get store var =
      (slotted fits perform).get slots (withSlot method map var) := by
  obtain ⟨name, ty, role, register⟩ := var
  cases role with
  | declared | temporary =>
    obtain ⟨register', hregister, heq⟩ := h.live name (hlive rfl)
    simp [named, slotted, Variable.key?, Variable.slot?, withSlot, slot?, hregister, heq]
  | parameter position =>
    have heq := h.parameter position placed.1 placed.2
    simp [named, slotted, Variable.key?, Variable.slot?, withSlot, slot?, heq]
  | receiver =>
    have heq := h.receiver placed
    simp [named, slotted, Variable.key?, Variable.slot?, withSlot, slot?, heq]
  | field | className => rfl

/-- Storing a local or temporary keeps agreement on what is live afterwards, if its register is not
that of another variable that is live afterwards. -/
theorem Agree.put_local (h : Agree method map live store slots) (roomy : Roomy method map)
    {name : String} {register : UInt16} (hregister : map.get? name = some register) (value : Value)
    (hrest : ∀ other ∈ live', other ≠ name →
      other ∈ live ∧ map.get? other ≠ some register) :
    Agree method map live' (put store (.local name) value)
      (put slots (method.reservedSlots + register) value) := by
  have room := roomy.lt hregister
  constructor
  · intro hstatic
    rw [Code.put_of_ne _ _ (by simp), Code.put_of_ne _ _ (receiverSlot_ne hstatic room).symm]
    exact h.receiver hstatic
  · intro position hone hle
    rw [Code.put_of_ne _ _ (by simp), Code.put_of_ne _ _ (parameterSlot_ne room hone hle)]
    exact h.parameter position hone hle
  · intro other hother
    by_cases heq : other = name
    · exact ⟨register, heq ▸ hregister, by rw [heq, Code.put_self, Code.put_self]⟩
    · obtain ⟨hlive, hdiffer⟩ := hrest other hother heq
      obtain ⟨register', hregister', hvalue⟩ := h.live other hlive
      have hne : method.reservedSlots + register' ≠ method.reservedSlots + register := by
        intro hslot
        obtain rfl := UInt16.add_right_inj _ |>.mp hslot
        exact hdiffer hregister'
      refine ⟨register', hregister', ?_⟩
      rw [Code.put_of_ne _ _ (by simpa using heq), Code.put_of_ne _ _ hne]
      exact hvalue

/-- Storing a parameter keeps agreement: its slot is its own. -/
theorem Agree.put_parameter (h : Agree method map live store slots) (roomy : Roomy method map)
    {position : UInt16} (hone : 1 ≤ position.toNat)
    (hle : position.toNat ≤ method.parameters.length) (value : Value) :
    Agree method map live (put store (.parameter position.toNat) value)
      (put slots (method.receiverSlots + position - 1) value) := by
  constructor
  · intro hstatic
    have hne : 0 ≠ method.receiverSlots + position - 1 := by
      rw [← UInt16.toNat_inj.ne, Method.toNat_parameterSlot method hone, Method.receiverCount,
        hstatic, UInt16.toNat_zero]
      simp
      omega
    rw [Code.put_of_ne _ _ (by simp), Code.put_of_ne _ _ hne]
    exact h.receiver hstatic
  · intro other hone' hle'
    by_cases heq : other = position
    · rw [heq, Code.put_self, Code.put_self]
    · have hkey : Key.parameter other.toNat ≠ .parameter position.toNat := by
        simpa [UInt16.toNat_inj] using heq
      have hne : method.receiverSlots + other - 1 ≠ method.receiverSlots + position - 1 := by
        intro hslot
        exact heq (UInt16.add_right_inj _ |>.mp (UInt16.sub_left_inj _ |>.mp hslot))
      rw [Code.put_of_ne _ _ hkey, Code.put_of_ne _ _ hne]
      exact h.parameter other hone' hle'
  · intro name hname
    obtain ⟨register, hregister, hvalue⟩ := h.live name hname
    have hne := parameterSlot_ne (roomy.lt hregister) hone hle
    refine ⟨register, hregister, ?_⟩
    rw [Code.put_of_ne _ _ (by simp), Code.put_of_ne _ _ hne.symm]
    exact hvalue

/-- The slot of the receiver is no slot of a parameter or a local. -/
theorem Agree.put_receiver (h : Agree method map live store slots) (roomy : Roomy method map)
    (hstatic : method.isStatic = false) (value : Value) :
    Agree method map live (put store .receiver value) (put slots 0 value) := by
  constructor
  · intro _
    rw [Code.put_self, Code.put_self]
  · intro position hone hle
    have hne : method.receiverSlots + position - 1 ≠ 0 := by
      rw [← UInt16.toNat_inj.ne, Method.toNat_parameterSlot method hone, Method.receiverCount,
        hstatic, UInt16.toNat_zero]
      simp
      omega
    rw [Code.put_of_ne _ _ (by simp), Code.put_of_ne _ _ hne]
    exact h.parameter position hone hle
  · intro name hname
    obtain ⟨register, hregister, hvalue⟩ := h.live name hname
    have hne := receiverSlot_ne hstatic (roomy.lt hregister)
    refine ⟨register, hregister, ?_⟩
    rw [Code.put_of_ne _ _ (by simp), Code.put_of_ne _ _ hne]
    exact hvalue

/-- Storing into a variable: both stores can or neither can, and they agree afterwards. -/
theorem Agree.set_rel (h : Agree method map live store slots) (roomy : Roomy method map)
    {var : Variable} (value : Value) (placed : Placed method var.role)
    (hlocal : var.isAllocatable → ∃ register, map.get? var.name = some register ∧
      ∀ other ∈ live', other ≠ var.name → other ∈ live ∧ map.get? other ≠ some register)
    (hother : var.isAllocatable = false → ∀ other ∈ live', other ∈ live) :
    Option.Rel (Agree method map live') ((named fits perform).set store var value)
      ((slotted fits perform).set slots (withSlot method map var) value) := by
  obtain ⟨name, ty, role, register⟩ := var
  cases role with
  | declared | temporary =>
    obtain ⟨register', hregister, hrest⟩ := hlocal rfl
    simp only [named, slotted, Variable.key?, Variable.slot?, withSlot, slot?, hregister,
      Option.map_some]
    exact .some (h.put_local roomy hregister value hrest)
  | parameter position =>
    exact .some ((h.mono (hother rfl)).put_parameter roomy placed.1 placed.2 value)
  | receiver => exact .some ((h.mono (hother rfl)).put_receiver roomy placed value)
  | field | className => exact .none

end

theorem mem_allocatableNames {vars : List Variable} {name : String} :
    name ∈ Flow.allocatableNames vars ↔
      ∃ var ∈ vars, var.isAllocatable = true ∧ var.name = name := by
  simp [Flow.allocatableNames, and_assoc]

section

variable {method : Method} {map : RegisterMap} {flow : Flow.Graph} {S : Type}
  (fits : Code.Ty → Value → Bool) (perform : Request → Effect S Value)

variable {index : Nat} {line : Labeled} {store : NamedStore} {slots : SlotStore}

/-- What an instruction reads is live before it. -/
theorem live_of_read (hflow : Flow.Graph.ofBody method.body = .ok flow)
    (hline : method.body[index]? = some line) {var : Variable}
    (hvar : var ∈ line.instr.readOperands.flatMap (·.vars)) (hallocatable : var.isAllocatable) :
    var.name ∈ flow.liveness.liveBefore index := by
  refine Flow.Liveness.mem_liveBefore.mpr (.inl ?_)
  rw [(Flow.point_of_line hflow hline).2.1]
  exact mem_allocatableNames.mpr ⟨var, hvar, hallocatable, rfl⟩

/-- Where no variable is stored into, what is live after an instruction is live before it: an array
whose element is stored is read as well. -/
theorem live_of_unstored (hflow : Flow.Graph.ofBody method.body = .ok flow)
    (hline : method.body[index]? = some line)
    (unstored : ∀ var ty value, line.instr ≠ .assign (.var var) ty value) {name : String}
    (hafter : name ∈ flow.liveness.liveAfter index) : name ∈ flow.liveness.liveBefore index := by
  by_cases hdef : name ∈ flow.defs index
  · rw [(Flow.point_of_line hflow hline).2.2] at hdef
    obtain ⟨var, hvar, hallocatable, rfl⟩ := mem_allocatableNames.mp hdef
    refine live_of_read hflow hline ?_ hallocatable
    cases hinstr : line.instr with
    | assign dest ty value =>
      cases dest with
      | var dest => exact absurd hinstr (unstored dest ty value)
      | element array place elementTy =>
        have heq : var = array := by simpa [hinstr, Instr.written?] using hvar
        simp [Instr.readOperands, Code.Operand.vars, heq]
      | literal => simp [hinstr, Instr.written?] at hvar
    | _ => simp [hinstr, Instr.written?] at hvar
  · exact Flow.Liveness.mem_liveBefore.mpr (.inr ⟨hafter, hdef⟩)

theorem defs_of_stored (hflow : Flow.Graph.ofBody method.body = .ok flow)
    (hline : method.body[index]? = some line) {dest : Variable} {ty : Code.Ty} {value : Instr}
    (hinstr : line.instr = .assign (.var dest) ty value) {name : String} :
    name ∈ flow.defs index ↔ dest.isAllocatable ∧ dest.name = name := by
  rw [(Flow.point_of_line hflow hline).2.2, hinstr]
  simp [Flow.defsOf, Instr.written?, mem_allocatableNames]

/-- Where a variable is stored into, all others that are live afterwards are live before. -/
theorem live_of_stored (hflow : Flow.Graph.ofBody method.body = .ok flow)
    (hline : method.body[index]? = some line) {dest : Variable} {ty : Code.Ty} {value : Instr}
    (hinstr : line.instr = .assign (.var dest) ty value) {name : String}
    (hafter : name ∈ flow.liveness.liveAfter index)
    (hother : dest.isAllocatable → dest.name ≠ name) : name ∈ flow.liveness.liveBefore index := by
  refine Flow.Liveness.mem_liveBefore.mpr (.inr ⟨hafter, ?_⟩)
  rw [defs_of_stored hflow hline hinstr]
  exact fun h => hother h.1 h.2

/-- One instruction, on stores that agree on what is live before it: the effects are the same, and
the stores then agree on what is live after it. -/
theorem exec_matched (hflow : Flow.Graph.ofBody method.body = .ok flow)
    (separates : Separates flow map) (roomy : Roomy method map)
    (hline : method.body[index]? = some line)
    (placed : ∀ var ∈ line.instr.vars, Placed method var.role)
    (agree : Agree method map (flow.liveness.liveBefore index) store slots) (state : S) :
    Effect.Matched (Code.Control.Alike (Agree method map (flow.liveness.liveAfter index)))
      ((named fits perform).exec store line.instr state)
      ((slotted fits perform).exec slots (line.instr.mapVars (withSlot method map)) state) := by
  refine (mirror_withSlot fits perform).exec_matched ?_ ?_ ?_ state
  · intro var hvar
    refine agree.get_eq fits perform (placed var ?_) (live_of_read hflow hline hvar)
    obtain ⟨operand, hoperand, hmem⟩ := List.mem_flatMap.mp hvar
    exact List.mem_flatMap.mpr ⟨operand, line.instr.readOperands_subset hoperand, hmem⟩
  · intro unstored
    exact agree.mono fun name hafter => live_of_unstored hflow hline unstored hafter
  · intro dest ty value hinstr result
    refine agree.set_rel fits perform roomy result (placed dest ?_) ?_ ?_
    · simp [hinstr, Instr.vars, Instr.operands, Code.Operand.vars]
    · intro hallocatable
      have hdef : dest.name ∈ flow.defs index :=
        (defs_of_stored hflow hline hinstr).mpr ⟨hallocatable, rfl⟩
      obtain ⟨register, hregister⟩ := separates.assigned (Flow.Liveness.defs_mentioned hdef)
      refine ⟨register, hregister, fun other hafter hne => ⟨?_, ?_⟩⟩
      · exact live_of_stored hflow hline hinstr hafter fun _ => hne.symm
      · rw [← hregister]
        exact separates.differ (Flow.lt_size_of_line hflow hline) ⟨hne, .inr (.inr ⟨hdef, hafter⟩)⟩
    · intro hnot other hafter
      refine live_of_stored hflow hline hinstr hafter fun hallocatable => ?_
      rw [hnot] at hallocatable
      cases hallocatable

theorem place?_assign (label : String) :
    place? (assign map method).body label = place? method.body label := by
  simp only [assign, Method.mapVars, place?, List.findIdx?_map]
  rfl

theorem assign_body_getElem? (index : Nat) :
    (assign map method).body[index]? = method.body[index]?.map fun line =>
      { line with instr := line.instr.mapVars (withSlot method map) } := by
  simp only [assign, Method.mapVars, List.getElem?_map]
  rfl

abbrev AlikeAt (method : Method) (map : RegisterMap) (flow : Flow.Graph) :
    Config NamedStore S → Config SlotStore S → Prop :=
  Config.Alike fun index => Agree method map (flow.liveness.liveBefore index)

theorem defs_of_target (hflow : Flow.Graph.ofBody method.body = .ok flow)
    (hline : method.body[index]? = some line) {label : String}
    (target : line.instr.target? = some label) : flow.defs index = ∅ := by
  rw [(Flow.point_of_line hflow hline).2.2]
  cases hinstr : line.instr with
  | branch | goto => rfl
  | _ => rw [hinstr] at target; cases target

/-- Going on from an instruction keeps the agreement: what is live where execution goes on is live
after the instruction. -/
theorem proceed_alike (hflow : Flow.Graph.ofBody method.body = .ok flow)
    (hline : method.body[index]? = some line)
    (agree : Agree method map (flow.liveness.liveBefore index) store slots)
    {control : Code.Control NamedStore} {control' : Code.Control SlotStore} (state : S)
    (follows : control.Follows line.instr)
    (alike : Code.Control.Alike (Agree method map (flow.liveness.liveAfter index))
      control control') :
    AlikeAt method map flow (Executor.proceed method.body index store state control)
      (Executor.proceed (assign map method).body index slots state control') := by
  cases alike with
  | next agree' =>
    refine .running (agree'.mono fun name hname => ?_) state
    have hlt : index + 1 < method.body.length := by
      refine Nat.lt_of_not_le fun hout => ?_
      rw [(Flow.Liveness.solve_spec flow).1.liveBefore_outside
        ((Flow.size_eq hflow).symm ▸ hout)] at hname
      exact NameSet.not_mem_empty name hname
    exact Flow.Liveness.mem_liveAfter.mpr
      ⟨index + 1, Flow.succ_mem_next hflow hline follows hlt, hname⟩
  | jump label =>
    simp only [Executor.proceed, place?_assign]
    split
    · next target htarget =>
      refine .running (agree.mono fun name hname =>
        Flow.Liveness.mem_liveBefore.mpr (.inr ⟨?_, ?_⟩))
        state
      · exact Flow.Liveness.mem_liveAfter.mpr
          ⟨target, Flow.target_mem_next hflow hline follows htarget, hname⟩
      · rw [defs_of_target hflow hline follows]
        exact NameSet.not_mem_empty name
    · exact .stopped state
  | leave value => exact .returned value state

/-- One step keeps both machines alike: what it reads is live and agrees, and what it stores does
not touch the slot of another variable that is live. -/
theorem step_alike (hflow : Flow.Graph.ofBody method.body = .ok flow)
    (separates : Separates flow map) (roomy : Roomy method map)
    (placed : ∀ line ∈ method.body, ∀ var ∈ line.instr.vars, Placed method var.role)
    {config : Config NamedStore S} {config' : Config SlotStore S}
    (alike : AlikeAt method map flow config config') :
    AlikeAt method map flow ((named fits perform).step method.body config)
      ((slotted fits perform).step (assign map method).body config') := by
  cases alike with
  | @running index store slots agree state =>
    simp only [Executor.step, assign_body_getElem?]
    cases hline : method.body[index]? with
    | none => exact .stopped state
    | some line =>
      -- an instruction reads nothing that is not live before it, and spares what is live after it
      have matched := exec_matched fits perform hflow separates roomy hline
        (placed line (List.mem_of_getElem? hline)) agree state
      simp only [Option.map_some]
      cases hexec : (named fits perform).exec store line.instr state with
      | ok control state' =>
        rw [hexec] at matched
        generalize (slotted fits perform).exec slots _ state = result at matched ⊢
        cases matched with
        | ok alike =>
          exact proceed_alike hflow hline agree state' (Executor.follows_of_exec hexec) alike
      | error stop state' =>
        rw [hexec] at matched
        generalize (slotted fits perform).exec slots _ state = result at matched ⊢
        cases matched with
        | error => exact .stopped state'
  | returned value state => exact .returned value state
  | stopped state => exact .stopped state

theorem run_alike (hflow : Flow.Graph.ofBody method.body = .ok flow)
    (separates : Separates flow map) (roomy : Roomy method map)
    (placed : ∀ line ∈ method.body, ∀ var ∈ line.instr.vars, Placed method var.role) (steps : Nat)
    {config : Config NamedStore S} {config' : Config SlotStore S}
    (alike : AlikeAt method map flow config config') :
    AlikeAt method map flow ((named fits perform).run method.body steps config)
      ((slotted fits perform).run (assign map method).body steps config') := by
  induction steps generalizing config config' with
  | zero => exact alike
  | succ steps ih => exact ih (step_alike fits perform hflow separates roomy placed alike)

end

/-- A method whose registers were found by coloring executes as it does with its variables kept by
name. From stores that agree on the receiver, the parameters and what is live at the start, both
executions are, after any number of steps, at the same instruction with the same effects and
answers so far and agree on what is live there; or they have returned the same value; or both have
stopped. The slots of parameters and locals must not run out of 16 bits: those that do share slots
with the parameters. -/
theorem run_alike_of_coloredMap {σ : Type} (fits : Code.Ty → Value → Bool)
    (world : World Request σ) {method : Method} {bound : UInt16} {map : RegisterMap}
    (colored : coloredMap method bound = .ok map) (roomy : Roomy method map)
    (placed : ∀ line ∈ method.body, ∀ var ∈ line.instr.vars, Placed method var.role) :
    ∃ flow, Flow.Graph.ofBody method.body = .ok flow ∧
      ∀ (store : NamedStore) (slots : SlotStore) (session : Session Request σ),
        Agree method map (flow.liveness.liveBefore 0) store slots →
        ∀ steps, Config.Alike (fun index => Agree method map (flow.liveness.liveBefore index))
          ((named fits world.ask).run method.body steps (.running 0 store session))
          ((slotted fits world.ask).run (assign map method).body steps
            (.running 0 slots session)) := by
  obtain ⟨flow, hflow, separates⟩ := coloredMap_spec colored
  refine ⟨flow, hflow, fun store slots session agree steps => ?_⟩
  exact run_alike fits world.ask hflow separates roomy placed steps (.running agree session)

/-- Stores with the same value everywhere agree. -/
theorem Separates.agree_const {flow : Flow.Graph} {map : RegisterMap}
    (separates : Separates flow map) (method : Method) (value : Value) :
    Agree method map (flow.liveness.liveBefore 0) (fun _ => value) (fun _ => value) := by
  refine ⟨fun _ => rfl, fun _ _ _ => rfl, fun name hname => ?_⟩
  obtain ⟨register, hregister⟩ :=
    separates.assigned ((Flow.Liveness.solve_spec flow).1.before_mentioned hname)
  exact ⟨register, hregister, rfl⟩

/-- A loop whose temporary has done its work when `y` is written, so that two registers are enough
for three variables. -/
def scaled : Method where
  name := "scaled"
  isStatic := true
  isConstructor := false
  parameters := [.parameter "n" .int 1]
  returnTy := .int
  locals := [.declared "x" .int, .declared "y" .int, .temporary "t" .int]
  body := [
    ⟨[], .assign (.var (.declared "x" .int)) .int (.load (.var (.parameter "n" .int 1)))⟩,
    ⟨["again"], .assign (.var (.temporary "t" .int)) .int
      (.binary .add (.var (.declared "x" .int)) (.int 1))⟩,
    ⟨[], .assign (.var (.declared "y" .int)) .int
      (.binary .mul (.var (.temporary "t" .int)) (.var (.declared "x" .int)))⟩,
    ⟨[], .branch (.binary .lt (.var (.declared "y" .int)) (.int 10)) "again"⟩,
    ⟨[], .ret .int (some (.var (.declared "y" .int)))⟩]

/-- Three variables in two registers: `t` and `y` share one. -/
theorem run_alike_scaled :
    ∃ map flow, coloredMap scaled 2 = .ok map ∧ Roomy scaled map ∧
      Flow.Graph.ofBody scaled.body = .ok flow ∧ map.get? "t" = map.get? "y" ∧
      Agree scaled map (flow.liveness.liveBefore 0) (fun _ => .int 3) (fun _ => .int 3) ∧
      ∀ steps, Config.Alike (fun index => Agree scaled map (flow.liveness.liveBefore index))
        ((named (fun _ _ => true) (World.ask fun _ _ => none)).run scaled.body steps
          (.running 0 (fun _ => .int 3) (⟨(), []⟩ : Session Request Unit)))
        ((slotted (fun _ _ => true) (World.ask fun _ _ => none)).run (assign map scaled).body steps
          (.running 0 (fun _ => .int 3) ⟨(), []⟩)) := by
  have colored : coloredMap scaled 2 = .ok (.ofList [("x", 1), ("t", 0), ("y", 0)]) := by
    decide +kernel
  have roomy : Roomy scaled (.ofList [("x", 1), ("t", 0), ("y", 0)]) := by
    unfold Roomy
    decide
  obtain ⟨flow, hflow, alike⟩ := run_alike_of_coloredMap (fun _ _ => true)
    (fun _ _ => none : World Request Unit) colored roomy (by decide)
  obtain ⟨flow', hflow', separates⟩ := coloredMap_spec colored
  obtain rfl : flow = flow' := Except.ok.inj (hflow.symm.trans hflow')
  have agree := separates.agree_const scaled (.int 3)
  exact ⟨_, flow, colored, roomy, hflow, by decide, agree, alike _ _ _ agree⟩

/-- A static method with more parameters than 16 bits can number the slots of, so that its local is
in the slot of the first of them. -/
def crammed : Method where
  name := "crammed"
  isStatic := true
  isConstructor := false
  parameters := List.replicate UInt16.size (.parameter "n" .int 1)
  returnTy := .int
  locals := [.declared "x" .int]
  body := [
    ⟨[], .assign (.var (.declared "x" .int)) .int (.load (.int 5))⟩,
    ⟨[], .ret .int (some (.var (.parameter "n" .int 1)))⟩]

theorem length_parameters_crammed : crammed.parameters.length = UInt16.size :=
  List.length_replicate

theorem coloredMap_crammed : coloredMap crammed 1 = .ok (.ofList [("x", 0)]) := by
  decide +kernel

theorem placed_crammed :
    ∀ line ∈ crammed.body, ∀ var ∈ line.instr.vars, Placed crammed var.role := by
  have hroles : ∀ line ∈ crammed.body, ∀ var ∈ line.instr.vars,
      var.role = .declared ∨ var.role = .parameter 1 := by decide
  have hcount : (1 : UInt16).toNat ≤ crammed.parameters.length :=
    length_parameters_crammed ▸ Nat.le_of_lt (UInt16.toNat_lt 1)
  intro line hline var hvar
  rcases hroles line hline var hvar with hrole | hrole
  · rw [hrole]
    trivial
  · rw [hrole]
    exact ⟨Nat.le_refl 1, hcount⟩

/-- No slot is reserved, as far as 16 bits tell. -/
theorem reservedSlots_crammed : crammed.reservedSlots = 0 := by
  rw [Method.reservedSlots, length_parameters_crammed]
  rfl

theorem body_assign_crammed : (assign (.ofList [("x", 0)]) crammed).body = [
    ⟨[], .assign (.var ⟨"x", .int, .declared, some 0⟩) .int (.load (.int 5))⟩,
    ⟨[], .ret .int (some (.var ⟨"n", .int, .parameter 1, some 0⟩))⟩] := by
  have hget : NameMap.get? (.ofList [("x", (0 : UInt16))]) "x" = some 0 := by decide
  have hassign : (assign (.ofList [("x", 0)]) crammed).body = [
    ⟨[], .assign (.var ⟨"x", .int, .declared,
      (NameMap.get? (.ofList [("x", (0 : UInt16))]) "x").map (crammed.reservedSlots + ·)⟩) .int
      (.load (.int 5))⟩,
    ⟨[], .ret .int (some (.var ⟨"n", .int, .parameter 1, some 0⟩))⟩] := rfl
  rw [hassign, hget, reservedSlots_crammed]
  rfl

/-- Kept by name, the variables are apart and the method returns its first parameter. With registers
it returns its local, although the stores agree at the start. -/
theorem run_differs_crammed :
    ∃ map flow, coloredMap crammed 1 = .ok map ∧ Flow.Graph.ofBody crammed.body = .ok flow ∧
      (∀ line ∈ crammed.body, ∀ var ∈ line.instr.vars, Placed crammed var.role) ∧
      Agree crammed map (flow.liveness.liveBefore 0) (fun _ => .int 3) (fun _ => .int 3) ∧
      (∃ store, (named (fun _ _ => true) (World.ask fun _ _ => none)).run crammed.body 2
        (.running 0 (fun _ => .int 3) (⟨(), []⟩ : Session Request Unit)) =
          .returned (some (.int 3)) store ⟨(), []⟩) ∧
      ∃ slots, (slotted (fun _ _ => true) (World.ask fun _ _ => none)).run
        (assign map crammed).body 2
        (.running 0 (fun _ => .int 3) (⟨(), []⟩ : Session Request Unit)) =
          .returned (some (.int 5)) slots ⟨(), []⟩ := by
  obtain ⟨flow, hflow, separates⟩ := coloredMap_spec coloredMap_crammed
  refine ⟨_, flow, coloredMap_crammed, hflow, placed_crammed, separates.agree_const crammed _,
    ⟨_, rfl⟩, ?_⟩
  rw [body_assign_crammed]
  exact ⟨_, rfl⟩

end ClassCompiler.Registers
