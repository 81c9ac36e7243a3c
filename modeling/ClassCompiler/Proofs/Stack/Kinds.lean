import ClassCompiler.Proofs.Stack.Frame
import ClassCompiler.Proofs.Stack.Walks

/-!
# Slots are read as they were written

Locals and temporaries of different kinds may share a slot. Along any path of control the receiver,
the parameters and every variable that is live still have their own kind in their slots: what is
stored goes to a slot that no other such variable has. As all that an instruction reads is live
before it, a slot is read as it was last written, or as the call left it if it was not written.
-/

namespace ClassCompiler.Stack

open Code (Key Labeled Method Operand Variable)
open Registers (Allocated)

/-- How a slot was last written on a path: whether with an integer. -/
def lastWrite? (trail : List Item) (slot : UInt16) : Option Bool :=
  trail.findSome? fun item => item.write?.bind fun (written, integer) =>
    if written = slot then some integer else none

/-- What a call leaves in a slot: a parameter, or the receiver. -/
def Starts (method : Method) (slot : UInt16) (integer : Bool) : Prop :=
  (∃ param ∈ method.parameters, param.register = some slot ∧ param.ty.isInteger = integer) ∨
    method.isStatic = false ∧ slot = 0 ∧ integer = false

/-- The kind of what is in a slot at the end of a path. -/
def Holds (method : Method) (trail : List Item) (slot : UInt16) (integer : Bool) : Prop :=
  lastWrite? trail slot = some integer ∨
    lastWrite? trail slot = none ∧ Starts method slot integer

section

variable {method : Method} {trail : List Item} {item : Item} {slot written : UInt16}
  {integer kind : Bool}

theorem lastWrite?_of_write?_eq_none (h : item.write? = none) :
    lastWrite? (item :: trail) slot = lastWrite? trail slot := by
  simp [lastWrite?, h]

theorem lastWrite?_self (h : item.write? = some (slot, integer)) :
    lastWrite? (item :: trail) slot = some integer := by
  simp [lastWrite?, h]

theorem lastWrite?_of_ne (h : item.write? = some (written, kind)) (hne : written ≠ slot) :
    lastWrite? (item :: trail) slot = lastWrite? trail slot := by
  simp [lastWrite?, h, hne]

theorem Holds.of_write?_eq_none (h : Holds method trail slot integer) (hitem : item.write? = none) :
    Holds method (item :: trail) slot integer := by
  rw [Holds, lastWrite?_of_write?_eq_none hitem]
  exact h

theorem Holds.of_ne (h : Holds method trail slot integer)
    (hitem : item.write? = some (written, kind)) (hne : written ≠ slot) :
    Holds method (item :: trail) slot integer := by
  rw [Holds, lastWrite?_of_ne hitem hne]
  exact h

end

/-- A variable that has to be in its slot: the receiver, a parameter, or what is live. -/
def Carried (live : NameSet) : Key → Prop
  | .local name => name ∈ live
  | .parameter _ | .receiver => True

/-- What registers give to a method. -/
structure Kept (method : Method) (flow : Flow.Graph) : Prop where
  graph : Flow.Graph.ofBody method.body = .ok flow
  keyed : ∀ var ∈ method.occurrences, ∀ slot, var.register = some slot →
    ∃ key, var.key? = some key
  alike : ∀ var ∈ method.occurrences, ∀ other ∈ method.occurrences, ∀ key,
    var.key? = some key → other.key? = some key →
      var.register = other.register ∧ var.ty = other.ty
  /-- A variable is stored to a slot that no other one has which is carried on. -/
  apart : ∀ (index : Nat) (line : Labeled), method.body[index]? = some line →
    ∀ dest ty value, line.instr = .assign (.var dest) ty value →
      ∀ var ∈ method.occurrences, ∀ key key', dest.key? = some key → var.key? = some key' →
        Carried (flow.liveness.liveAfter index) key' →
          ∀ slot, dest.register = some slot → var.register = some slot → key = key'
  starts : ∀ var ∈ method.occurrences, ∀ key, var.key? = some key → (∀ name, key ≠ .local name) →
    ∀ slot, var.register = some slot → Starts method slot var.ty.isInteger

/-- Every variable that has to be in its slot is there with its kind. -/
def Intact (method : Method) (live : NameSet) (trail : List Item) : Prop :=
  ∀ var ∈ method.occurrences, ∀ key, var.key? = some key → Carried live key →
    ∀ slot, var.register = some slot → Holds method trail slot var.ty.isInteger

theorem Carried.mono {live live' : NameSet} (hsub : ∀ name ∈ live, name ∈ live') {key : Key}
    (h : Carried live key) : Carried live' key := by
  cases key with
  | «local» name => exact hsub name h
  | parameter | receiver => trivial

theorem Intact.mono {method : Method} {live live' : NameSet} {trail : List Item}
    (h : Intact method live' trail) (hsub : ∀ name ∈ live, name ∈ live') :
    Intact method live trail :=
  fun var hvar key hkey carried => h var hvar key hkey (carried.mono hsub)

section

variable {method : Method} {flow : Flow.Graph} {index : Nat} {line : Labeled} {trail : List Item}
  {item : Item} {items : List Item}

theorem Intact.of_write?_eq_none {live : NameSet} (h : Intact method live trail)
    (hitem : item.write? = none) : Intact method live (item :: trail) :=
  fun var hvar key hkey carried slot hslot =>
    (h var hvar key hkey carried slot hslot).of_write?_eq_none hitem

namespace Kept

/-- An instruction leaves every variable in its slot that is carried on. -/
theorem intact_after (kept : Kept method flow) (hline : method.body[index]? = some line)
    (accesses : Accesses line.instr items) (hlast : items.getLast? = some item)
    (h : Intact method (flow.liveness.liveBefore index) trail) :
    Intact method (flow.liveness.liveAfter index) (item :: trail) := by
  rcases accesses.write?_getLast? hlast with
    ⟨hwrite, unstored⟩ | ⟨dest, ty, value, slot, hinstr, hslot, hwrite⟩
  · refine Intact.of_write?_eq_none (h.mono fun name hafter => ?_) hwrite
    exact Registers.live_of_unstored kept.graph hline unstored hafter
  · intro var hvar key hkey carried slot' hslot'
    have hdest := Method.mem_occurrences_of_stored hline hinstr
    obtain ⟨destKey, hdestKey⟩ := kept.keyed dest hdest slot hslot
    by_cases hslots : slot = slot'
    · subst hslots
      have hsame := kept.apart index line hline dest ty value hinstr var hvar destKey key hdestKey
        hkey carried slot hslot hslot'
      have hty := (kept.alike dest hdest var hvar key (hsame ▸ hdestKey) hkey).2
      exact .inl (hty ▸ lastWrite?_self hwrite)
    · refine (h var hvar key hkey ?_ slot' hslot').of_ne hwrite hslots
      -- the variable stored into is not this one, which has another slot
      cases key with
      | «local» name =>
        refine Registers.live_of_stored kept.graph hline hinstr carried ?_
        intro hallocatable hname
        have hlocal := Variable.key?_eq_local_iff.mpr ⟨hallocatable, hname⟩
        have hregister := (kept.alike dest hdest var hvar _ hlocal hkey).1
        rw [hslot, hslot'] at hregister
        exact hslots (Option.some.inj hregister)
      | parameter | receiver => trivial

/-- What an item reads is a variable that is in its slot before the instruction. -/
theorem exists_of_read? (kept : Kept method flow) (hline : method.body[index]? = some line)
    (accesses : Accesses line.instr items) (hitem : item ∈ items) {slot : UInt16} {integer : Bool}
    (hread : item.read? = some (slot, integer)) :
    ∃ var ∈ method.occurrences, ∃ key, var.key? = some key ∧
      Carried (flow.liveness.liveBefore index) key ∧ var.register = some slot ∧
      var.ty.isInteger = integer := by
  obtain ⟨var, hvar, hslot, same, hsame, hkeys, hinteger⟩ := accesses.exists_of_read? hitem hread
  have hmem := List.mem_of_getElem? hline
  have hoccurs := Method.mem_occurrences hmem (Code.Instr.mem_vars_of_loads hvar)
  obtain ⟨key, hkey⟩ := kept.keyed var hoccurs slot hslot
  refine ⟨var, hoccurs, key, hkey, ?_, hslot, ?_⟩
  · cases key with
    | «local» name =>
      obtain ⟨hallocatable, rfl⟩ := Variable.key?_eq_local_iff.mp hkey
      obtain ⟨operand, hoperand, hvar⟩ := List.mem_flatMap.mp hvar
      refine Registers.live_of_read kept.graph hline ?_ hallocatable
      exact List.mem_flatMap.mpr ⟨operand, line.instr.loads_subset_readOperands hoperand, hvar⟩
    | parameter | receiver => trivial
  · have hty := (kept.alike var hoccurs same (Method.mem_occurrences hmem hsame) key hkey
      (hkeys.trans hkey)).2
    rw [hty, hinteger]

/-- At the start of a method in which nothing is live, only the receiver and the parameters have to
be in their slots, and that is where a call leaves them. -/
theorem intact_start (kept : Kept method flow) : Intact method ∅ [] := by
  intro var hvar key hkey carried slot hslot
  refine .inr ⟨rfl, kept.starts var hvar key hkey ?_ slot hslot⟩
  rintro name rfl
  exact NameSet.not_mem_empty name carried

/-- Along every path of control, the variables that have to be in their slots are there. -/
theorem intact_of_walk (kept : Kept method flow) {cls : Code.Class} {optimize : Bool}
    {segs : List (List Item)} (hsegs : segments cls method.name optimize 1 method.body = .ok segs)
    (labeled : WellLabeled method.body) (hempty : flow.liveness.liveBefore 0 = ∅) {place : Nat}
    (walk : Walk segs.flatten trail place) (hitem : segs.flatten[place]? = some item) :
    ∃ index, AtLine segs index place item ∧
      Intact method (flow.liveness.liveBefore index) trail := by
  induction walk generalizing item with
  | start =>
    have hfirst : segs.flatten[start segs 0]? = some item := hitem
    refine ⟨0, (atLine_start hsegs hfirst).2, ?_⟩
    rw [hempty]
    exact kept.intact_start
  | @step trail place next last _ hlast leads ih =>
    obtain ⟨index, hat, intact⟩ := ih hlast
    rcases leads_cases hsegs labeled kept.graph hat leads hitem with
      ⟨hwrite, hinside⟩ | ⟨hend, index', hnext, houtside⟩
    · exact ⟨index, hinside, intact.of_write?_eq_none hwrite⟩
    · obtain ⟨line, number, items, hline, hitems, hgetLast⟩ := getLast?_of_atLine hsegs hat hend
      have hafter := kept.intact_after hline (accesses_statementItems hitems) hgetLast intact
      refine ⟨index', houtside, hafter.mono fun name hname => ?_⟩
      exact Flow.Liveness.mem_liveAfter.mpr ⟨index', hnext, hname⟩

end Kept

end

/-- A call leaves the receiver and the parameters in the slots that they are read from. -/
theorem starts_of_arranged {method : Method} (arranged : Arranged method) (framed : method.Framed)
    {var : Variable} (hvar : var ∈ method.occurrences) {key : Key} (hkey : var.key? = some key)
    (hfixed : ∀ name, key ≠ .local name) {slot : UInt16} (hslot : var.register = some slot) :
    Starts method slot var.ty.isInteger := by
  cases hrole : var.role with
  | receiver =>
    obtain ⟨hinstance, hzero⟩ := arranged.receiver var hvar hrole
    rw [hslot] at hzero
    exact .inr ⟨hinstance, Option.some.inj hzero, (framed.receiver var hvar hrole).2⟩
  | parameter position =>
    obtain ⟨_, param, hparam, hregister⟩ := arranged.parameter var hvar position hrole
    obtain ⟨_, param', hparam', hty⟩ := framed.parameter var hvar position hrole
    obtain rfl : param = param' := Option.some.inj (hparam.symm.trans hparam')
    exact .inl ⟨param, List.mem_of_getElem? hparam, hregister.symm.trans hslot, by rw [hty]⟩
  | declared | temporary =>
    have hlocal : var.key? = some (.local var.name) :=
      Variable.key?_eq_local_iff.mpr ⟨by simp [Variable.isAllocatable, hrole], rfl⟩
    exact absurd (Option.some.inj (hkey.symm.trans hlocal)) (hfixed var.name)
  | field | className =>
    rw [Variable.key?, hrole] at hkey
    cases hkey

/-- Registers keep variables apart: a slot that is stored to is that of no other variable which is
still needed, whether a parameter or live. -/
theorem kept_of_allocated {bound? : Option UInt16} {source method : Method} {flow : Flow.Graph}
    (h : Allocated bound? source method) (formed : source.Formed) (framed : method.Framed)
    (fits : method.slotCount < UInt16.size) (hflow : Flow.Graph.ofBody method.body = .ok flow) :
    Kept method flow := by
  have arranged := arranged_of_allocated h formed framed fits
  rw [h.slotCount_eq] at fits
  have hdiffer := @Allocated.register_ne_of_clash source bound? method h fits flow hflow
  obtain ⟨map, hmap, _, rfl⟩ := h
  have roomy : Registers.Roomy (Registers.assign map source) map := by
    intro entry hentry
    rw [Registers.reservedCount_assign]
    exact Registers.roomy_of_registerMap formed fits hmap entry hentry
  have hregister {var : Variable} (hvar : var ∈ (Registers.assign map source).occurrences) :
      var.register = var.key?.bind (Registers.keySlot? (Registers.assign map source) map) := by
    rw [← Registers.slot?_eq_keySlot?]
    exact Registers.register_of_mem_vars (List.mem_append_right _ hvar)
  constructor
  · exact hflow
  · intro var hvar slot hslot
    rw [hregister hvar] at hslot
    obtain ⟨key, hkey, _⟩ := Option.bind_eq_some_iff.mp hslot
    exact ⟨key, hkey⟩
  · intro var hvar other hother key hkey hkey'
    refine ⟨?_, framed.typed var hvar other hother key hkey hkey'⟩
    rw [hregister hvar, hregister hother, hkey, hkey']
  · intro index line hline dest ty value hinstr var hvar key key' hkey hkey' carried slot hslot
      hslot'
    have hdest := Method.mem_occurrences_of_stored hline hinstr
    have hsame : dest.register = var.register := hslot.trans hslot'.symm
    rw [hregister hdest, hkey] at hslot
    rw [hregister hvar, hkey'] at hslot'
    by_contra hne
    obtain ⟨⟨hallocatable, rfl⟩, hallocatable', rfl⟩ := Registers.isAllocatable_of_keySlot? roomy
      (Registers.placed_of_framed framed hdest) (Registers.placed_of_framed framed hvar) hkey hkey'
      hslot hslot' hne
    have hdef : dest.name ∈ flow.defs index :=
      (Registers.defs_of_stored hflow hline hinstr).mpr ⟨hallocatable, rfl⟩
    have hnames : dest.name ≠ var.name := fun hname => hne (by rw [hname])
    exact hdiffer (Flow.lt_size_of_line hflow hline) (List.mem_append_right _ hdest)
      (List.mem_append_right _ hvar) hallocatable hallocatable'
      ⟨hnames, .inr (.inl ⟨hdef, carried⟩)⟩ hsame
  · intro var hvar key hkey hfixed slot hslot
    exact starts_of_arranged arranged framed hvar hkey hfixed hslot

/-- Slots of compiled methods are read as they were written. A method has a flow graph and a body.
If nothing is live where it starts, then on every path of control through the body, before an item
that reads a slot as an integer or as a reference, the slot was last written in that way, or it was
not written and has a parameter of that kind, or the receiver, which is a reference. This takes
methods whose slots 16 bits can number. -/
theorem kinds_of_compile {analysis : Source.Analysis} {settings : Settings} {compiled : Compiled}
    (h : compile analysis settings = .ok compiled)
    (declares : Source.Declares analysis.table analysis.program) :
    ∀ method ∈ compiled.code.methods, ∃ flow body,
      Flow.Graph.ofBody method.body = .ok flow ∧
      bodyOf compiled.code method settings.optimize = .ok body ∧
      (method.slotCount < UInt16.size → flow.liveness.liveBefore 0 = ∅ →
        ∀ trail place item, Walk body.items trail place → body.items[place]? = some item →
          ∀ slot integer, item.read? = some (slot, integer) →
            Holds method trail slot integer) := by
  obtain ⟨lowered, bodies, hlower, hallocate, hbodies, _⟩ := compile_eq_ok h
  obtain ⟨hlowered, _⟩ := lower_eq_ok hlower
  intro method hmethod
  obtain ⟨source, hsource, hallocated, _, complete⟩ := exists_source hlowered hallocate hmethod
  obtain ⟨flow, hflow⟩ := Registers.exists_flow complete
  obtain ⟨body, hbody⟩ := Outcome.exists_of_mapM hbodies hmethod
  refine ⟨flow, body, hflow, hbody, ?_⟩
  intro fits hempty trail place item walk hitem slot integer hread
  have framed := hallocated.framed (Lowering.framed_lowerProgram hlowered declares hsource
    (Method.parameters_lt_of_slotCount (hallocated.slotCount_eq ▸ fits)))
  have formed := Lowering.formed_lowerProgram hlowered hsource
  have kept := kept_of_allocated hallocated formed framed fits hflow
  obtain ⟨segs, _, hsegs, hitems, _⟩ := segments_of_bodyOf hbody
  rw [hitems] at walk hitem
  obtain ⟨index, hat, intact⟩ := kept.intact_of_walk hsegs complete.labeled hempty walk hitem
  obtain ⟨line, number, items, hline, hstatement, hmem⟩ := mem_of_atLine hsegs hat (by
    rintro label rfl
    cases hread)
  obtain ⟨var, hvar, key, hkey, carried, hslot, rfl⟩ :=
    kept.exists_of_read? hline (accesses_statementItems hstatement) hmem hread
  exact intact var hvar key hkey carried slot hslot

/-- A method with an array and an integer that can share a register. -/
def pooling : Source.Program :=
  ⟨[], "Pooling", none, [], [
    ⟨"count", false, [⟨"cells", .array .int⟩], .int,
      [.assign "rest" (.name "cells"), .assign "n" (.length (.name "rest")),
        .while (.binary .lt (.name "n") (.int 9))
          (.assign "n" (.binary .add (.name "n") (.int 1)))],
      some (.name "n")⟩]⟩

def poolingAnalysis : Source.Analysis where
  program := pooling
  table := Source.SymbolTable.addMethod ⟨"Pooling", none, [], [], ∅⟩
    ⟨"count", .int, [⟨"cells", .array .int⟩], [⟨"rest", .array .int⟩, ⟨"n", .int⟩]⟩
  diagnostics := []

def poolingItems : List Item := [
  .instr (.aload 1), .instr (.astore 2), .instr (.aload 2), .instr .arraylength, .instr (.istore 2),
  .label "loop1", .instr (.iload 2), .instr (.iconst 9), .instr (.ifIcmplt "body1"),
  .instr (.goto "endloop1"), .label "body1", .instr (.iinc 2 1), .instr (.goto "loop1"),
  .label "endloop1", .instr (.iload 2), .instr .ireturn]

/-- Once around the loop and out of it. -/
def poolingTrail : List Item := [
  .label "endloop1", .instr (.goto "endloop1"), .instr (.ifIcmplt "body1"), .instr (.iconst 9),
  .instr (.iload 2), .label "loop1", .instr (.goto "loop1"), .instr (.iinc 2 1), .label "body1",
  .instr (.ifIcmplt "body1"), .instr (.iconst 9), .instr (.iload 2), .label "loop1",
  .instr (.istore 2), .instr .arraylength, .instr (.aload 2), .instr (.astore 2), .instr (.aload 1)]

/-- Slot 2 is read as a reference, and later, in and behind the loop, as an integer. -/
theorem kinds_pooling :
    ∃ compiled method flow body, compile poolingAnalysis ⟨true, some 1⟩ = .ok compiled ∧
      method ∈ compiled.code.methods ∧ Flow.Graph.ofBody method.body = .ok flow ∧
      method.slotCount < UInt16.size ∧ flow.liveness.liveBefore 0 = ∅ ∧
      bodyOf compiled.code method true = .ok body ∧ body.items = poolingItems ∧
      Holds method [] 1 false ∧ Holds method [.instr (.astore 2), .instr (.aload 1)] 2 false ∧
      Holds method poolingTrail 2 true := by
  have hsurvey : (compile poolingAnalysis ⟨true, some 1⟩).toOption.map (fun compiled =>
      compiled.code.methods[1]?.map fun method =>
        ((Flow.Graph.ofBody method.body).toOption.map (·.liveness.liveBefore 0),
          (bodyOf compiled.code method true).toOption.map (·.items), method.slotCount)) =
      some (some (some ∅, some poolingItems, 4)) := by
    decide +kernel
  obtain ⟨compiled, hcompiled, hmethods⟩ := Outcome.exists_of_toOption hsurvey
  obtain ⟨method, hmethod, hboth⟩ := Option.map_eq_some_iff.mp hmethods
  obtain ⟨hlive, hrest⟩ := Prod.mk.inj hboth
  obtain ⟨hitems, hcount⟩ := Prod.mk.inj hrest
  have fits : method.slotCount < UInt16.size := by
    rw [hcount]
    decide
  have hmem := List.mem_of_getElem? hmethod
  obtain ⟨flow, body, hflow, hbody, hreads⟩ :=
    kinds_of_compile hcompiled ⟨by decide +kernel, by decide +kernel⟩ method hmem
  rw [hflow] at hlive
  rw [hbody] at hitems
  have hempty : flow.liveness.liveBefore 0 = ∅ := Option.some.inj hlive
  have hbodyItems : body.items = poolingItems := Option.some.inj hitems
  have hreads := hreads fits hempty
  rw [hbodyItems] at hreads
  have stored : Walk poolingItems [.instr (.astore 2), .instr (.aload 1)] 2 :=
    (Walk.start.pass rfl rfl).pass rfl rfl
  have entered := ((stored.pass rfl rfl).pass rfl rfl).pass rfl rfl
  have tested := ((entered.pass rfl rfl).pass rfl rfl).pass rfl rfl
  have again := ((tested.jump rfl rfl rfl : Walk poolingItems _ 10).pass rfl rfl).pass rfl rfl
  have repeated : Walk poolingItems _ 5 := again.jump rfl rfl rfl
  have left := ((repeated.pass rfl rfl).pass rfl rfl).pass rfl rfl
  have ended : Walk poolingItems _ 13 := (left.pass rfl rfl).jump rfl rfl rfl
  exact ⟨compiled, method, flow, body, hcompiled, hmem, hflow, fits, hempty, hbody, hbodyItems,
    hreads _ _ _ .start rfl _ _ rfl, hreads _ _ _ stored rfl _ _ rfl,
    hreads poolingTrail _ _ (ended.pass rfl rfl) rfl _ _ rfl⟩

/-- The array is stored to the slot of the integer, which is then read as an integer. -/
theorem kinds_mixed_crowding :
    Source.Declares (crowding 65534).table (crowding 65534).program ∧
    ∃ compiled method flow body, compile (crowding 65534) ⟨false, none⟩ = .ok compiled ∧
      method ∈ compiled.code.methods ∧ Flow.Graph.ofBody method.body = .ok flow ∧
      flow.liveness.liveBefore 0 = ∅ ∧ bodyOf compiled.code method false = .ok body ∧
      ∃ trail place item, Walk body.items trail place ∧ body.items[place]? = some item ∧
        item.read? = some (0, true) ∧ ¬ Holds method trail 0 true := by
  obtain ⟨compiled, hcompiled, hcode⟩ := compile_crowding
  have hlive : (Flow.Graph.ofBody (crowdedBody (some 0))).toOption.map (·.liveness.liveBefore 0) =
      some ∅ := by decide +kernel
  obtain ⟨flow, hflow, hempty⟩ := Outcome.exists_of_toOption hlive
  have walk : Walk crowdedItems [.instr (.astore 0), .instr .newIntArray, .instr (.iconst 1),
      .instr (.istore 0), .instr (.iconst 1)] 5 :=
    ((((Walk.start.pass rfl rfl).pass rfl rfl).pass rfl rfl).pass rfl rfl).pass rfl rfl
  have hwrite : lastWrite? [.instr (.astore 0), .instr .newIntArray, .instr (.iconst 1),
      .instr (.istore 0), .instr (.iconst 1)] 0 = some false := by decide
  refine ⟨declares_crowding _, compiled, crowdedAssigned, flow, ⟨crowdedItems, 1⟩, hcompiled, ?_,
    ?_, hempty, ?_, _, _, _, walk, rfl, rfl, ?_⟩
  · rw [hcode]
    exact List.mem_cons_of_mem _ (List.mem_singleton_self _)
  · rw [body_crowdedAssigned]
    exact hflow
  · rw [hcode]
    exact bodyOf_crowdedAssigned
  · rintro (hlast | ⟨hlast, _⟩)
    · cases hwrite.symm.trans hlast
    · cases hwrite.symm.trans hlast

end ClassCompiler.Stack
