import ClassCompiler.Proofs.Stack.Frame

/-!
# More operands than the stack can count

Loads that come first in a body make the stack as deep as they are many, whatever is counted. A
count of 16 bits is too small for 65,536 of them, and the assembly then provides for a stack that is
too small. With slightly fewer the call that takes them is refused although nothing is wrong with
it, if something lies below its operands. Both happen to one method, as its call passes more or
fewer arguments.
-/

namespace ClassCompiler.Stack

open Code (Labeled Method Operand)
open Lowering (lowerArgs lowerExpr)
open Registers (Allocated assign)

theorem Item.PushesOne.after {item : Item} (h : item.PushesOne) (depth : Nat) :
    item.endsBlock = false ∧ item.after depth = depth + 1 := by
  cases item with
  | label => exact h.elim
  | instr step =>
    obtain ⟨hpops, hpushes⟩ := h
    constructor
    · cases step <;> first | rfl | cases hpushes
    · rw [Item.after, hpops, hpushes, Nat.sub_zero]

/-- After loads, the stack is deeper by as many places. -/
theorem mem_of_loads {first : Item} {depth : Nat} {trace : Trace} {loads rest : List Item}
    {last : Item} (chain : List.IsChain (fun entry next : Item × Nat =>
      entry.1.endsBlock = false → next.2 = entry.1.after entry.2) ((first, depth) :: trace))
    (hitems : first :: trace.map (·.1) = loads ++ last :: rest)
    (hloads : ∀ item ∈ loads, item.PushesOne) :
    (last, depth + loads.length) ∈ (first, depth) :: trace := by
  induction loads generalizing first depth trace with
  | nil =>
    obtain ⟨rfl, _⟩ := List.cons.inj hitems
    exact List.mem_cons_self
  | cons load loads ih =>
    rw [List.forall_mem_cons] at hloads
    obtain ⟨rfl, hrest⟩ := List.cons.inj hitems
    obtain ⟨hfalls, hafter⟩ := hloads.1.after depth
    cases trace with
    | nil => cases loads <;> cases hrest
    | cons second trace =>
      obtain ⟨item, next⟩ := second
      obtain ⟨hstep, chain⟩ := List.isChain_cons_cons.mp chain
      obtain rfl : next = depth + 1 := (hstep hfalls).trans hafter
      have hmem := ih chain hrest hloads.2
      rw [List.length_cons, Nat.add_comm loads.length, ← Nat.add_assoc]
      exact List.mem_cons_of_mem _ hmem

theorem le_peak_of_loads {body : Body} {trace : Trace} (h : Disciplined body trace)
    {loads rest : List Item} {last : Item} (hitems : body.items = loads ++ last :: rest)
    (hloads : ∀ item ∈ loads, item.PushesOne) : loads.length ≤ peak (trace.map (·.2)) := by
  obtain ⟨first, others, rfl⟩ := h.consistent.first
  have hmem := mem_of_loads h.consistent.falls (h.items.trans hitems) hloads
  rw [Nat.zero_add] at hmem
  exact peak_le_iff.mp (Nat.le_refl _) _ (List.mem_map_of_mem hmem)

/-- If a body begins with a call whose result is stored into an element, then the array, the index
and all operands of the call are on the stack at once. -/
theorem le_peak_of_storeElement {cls : Code.Class} {method : Method} {optimize : Bool} {body : Body}
    (h : bodyOf cls method optimize = .ok body) {array : Code.Variable} {index : Operand}
    {elementTy ty : Code.Ty} {value : Code.Instr} {others : List Labeled}
    (hbody : method.body = ⟨[], .assign (.element array index elementTy) ty value⟩ :: others)
    (hindex : index.isSimple) (yields : value.Yields) (hinvokes : invokes value) {trace : Trace}
    (disciplined : Disciplined body trace) :
    operandCount value + 2 ≤ peak (trace.map (·.2)) := by
  obtain ⟨segs, _, hsegs, hitems, _⟩ := segments_of_bodyOf h
  rw [hbody, segments] at hsegs
  obtain ⟨seg, hseg, hsegs⟩ := Outcome.bind_eq_ok.mp hsegs
  obtain ⟨otherSegs, _, hsegs⟩ := Outcome.bind_eq_ok.mp hsegs
  obtain rfl := Outcome.pure_eq_ok.mp hsegs
  obtain ⟨items, hstatement, hseg⟩ := Outcome.bind_eq_ok.mp hseg
  obtain rfl := Outcome.pure_eq_ok.mp hseg
  obtain ⟨below, call, store, rfl, hbelow, hlength, ⟨loads, last, rfl, hloads, hcount, _⟩, _⟩ :=
    invocation_storeElement hindex yields hinvokes hstatement
  have hsplit : body.items =
      (below ++ loads) ++ .instr last :: (instrs [store] ++ otherSegs.flatten) := by
    rw [hitems]
    simp [instrs]
  have hle := le_peak_of_loads disciplined hsplit (List.forall_mem_append.mpr ⟨hbelow, hloads⟩)
  rw [List.length_append, hlength, hcount] at hle
  omega

/-- A method that stores the result of a call with `count` arguments into an element. -/
def storingDecl (count : Nat) : Source.Method :=
  ⟨"fill", false, [], .void, [.assignElement "cells" (.int 0)
    (.call .this "pick" (List.replicate count (.int 1)) (some .int))], none⟩

def storing (count : Nat) : Source.Analysis where
  program := ⟨[], "Storing", none, [], [storingDecl count]⟩
  table := Source.SymbolTable.addMethod ⟨"Storing", none, [], [], ∅⟩
    ⟨"fill", .void, [], [⟨"cells", .array .int⟩]⟩
  diagnostics := []

def storeLine (count : Nat) : Labeled :=
  ⟨[], .assign (.element (.declared "cells" (.array .int)) (.int 0) .int) .int
    (.call .virtual (.var (.receiver "Storing")) (some "pick")
      (List.replicate count (.int 1)) .int)⟩

def storingMethod (count : Nat) : Method where
  name := "fill"
  isStatic := false
  isConstructor := false
  parameters := []
  returnTy := .void
  locals := [.declared "cells" (.array .int)]
  body := [storeLine count, ⟨[], .ret .void none⟩]

def storingClass (count : Nat) : Code.Class :=
  ⟨"Storing", none, [], [], [Lowering.constructor "Storing", storingMethod count]⟩

theorem lowerArgs_replicate (count : Nat) (value : Int32) :
    lowerArgs (List.replicate count (.int value)) = pure (List.replicate count (.int value)) := by
  induction count with
  | zero => rw [List.replicate_zero, lowerArgs, List.replicate_zero]
  | succ count ih =>
    rw [List.replicate_succ, lowerArgs, lowerExpr, ih]
    rfl

def storingScope : Source.Scope := ⟨"fill", .void, [], [⟨"cells", .array .int⟩]⟩

/-- The arguments are literals and take no code of their own. -/
theorem runBody_storing (count : Nat) :
    Lowering.runBody (.ofScope (storing count).table storingScope) (storingDecl count) =
      .ok ((storingMethod count).body, []) := by
  have hcall : lowerExpr (.call .this "pick" (List.replicate count (.int 1)) (some .int))
      (some .int) (.ofScope (storing count).table storingScope) .initial =
      .ok (.call .virtual (.var (.receiver "Storing")) (some "pick")
        (List.replicate count (.int 1)) .int) .initial := by
    rw [lowerExpr, lowerArgs_replicate, lowerExpr]
    rfl
  have hstore : Lowering.lowerStmts (storingDecl count).body
      (.ofScope (storing count).table storingScope) .initial =
      .ok () { Lowering.Draft.initial with code := #[storeLine count] } := by
    refine Lowering.bind_eq_ok.mpr ⟨(), _, ?_, rfl⟩
    refine Lowering.bind_eq_ok.mpr ⟨_, _, rfl, ?_⟩
    refine Lowering.bind_eq_ok.mpr ⟨_, _, rfl, ?_⟩
    refine Lowering.bind_eq_ok.mpr ⟨_, _, rfl, ?_⟩
    exact Lowering.bind_eq_ok.mpr ⟨_, _, hcall, rfl⟩
  have hrun : (Lowering.lowerBody (storingDecl count)).run
      (.ofScope (storing count).table storingScope) .initial =
      .ok () { Lowering.Draft.initial with code := (storingMethod count).body.toArray } :=
    Lowering.bind_eq_ok.mpr ⟨(), _, hstore, rfl⟩
  rw [Lowering.runBody, hrun]
  rfl

theorem lowerProgram_storing (count : Nat) :
    Lowering.lowerProgram (storing count).table (storing count).program =
      .ok (storingClass count) := by
  have hscope : (storing count).table.method? (storingDecl count).signature = some storingScope :=
    rfl
  have hmethod : Lowering.lowerMethod (storing count).table (storingDecl count) =
      .ok (storingMethod count) := by
    rw [Lowering.lowerMethod, hscope]
    exact Outcome.bind_eq_ok.mpr ⟨_, runBody_storing count, rfl⟩
  have hmethods : [storingDecl count].mapM (Lowering.lowerMethod (storing count).table) =
      .ok [storingMethod count] := by
    rw [List.mapM_cons, hmethod]
    rfl
  exact Outcome.bind_eq_ok.mpr ⟨_, hmethods, rfl⟩

theorem lower_storing (count : Nat) :
    lower (storing count) ⟨false, none⟩ = .ok (storingClass count) := by
  have hlower : lower (storing count) ⟨false, none⟩ =
    (Lowering.lowerProgram (storing count).table (storing count).program).mapError .lowering := rfl
  rw [hlower, lowerProgram_storing]
  rfl

theorem allocate_storing (count : Nat) : ∃ code constructor method,
    ClassCompiler.allocate ⟨false, none⟩ (storingClass count) = .ok code ∧
    code.methods = [constructor, method] ∧
    Allocated none (Lowering.constructor "Storing") constructor ∧
    Allocated none (storingMethod count) method := by
  have hallocate := @allocate_natural ⟨false, none⟩ _ _ _ (lowerProgram_storing count) rfl
  have hall := Registers.allocated_of_allocateAll (Registers.allocate_eq_ok hallocate).1
  obtain ⟨hconstructor, hmethod⟩ := List.forall₂_cons.mp hall
  exact ⟨_, _, _, hallocate, rfl, hconstructor, (List.forall₂_cons.mp hmethod).1⟩

/-- Nothing is wrong with the types of the method, however many arguments the call has. -/
theorem not_misuse_storing (count : Nat) {line : Labeled}
    (hline : line ∈ (storingMethod count).body) (fault : Fault) :
    ¬ Misuse "fill" line.instr fault := by
  intro misuse
  rcases List.mem_pair.mp hline with rfl | rfl
  · cases misuse with
    | className hload hvar hrole =>
      rcases List.mem_cons.mp hload with rfl | hload
      · obtain rfl := List.mem_singleton.mp hvar
        cases hrole
      · rcases List.mem_cons.mp hload with rfl | hload
        · obtain rfl := List.mem_singleton.mp hvar
          cases hrole
        · obtain rfl := List.eq_of_mem_replicate hload
          cases hvar
    | notInvocable hinvoked notObject =>
      cases hinvoked
      exact notObject "Storing" rfl
  · cases misuse with
    | className hload => cases hload
    | notInvocable hinvoked => cases hinvoked

theorem wraps_storing (count : Nat) :
    wraps (storeLine count).instr = decide (UInt16.size ≤ (count + 1) % UInt16.size + 2) := by
  rw [storeLine, wraps, operandCount, List.length_replicate]

section

variable {count : Nat} {method : Method}

theorem storingMethod_mem (count : Nat) : storingMethod count ∈ (storingClass count).methods :=
  List.mem_cons_of_mem _ (List.mem_singleton_self _)

/-- The number of arguments alone decides whether there is a body. -/
theorem exists_bodyOf_storing_iff (h : Allocated none (storingMethod count) method)
    (cls : Code.Class) : (∃ body, bodyOf cls method false = .ok body) ↔
      (count + 1) % UInt16.size + 2 < UInt16.size := by
  rw [exists_bodyOf_iff_of_lowered (lowerProgram_storing count) (storingMethod_mem count) h]
  constructor
  · intro hnone
    by_contra hwraps
    refine hnone ⟨storeLine count, List.mem_cons_self, .inl ?_⟩
    rw [wraps_storing, decide_eq_true (Nat.not_lt.mp hwraps)]
  · rintro hfits ⟨line, hline, hwraps | ⟨fault, misuse⟩⟩
    · rcases List.mem_pair.mp hline with rfl | rfl
      · rw [wraps_storing, decide_eq_true_eq] at hwraps
        exact absurd hfits (Nat.not_lt.mpr hwraps)
      · cases hwraps
    · exact not_misuse_storing count hline fault misuse

theorem not_misuse_of_allocated (h : Allocated none (storingMethod count) method) {line : Labeled}
    (hline : line ∈ method.body) (fault : Fault) : ¬ Misuse method.name line.instr fault := by
  obtain ⟨map, _, _, rfl⟩ := h
  obtain ⟨source, hsource, rfl⟩ := List.mem_map.mp hline
  intro misuse
  have keeps := Registers.keeps_withSlot (storingMethod count) map
  obtain ⟨fault, misuse⟩ := exists_misuse_of_mapVars keeps ⟨fault, misuse⟩
  exact not_misuse_storing count hsource fault misuse

/-- If the method has no body, that is because the stack seems to hold too little. -/
theorem exists_underflow_storing (h : Allocated none (storingMethod count) method)
    (cls : Code.Class) (hwraps : UInt16.size ≤ (count + 1) % UInt16.size + 2) :
    ∃ instr, bodyOf cls method false = .error (.underflow instr) := by
  have hsource := storingMethod_mem count
  have formed := h.formed (Lowering.formed_lowerProgram (lowerProgram_storing count) hsource)
  have complete := h.complete (complete_lowerProgram (lowerProgram_storing count) hsource)
  rcases (failsOnly_bodyOf formed complete (seated_of_allocated h formed) cls false).ends with
    hbody | ⟨fault, ⟨line, hline, misuse⟩ | ⟨_, _, _, instr, rfl⟩, herror⟩
  · have hfits := (exists_bodyOf_storing_iff h cls).mp hbody
    exact absurd hwraps (Nat.not_le.mpr hfits)
  · exact absurd misuse (not_misuse_of_allocated h hline fault)
  · exact ⟨instr, herror⟩

/-- If the method has a body, its stack gets as deep as the call needs it. -/
theorem le_peak_storing (h : Allocated none (storingMethod count) method) {cls : Code.Class}
    {body : Body} (hbody : bodyOf cls method false = .ok body) {trace : Trace}
    (disciplined : Disciplined body trace) : count + 3 ≤ peak (trace.map (·.2)) := by
  obtain ⟨map, _, _, rfl⟩ := h
  have yields : (Code.Instr.call .virtual (.var (.receiver "Storing")) (some "pick")
      (List.replicate count (.int 1)) .int).Yields := by
    refine .virtual "pick" .int rfl fun arg harg => ?_
    rw [List.eq_of_mem_replicate harg]
    rfl
  have hle := le_peak_of_storeElement hbody rfl rfl (yields.mapVars _) rfl disciplined
  rw [operandCount_mapVars, operandCount, List.length_replicate] at hle
  exact hle

theorem widestCall_storing (h : Allocated none (storingMethod count) method) :
    widestCall method.body = count := by
  obtain ⟨map, _, _, rfl⟩ := h
  have hcounts : widestCall (assign map (storingMethod count)).body =
    max ((List.replicate count (Operand.int 1)).map _).length (max 0 0) := rfl
  rw [hcounts, List.length_map, List.length_replicate, Nat.max_self, Nat.max_zero]

end

/-- With 65,533 arguments the call is refused because the stack seems to hold too little, although
no line goes against the types. -/
theorem underflow_storing :
    ∃ lowered code method instr,
      Lowering.lowerProgram (storing 65533).table (storing 65533).program = .ok lowered ∧
      ClassCompiler.allocate ⟨false, none⟩ lowered = .ok code ∧ method ∈ code.methods ∧
      (∀ line ∈ method.body, ∀ fault, ¬ Misuse method.name line.instr fault) ∧
      bodyOf code method false = .error (.underflow instr) := by
  obtain ⟨code, constructor, method, hallocate, hmethods, _, hmethod⟩ := allocate_storing 65533
  obtain ⟨instr, herror⟩ := exists_underflow_storing hmethod code (by decide)
  refine ⟨_, code, method, instr, lowerProgram_storing 65533, hallocate, ?_,
    fun line hline => not_misuse_of_allocated hmethod hline, herror⟩
  rw [hmethods]
  exact List.mem_cons_of_mem _ (List.mem_singleton_self _)

/-- With 65,535 arguments the call is written, and the stack that the assembly provides for is too
small, whatever depths the items are given. -/
theorem maxStack_ne_peak_storing :
    ∃ compiled, compile (storing 65535) ⟨false, none⟩ = .ok compiled ∧
      ∃ method ∈ compiled.code.methods, method.slotCount < UInt16.size ∧
        widestCall method.body < UInt16.size ∧
        ∃ body, bodyOf compiled.code method false = .ok body ∧
          ∀ trace, Disciplined body trace → body.maxStack.toNat ≠ peak (trace.map (·.2)) := by
  obtain ⟨code, constructor, method, hallocate, hmethods, hconstructor, hmethod⟩ :=
    allocate_storing 65535
  obtain ⟨body, hbody⟩ := (exists_bodyOf_storing_iff hmethod code).mpr (by decide)
  obtain ⟨compiled, hcompiled, rfl⟩ := exists_compile (lower_storing 65535) hallocate (by
    rw [hmethods]
    refine List.forall_mem_cons.mpr ⟨?_, List.forall_mem_singleton.mpr ⟨body, hbody⟩⟩
    exact exists_bodyOf_constructor (lowerProgram_storing 65535) List.mem_cons_self hconstructor ..)
  refine ⟨compiled, hcompiled, method, ?_, ?_, ?_, body, hbody, ?_⟩
  · rw [hmethods]
    exact List.mem_cons_of_mem _ (List.mem_singleton_self _)
  · rw [hmethod.slotCount_eq]
    decide
  · rw [widestCall_storing hmethod]
    decide
  · intro trace disciplined heq
    have hle := le_peak_storing hmethod hbody disciplined
    have hlt := body.maxStack.toNat_lt
    omega

end ClassCompiler.Stack
