import ClassCompiler.Proofs.Flow.Paths
import ClassCompiler.Proofs.Lowering.Blocks
import ClassCompiler.Proofs.Registers.Allocation
import ClassCompiler.Proofs.Registers.Preservation

/-!
# Temporaries of lowered code

A temporary belongs to the block that takes it. It is assigned once there, and what mentions it
comes later in the block, so no label and no jump is on the way from the assignment. Whoever enters
a block at its label therefore finds no temporary in use: none is live at a label, nor at the
beginning of a method.
-/

namespace ClassCompiler.Lowering

open Code (Instr Labeled Variable)

/-- No line after one line, up to a later one, carries a label, so none of them is jumped to. -/
structure Unentered (lines : List Labeled) (start stop : Nat) : Prop where
  lt : start < stop
  unlabeled : ∀ index line, start < index → index ≤ stop → lines[index]? = some line →
    line.labels = []

/-- From one line to a later one there is no other way in or out: besides, no line in between can
jump or return. -/
structure Unbroken (lines : List Labeled) (start stop : Nat) : Prop
    extends Unentered lines start stop where
  straight : ∀ index line, start < index → index < stop → lines[index]? = some line →
    line.instr.isControl = false

/-- One line assigns the variable, and not from itself. Every other line that mentions it assigns
something else, if anything, and follows that line unbroken. -/
def AssignedOnce (lines : List Labeled) (var : Variable) : Prop :=
  ∃ start labels ty value, lines[start]? = some ⟨labels, .assign (.var var) ty value⟩ ∧
    var ∉ value.vars ∧
    ∀ index line, lines[index]? = some line → index ≠ start → var ∈ line.instr.vars →
      line.instr.dest? ≠ some var ∧ Unbroken lines start index

/-- A stretch of unlabeled lines after the assignment of a variable has all that mentions it. Only
its last line may jump. -/
def Confined (lines : List Labeled) (var : Variable) : Prop :=
  ∃ before labels ty value stretch after,
    lines = before ++ ⟨labels, .assign (.var var) ty value⟩ :: (stretch ++ after) ∧
    (∀ line ∈ before ++ after, var ∉ line.instr.vars) ∧ var ∉ value.vars ∧
    (∀ line ∈ stretch, line.labels = [] ∧ line.instr.dest? ≠ some var) ∧
    ∀ line ∈ stretch.dropLast, line.instr.isControl = false

namespace Confined

variable {lines before after : List Labeled} {var : Variable}

/-- A variable that is mentioned nowhere else stays confined in longer code. -/
theorem frame (h : Confined lines var)
    (houtside : ∀ line ∈ before ++ after, var ∉ line.instr.vars) :
    Confined (before ++ lines ++ after) var := by
  obtain ⟨first, labels, ty, value, stretch, last, rfl, hother, hvalue, hstretch, hstraight⟩ := h
  refine ⟨before ++ first, labels, ty, value, stretch, last ++ after, by simp, ?_, hvalue, hstretch,
    hstraight⟩
  simp only [List.mem_append] at houtside hother ⊢
  rintro line ((hline | hline) | (hline | hline))
  · exact houtside line (.inl hline)
  · exact hother line (.inl hline)
  · exact hother line (.inr hline)
  · exact houtside line (.inr hline)

/-- In a stretch without labels control comes from the line before, hence from the assignment. -/
theorem assignedOnce (h : Confined lines var) : AssignedOnce lines var := by
  obtain ⟨before, labels, ty, value, stretch, after, hlines, houtside, hvalue, hstretch,
    hstraight⟩ := h
  have hstart : lines[before.length]? = some ⟨labels, .assign (.var var) ty value⟩ := by
    simp [hlines]
  -- the lines after the assignment, counted from there
  have hget (offset : Nat) : lines[before.length + 1 + offset]? = (stretch ++ after)[offset]? := by
    rw [hlines, List.getElem?_append_right (by omega),
      show before.length + 1 + offset - before.length = offset + 1 by omega,
      List.getElem?_cons_succ]
  refine ⟨before.length, labels, ty, value, hstart, hvalue, ?_⟩
  intro index line hline hne hvar
  have hlater : before.length < index := by
    refine Nat.lt_of_not_le fun hle => ?_
    rw [hlines, List.getElem?_append_left (by omega)] at hline
    exact houtside line (List.mem_append_left _ (List.mem_of_getElem? hline)) hvar
  obtain ⟨offset, rfl⟩ := Nat.exists_eq_add_of_le hlater
  rw [hget] at hline
  have hinside : offset < stretch.length := by
    refine Nat.lt_of_not_le fun hle => ?_
    rw [List.getElem?_append_right hle] at hline
    exact houtside line (List.mem_append_right _ (List.mem_of_getElem? hline)) hvar
  have hbetween {index : Nat} {line : Labeled} (hlt : before.length < index)
      (hle : index ≤ before.length + 1 + offset) (h : lines[index]? = some line) :
      stretch[index - (before.length + 1)]? = some line := by
    obtain ⟨position, rfl⟩ := Nat.exists_eq_add_of_le hlt
    rw [hget, List.getElem?_append_left (by omega)] at h
    rw [← h]
    congr 1
    omega
  rw [List.getElem?_append_left hinside] at hline
  refine ⟨(hstretch line (List.mem_of_getElem? hline)).2, ⟨hlater, ?_⟩, ?_⟩
  · intro index line hlt hle h
    exact (hstretch line (List.mem_of_getElem? (hbetween hlt hle h))).1
  · intro index line hlt hstop h
    have hmem := hbetween hlt (Nat.le_of_lt hstop) h
    refine hstraight line (List.mem_of_getElem? (i := index - (before.length + 1)) ?_)
    rw [List.getElem?_dropLast, if_pos (by omega)]
    exact hmem

end Confined

section

variable {temporaries : List Variable} {temporary : Variable} {instrs : List Instr}

/-- A temporary of straight-line code is assigned once and not used before. -/
theorem Straight.exists_assign (h : Straight temporaries instrs) (distinct : temporaries.Nodup)
    (hmem : temporary ∈ temporaries) :
    ∃ before ty value after, instrs = before ++ .assign (.var temporary) ty value :: after ∧
      (∀ instr ∈ before, temporary ∉ instr.vars) ∧ temporary ∉ value.vars ∧
      ∀ instr ∈ after, instr.dest? ≠ some temporary := by
  induction h with
  | nil => cases hmem
  | @assign temporaries instrs value straight last hrole ty hvalue ih =>
    obtain ⟨hearlier, _, hdisjoint⟩ := List.nodup_append.mp distinct
    have hnew : last ∉ temporaries := fun hlast => hdisjoint last hlast last (by simp) rfl
    rcases List.mem_append.mp hmem with hmem | hlast
    · obtain ⟨before, ty', value', after, rfl, hbefore, hvalue', hafter⟩ := ih hearlier hmem
      refine ⟨before, ty', value', after ++ [.assign (.var last) ty value], by simp, hbefore,
        hvalue', ?_⟩
      have hne : last ≠ temporary := fun heq => hnew (heq ▸ hmem)
      simpa [or_imp, forall_and, Instr.dest?, hne] using hafter
    · -- nothing before it can have taken a temporary that is new
      obtain rfl := List.mem_singleton.mp hlast
      refine ⟨instrs, ty, value, [], rfl, ?_, ?_, List.forall_mem_nil _⟩
      · intro instr hinstr hvar
        exact hnew (straight.own instr hinstr _ hvar hrole)
      · intro hvar
        exact hnew (hvalue _ hvar hrole)
  | @construct temporaries instrs object straight hobject ih =>
    obtain ⟨before, ty, value, after, rfl, hbefore, hvalue, hafter⟩ := ih distinct hmem
    refine ⟨before, ty, value, after ++ [.construct (.var object)], by simp, hbefore, hvalue, ?_⟩
    simpa [or_imp, forall_and, Instr.construct, Instr.dest?] using hafter

/-- The lines of a block that mention a temporary are a stretch without labels. -/
theorem Block.confined (block : Block) (distinct : block.temporaries.Nodup)
    (hmem : temporary ∈ block.temporaries) : Confined block.lines temporary := by
  obtain ⟨before, ty, value, after, hbody, hbefore, hvalue, hafter⟩ :=
    block.straight.exists_assign distinct hmem
  have hlines : block.lines = labeled block.labels before ++
      ⟨if before.isEmpty then block.labels else [], .assign (.var temporary) ty value⟩ ::
        ((after ++ [block.last]).map (⟨[], ·⟩) ++ []) := by
    rw [Block.lines, Block.instrs, hbody, List.append_assoc, labeled_append, List.cons_append,
      List.append_nil]
    rfl
  refine ⟨_, _, ty, value, _, [], hlines, ?_, hvalue, ?_, ?_⟩
  · intro line hline
    exact hbefore _ (mem_of_mem_labeled (by simpa using hline))
  · refine List.forall_mem_map.mpr fun instr hinstr => ⟨rfl, ?_⟩
    rcases List.mem_append.mp hinstr with hinstr | hlast
    · exact hafter instr hinstr
    · rw [List.mem_singleton.mp hlast]
      intro hdest
      exact block.keeps temporary hdest (block.straight.role temporary hmem)
  · rw [List.map_append, List.map_singleton, List.dropLast_concat]
    refine List.forall_mem_map.mpr fun instr hinstr => ?_
    refine block.straight.isControl_eq_false instr ?_
    rw [hbody]
    exact List.mem_append_right _ (List.mem_cons_of_mem _ hinstr)

/-- The temporaries of one block do not occur in the others. -/
theorem confined_of_blocks {blocks : List Block}
    (distinct : (blocks.flatMap (·.temporaries)).Nodup)
    (hmem : temporary ∈ blocks.flatMap (·.temporaries)) :
    Confined (blocks.flatMap (·.lines)) temporary := by
  obtain ⟨block, hblock, htaken⟩ := List.mem_flatMap.mp hmem
  obtain ⟨before, after, rfl⟩ := List.append_of_mem hblock
  simp only [List.flatMap_append, List.flatMap_cons] at distinct ⊢
  obtain ⟨_, hrest, hbefore⟩ := List.nodup_append.mp distinct
  obtain ⟨hown, _, hafter⟩ := List.nodup_append.mp hrest
  have hother {others : List Block} (hnot : temporary ∉ others.flatMap (·.temporaries)) :
      ∀ line ∈ others.flatMap (·.lines), temporary ∉ line.instr.vars := by
    intro line hline hvar
    obtain ⟨other, hmem, hline⟩ := List.mem_flatMap.mp hline
    have htaken := other.own_of_mem_lines hline temporary hvar (block.straight.role _ htaken)
    exact hnot (List.mem_flatMap.mpr ⟨other, hmem, htaken⟩)
  have hnotBefore : temporary ∉ before.flatMap (·.temporaries) := fun h =>
    hbefore temporary h temporary (List.mem_append_left _ htaken) rfl
  have hnotAfter : temporary ∉ after.flatMap (·.temporaries) := fun h =>
    hafter temporary htaken temporary h rfl
  rw [← List.append_assoc]
  refine (block.confined hown htaken).frame (List.forall_mem_append.mpr ⟨?_, ?_⟩)
  · exact hother hnotBefore
  · exact hother hnotAfter

end

theorem mem_vars_of_read {instr : Instr} {var : Variable}
    (h : var ∈ instr.readOperands.flatMap (·.vars)) : var ∈ instr.vars := by
  obtain ⟨operand, hoperand, hvar⟩ := List.mem_flatMap.mp h
  exact List.mem_flatMap.mpr ⟨operand, instr.readOperands_subset hoperand, hvar⟩

section

variable {method : Code.Method} {flow : Flow.Graph} {var : Variable} {index : Nat}
  (hflow : Flow.Graph.ofBody method.body = .ok flow)
  (named : ∀ other ∈ method.occurrences, other.isAllocatable → other.name = var.name →
    other = var)

include hflow

theorem exists_line (h : index < flow.size) : ∃ line, method.body[index]? = some line := by
  rw [Flow.size_eq hflow] at h
  exact ⟨_, List.getElem?_eq_getElem h⟩

include named

/-- Where the flow graph reads a variable by its name, the variable itself is read. -/
theorem mem_read_of_uses {line : Labeled} (hline : method.body[index]? = some line)
    (h : var.name ∈ flow.uses index) : var ∈ line.instr.readOperands.flatMap (·.vars) := by
  rw [(Flow.point_of_line hflow hline).2.1] at h
  obtain ⟨other, hother, hallocatable, hname⟩ := Registers.mem_allocatableNames.mp h
  have hoccurs := Code.Method.mem_occurrences (List.mem_of_getElem? hline) (mem_vars_of_read hother)
  rw [← named other hoccurs hallocatable hname]
  exact hother

/-- A variable that is assigned once is live only where one comes from its assignment. -/
theorem AssignedOnce.exists_unentered (h : AssignedOnce method.body var)
    (hallocatable : var.isAllocatable) (hlive : var.name ∈ flow.liveness.liveBefore index) :
    ∃ start, Unentered method.body start index := by
  obtain ⟨start, labels, ty, value, hstart, hvalue, hothers⟩ := h
  refine ⟨start, ?_⟩
  -- back from where it is read, along the graph
  refine (Flow.Liveness.mem_liveBefore_iff_readAhead.mp hlive).rec_back
    (P := Unentered method.body start) ?_ ?_
  · intro index huse
    obtain ⟨line, hline⟩ := exists_line hflow (Flow.Liveness.lt_size_of_mem_uses huse)
    have hread := mem_read_of_uses hflow named hline huse
    have hne : index ≠ start := by
      rintro rfl
      obtain rfl := Option.some.inj (hstart.symm.trans hline)
      exact hvalue (mem_vars_of_read hread)
    exact (hothers index line hline hne (mem_vars_of_read hread)).2.toUnentered
  · intro index next hnext hdef unentered
    obtain ⟨line, hline⟩ := exists_line hflow (Flow.Liveness.lt_size_of_mem_next hnext)
    have hlt := unentered.lt
    have hsucc : next = index + 1 := by
      rcases Flow.eq_succ_or_labeled hflow hline hnext with ⟨hsucc, _⟩ |
        ⟨target, htarget, hlabels⟩
      · exact hsucc
      · exact absurd (unentered.unlabeled next target hlt (Nat.le_refl _) htarget) hlabels
    -- the assignment itself would hide what comes before it
    have hne : index ≠ start := by
      rintro rfl
      exact hdef ((Registers.defs_of_stored hflow hstart rfl).mpr ⟨hallocatable, rfl⟩)
    refine ⟨by omega, fun between line hafter hupto => ?_⟩
    exact unentered.unlabeled between line hafter (by omega)

end

section

variable {table : Source.SymbolTable} {source : Source.Method} {code : Code.Method}

/-- What a variable of a lowered method is called tells whether it is a temporary. -/
theorem named_lowerMethod (h : lowerMethod table source = .ok code) :
    ∃ scope, table.method? source.signature = some scope ∧
      (code.temporaries.map (·.name)).Nodup ∧
      (∀ temporary ∈ code.temporaries,
        temporary.name ∉ declaredNames (.ofScope table scope)) ∧
      ∀ var ∈ code.occurrences, (var.role = .temporary → var ∈ code.temporaries) ∧
        (var.isAllocatable → ∀ temporary ∈ code.temporaries, var.name = temporary.name →
          var = temporary) := by
  obtain ⟨scope, draft, hscope, apart, hlocals, hwritable⟩ :=
    writable_lowerMethod True h fun _ _ _ _ _ => trivial
  have htemporaries : code.temporaries = draft.temporaries.toList := by
    refine temporaries_eq hlocals fun var hvar => ?_
    obtain ⟨number, _, ty, rfl, _⟩ := apart.numbered var hvar
    rfl
  have hundeclared : ∀ temporary ∈ draft.temporaries.toList,
      (Context.ofScope table scope).isDeclared temporary.name = false := by
    intro temporary hmem
    obtain ⟨number, _, ty, rfl, hdeclared⟩ := apart.numbered temporary hmem
    exact hdeclared
  rw [htemporaries]
  refine ⟨scope, hscope, apart.distinct, ?_, ?_⟩
  · intro temporary hmem hdeclared
    have htaken := isDeclared_of_mem hdeclared
    rw [hundeclared temporary hmem] at htaken
    cases htaken
  · intro var hvar
    obtain ⟨line, hline, hmem⟩ := List.mem_flatMap.mp hvar
    cases (hwritable line hline).known var hmem with
    | receiver | className => exact ⟨nofun, nofun⟩
    | stored hstored =>
      cases hstored with
      | temporary htaken =>
        exact ⟨fun _ => htaken, fun _ temporary htemporary hname =>
          List.inj_on_of_nodup_map apart.distinct htaken htemporary hname⟩
      | slot hplace =>
        rcases slot_of_place? hplace with ⟨symbol, hlocal, rfl⟩ | ⟨position, symbol, _, rfl⟩
        · refine ⟨nofun, fun _ temporary htemporary hname => ?_⟩
          have hnone := local?_of_not_isDeclared (hundeclared temporary htemporary)
          rw [← hname] at hnone
          cases hlocal.symm.trans hnone
        · exact ⟨nofun, nofun⟩

theorem confined_lowerMethod (h : lowerMethod table source = .ok code) {temporary : Variable}
    (hmem : temporary ∈ code.temporaries) : Confined code.body temporary := by
  obtain ⟨_, _, distinct, _⟩ := named_lowerMethod h
  obtain ⟨blocks, final, _, _, hbody, htemporaries, _⟩ := blocks_lowerMethod h
  have hnodup : code.temporaries.Nodup := List.Nodup.of_map (·.name) distinct
  rw [htemporaries] at hnodup hmem
  rw [hbody]
  exact confined_of_blocks hnodup hmem

end

/-- The temporaries of a lowered method have names of their own, which no local, parameter or field
has. Each of them is assigned once and mentioned only on the unbroken way from there, so none is
live at the beginning of the method or at a label. -/
theorem temporaries_unbroken {table : Source.SymbolTable} {program : Source.Program}
    {cls : Code.Class} (h : lowerProgram table program = .ok cls) {code : Code.Method}
    (hcode : code ∈ cls.methods) :
    (code.temporaries.map (·.name)).Nodup ∧
    (∀ source ∈ program.decl.methods, lowerMethod table source = .ok code →
      ∀ scope ∈ table.method? source.signature, ∀ temporary ∈ code.temporaries,
        temporary.name ∉ declaredNames (.ofScope table scope)) ∧
    (∀ var ∈ code.occurrences, (var.role = .temporary → var ∈ code.temporaries) ∧
      (var.isAllocatable → ∀ temporary ∈ code.temporaries, var.name = temporary.name →
        var = temporary)) ∧
    (∀ temporary ∈ code.temporaries, AssignedOnce code.body temporary) ∧
    ∃ flow, Flow.Graph.ofBody code.body = .ok flow ∧
      ∀ temporary ∈ code.temporaries, ∀ index line, code.body[index]? = some line →
        index = 0 ∨ line.labels ≠ [] → temporary.name ∉ flow.liveness.liveBefore index := by
  obtain ⟨flow, hflow⟩ := Registers.exists_flow (Stack.complete_lowerProgram h hcode)
  have hundeclared : ∀ source ∈ program.decl.methods, lowerMethod table source = .ok code →
      ∀ scope ∈ table.method? source.signature, ∀ temporary ∈ code.temporaries,
        temporary.name ∉ declaredNames (.ofScope table scope) := by
    intro source _ hsource scope hscope
    obtain ⟨scope', hscope', _, hnames, _⟩ := named_lowerMethod hsource
    obtain rfl := Option.some.inj (hscope'.symm.trans hscope)
    exact hnames
  rcases mem_lowerProgram h hcode with rfl | ⟨source, _, hsource⟩
  · refine ⟨List.nodup_nil, hundeclared, ?_, nofun, flow, hflow, nofun⟩
    intro var hvar
    obtain rfl := List.mem_singleton.mp hvar
    exact ⟨nofun, nofun⟩
  · obtain ⟨_, _, hdistinct, _, hnamed⟩ := named_lowerMethod hsource
    have hassigned : ∀ temporary ∈ code.temporaries, AssignedOnce code.body temporary :=
      fun _ hmem => (confined_lowerMethod hsource hmem).assignedOnce
    refine ⟨hdistinct, hundeclared, hnamed, hassigned, flow, hflow, ?_⟩
    intro temporary hmem index line hline hentry hlive
    have hallocatable := (formed_lowerMethod hsource).locals temporary (List.mem_filter.mp hmem).1
    obtain ⟨start, unentered⟩ := (hassigned temporary hmem).exists_unentered hflow
      (fun other hother hallocatable => (hnamed other hother).2 hallocatable temporary hmem)
      hallocatable hlive
    have hlt := unentered.lt
    rcases hentry with rfl | hlabels
    · exact Nat.not_lt_zero start hlt
    · exact hlabels (unentered.unlabeled index line hlt (Nat.le_refl index) hline)

/-- A method with a loop over a field and a variable that is called like a temporary. -/
def filling : Source.Method :=
  ⟨"fill", false, [⟨"n", .int⟩], .int,
    [.assign "t2" (.int 0),
      .while (.binary .lt (.binary .mul (.name "t2") (.int 2)) (.length (.name "rows")))
        (.block
          [.assignElement "rows" (.binary .add (.name "t2") (.name "n"))
            (.binary .sub (.index (.name "rows") (.name "t2")) (.int 1)),
            .assign "t2" (.binary .add (.name "t2") (.int 1))])],
    some (.call (.newObject "Ledger") "fill" [.index (.name "rows") (.int 0)] none)⟩

def fillingScope : Source.Scope := ⟨"fill", .int, [⟨"n", .int⟩], [⟨"t2", .int⟩]⟩

def fillingTable : Source.SymbolTable :=
  Source.SymbolTable.addMethod ⟨"Ledger", none, [], [⟨"rows", .array .int⟩], ∅⟩ fillingScope

def fillingProgram : Source.Program := ⟨[], "Ledger", none, [⟨"rows", .array .int⟩], [filling]⟩

/-- Its temporaries leave out the name `t2`, and none of them is live where the loop is entered. -/
theorem temporaries_filling :
    ∃ cls code, lowerProgram fillingTable fillingProgram = .ok cls ∧ code ∈ cls.methods ∧
      lowerMethod fillingTable filling = .ok code ∧
      code.temporaries.map (·.name) =
        ["t1", "t3", "t4", "t5", "t6", "t7", "t8", "t9", "t10", "t11", "t12"] ∧
      (∀ temporary ∈ code.temporaries, AssignedOnce code.body temporary ∧
        temporary.name ∉ declaredNames (.ofScope fillingTable fillingScope)) ∧
      ∃ flow instr, Flow.Graph.ofBody code.body = .ok flow ∧
        code.body[1]? = some ⟨["loop1"], instr⟩ ∧
        ∀ temporary ∈ code.temporaries, temporary.name ∉ flow.liveness.liveBefore 1 := by
  have hlowered : (lowerMethod fillingTable filling).toOption.map (fun code =>
      (code.temporaries.map (·.name), code.body[1]?.map (·.labels))) =
      some (["t1", "t3", "t4", "t5", "t6", "t7", "t8", "t9", "t10", "t11", "t12"],
        some ["loop1"]) := by
    decide +kernel
  obtain ⟨code, hcode, hvalues⟩ := Outcome.exists_of_toOption hlowered
  obtain ⟨hnames, hlabels⟩ := Prod.mk.inj hvalues
  obtain ⟨⟨labels, instr⟩, hline, rfl⟩ := Option.map_eq_some_iff.mp hlabels
  have hcls : lowerProgram fillingTable fillingProgram = .ok ⟨"Ledger", none, [],
      [.field "rows" (.array .int)], [constructor "Ledger", code]⟩ := by
    simp only [lowerProgram, fillingProgram, List.mapM_cons, hcode]
    rfl
  have hmem : code ∈ [constructor "Ledger", code] := by simp
  have hscope : fillingTable.method? filling.signature = some fillingScope := by decide +kernel
  obtain ⟨_, hundeclared, _, hassigned, flow, hflow, hlive⟩ := temporaries_unbroken hcls hmem
  refine ⟨_, code, hcls, hmem, hcode, hnames, ?_, flow, instr, hflow, hline, ?_⟩
  · intro temporary htemporary
    exact ⟨hassigned temporary htemporary,
      hundeclared filling List.mem_cons_self hcode fillingScope hscope temporary htemporary⟩
  · exact fun temporary htemporary => hlive temporary htemporary 1 _ hline (.inr (by simp))

end ClassCompiler.Lowering
