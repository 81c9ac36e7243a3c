import ClassCompiler.Proofs.Flow.Graph
import ClassCompiler.Proofs.Stack.Discipline
import ClassCompiler.Proofs.Stack.Slots

/-!
# Where control goes in a body

Control goes past an item, unless it ends its block, or to the label that the item jumps to. Inside
the segment of a line it meets no item that writes a slot before the last one. It leaves the segment
only behind that one, and goes where the flow graph of the code has a step.
-/

namespace ClassCompiler.Stack

open Code (Labeled place?)

/-- Control may go on to a place after an item. -/
def Leads (items : List Item) (place : Nat) (item : Item) (next : Nat) : Prop :=
  item.endsBlock = false ∧ next = place + 1 ∨
    ∃ target ∈ item.target?, items[next]? = some (.label target)

/-- A path of control from the first item to a place, with the items on the way, last first. -/
inductive Walk (items : List Item) : List Item → Nat → Prop where
  | start : Walk items [] 0
  | step {trail : List Item} {place next : Nat} {item : Item} (h : Walk items trail place)
    (hitem : items[place]? = some item) (leads : Leads items place item next) :
    Walk items (item :: trail) next

theorem Walk.pass {items trail : List Item} {place : Nat} {item : Item} (h : Walk items trail place)
    (hitem : items[place]? = some item) (hfalls : item.endsBlock = false) :
    Walk items (item :: trail) (place + 1) :=
  h.step hitem (.inl ⟨hfalls, rfl⟩)

theorem Walk.jump {items trail : List Item} {place next : Nat} {item : Item} {target : String}
    (h : Walk items trail place) (hitem : items[place]? = some item)
    (htarget : item.target? = some target) (hlabel : items[next]? = some (.label target)) :
    Walk items (item :: trail) next :=
  h.step hitem (.inr ⟨target, htarget, hlabel⟩)

def start (segs : List (List Item)) (index : Nat) : Nat := (segs.take index).flatten.length

/-- The item at a place, in the segment of a line. -/
def AtLine (segs : List (List Item)) (index place : Nat) (item : Item) : Prop :=
  ∃ seg offset, segs[index]? = some seg ∧ seg[offset]? = some item ∧
    place = start segs index + offset

section

variable {segs : List (List Item)} {index place : Nat} {seg : List Item} {item : Item}

theorem start_succ (h : segs[index]? = some seg) :
    start segs (index + 1) = start segs index + seg.length := by
  rw [start, start, List.take_add_one, h]
  simp

theorem start_cons (first : List Item) (rest : List (List Item)) (index : Nat) :
    start (first :: rest) (index + 1) = first.length + start rest index := by
  simp [start]

theorem getElem?_of_atLine (h : AtLine segs index place item) :
    segs.flatten[place]? = some item := by
  obtain ⟨seg, offset, hseg, hitem, rfl⟩ := h
  induction segs generalizing index with
  | nil => cases hseg
  | cons first rest ih =>
    rw [List.flatten_cons]
    cases index with
    | zero =>
      cases hseg
      obtain ⟨hlt, _⟩ := List.getElem?_eq_some_iff.mp hitem
      rw [List.getElem?_append_left (by simpa [start] using hlt)]
      simpa [start] using hitem
    | succ index =>
      rw [start_cons, Nat.add_assoc, List.getElem?_append_right (Nat.le_add_right _ _),
        Nat.add_sub_cancel_left]
      exact ih hseg

theorem mem_labels_of_mem {items : List Item} {label : String} (h : .label label ∈ items) :
    label ∈ (listing items).labels :=
  List.mem_filterMap.mpr ⟨.inl label, List.mem_map_of_mem h, rfl⟩

/-- Where all labels differ, a label has one place. -/
theorem place_of_label {items : List Item} (distinct : (listing items).labels.Nodup)
    {label : String} {place place' : Nat} (h : items[place]? = some (.label label))
    (h' : items[place']? = some (.label label)) : place = place' := by
  induction items generalizing place place' with
  | nil => cases h
  | cons first rest ih =>
    have hrest : (listing rest).labels.Nodup := by
      cases first with
      | label => exact (List.nodup_cons.mp distinct).2
      | instr => exact distinct
    -- the label is not there again behind its first place
    have hfirst {other : Nat} (heq : first = .label label)
        (hother : rest[other]? = some (.label label)) : False := by
      subst heq
      exact (List.nodup_cons.mp distinct).1 (mem_labels_of_mem (List.mem_of_getElem? hother))
    cases place with
    | zero =>
      cases place' with
      | zero => rfl
      | succ place' => exact (hfirst (Option.some.inj h) h').elim
    | succ place =>
      cases place' with
      | zero => exact (hfirst (Option.some.inj h') h).elim
      | succ place' => rw [ih hrest h h']

end

section

variable {cls : Code.Class} {method : String} {optimize : Bool} {number : Nat} {items : List Item}
  {item : Item} {offset : Nat}

theorem write?_of_target? {target : String} (h : item.target? = some target) :
    item.write? = none := by
  cases item with
  | label => rfl
  | instr step => cases step <;> first | rfl | cases h

theorem label_of_adds {count height : Nat} (h : Adds items count height) (hitem : item ∈ items)
    {target : String} (htarget : item.target? = some target) : .label target ∈ items := by
  obtain ⟨depths, hpasses, _⟩ := h 0
  obtain ⟨trace, rfl, _, _, hjumps⟩ := exists_trace_of_passes hpasses
  obtain ⟨entry, hentry, rfl⟩ := List.mem_map.mp hitem
  exact List.mem_map_of_mem (hjumps entry hentry target htarget)

/-- Items jump to labels among them, except the last one, which may jump where the instruction
does. -/
theorem label_of_statementItems {instr : Code.Instr}
    (h : statementItems cls method optimize number instr = .ok items)
    (hitem : items[offset]? = some item) {target : String} (htarget : item.target? = some target) :
    .label target ∈ items ∨ offset + 1 = items.length ∧ instr.target? = some target := by
  cases shape_statementItems h with
  | passes hadds => exact .inl (label_of_adds hadds (List.mem_of_getElem? hitem) htarget)
  | @ends before last hadds _ _ hlast =>
    by_cases hlt : offset < before.length
    · rw [List.getElem?_append_left hlt] at hitem
      exact .inl (List.mem_append_left _
        (label_of_adds hadds (List.mem_of_getElem? hitem) htarget))
    · obtain ⟨hlt', _⟩ := List.getElem?_eq_some_iff.mp hitem
      rw [List.getElem?_append_right (Nat.le_of_not_lt hlt)] at hitem
      obtain rfl := List.mem_singleton.mp (List.mem_of_getElem? hitem)
      simp only [instrs, List.map_cons, List.map_nil, List.length_append,
        List.length_singleton] at hlt' ⊢
      exact .inr ⟨by omega, hlast.symm.trans htarget⟩

theorem append_instrs_ne_nil (items : List Item) (step : Instr) : items ++ instrs [step] ≠ [] := by
  simp [instrs]

theorem callItems_ne_nil {kind : Code.CallKind} {target : Code.Operand} {name? : Option String}
    {args : List Code.Operand} {returnTy : Code.Ty}
    (h : callItems cls method kind target name? args returnTy = .ok items) : items ≠ [] := by
  cases kind with
  | special =>
    obtain ⟨owner, _, h⟩ := Outcome.bind_eq_ok.mp h
    obtain ⟨loads, _, h⟩ := Outcome.bind_eq_ok.mp h
    obtain rfl := Outcome.pure_eq_ok.mp h
    exact append_instrs_ne_nil loads _
  | virtual | static =>
    cases name? with
    | none => cases h
    | some name =>
      obtain ⟨owner, _, h⟩ := Outcome.bind_eq_ok.mp h
      obtain ⟨loads, _, h⟩ := Outcome.bind_eq_ok.mp h
      obtain rfl := Outcome.pure_eq_ok.mp h
      exact append_instrs_ne_nil loads _
  | newObject =>
    cases target with
    | var var =>
      cases h
      exact List.cons_ne_nil _ _
    | literal | element => cases h
  | newArray =>
    obtain ⟨size, _, h⟩ := Outcome.bind_eq_ok.mp h
    split at h
    · obtain rfl := Outcome.pure_eq_ok.mp h
      exact append_instrs_ne_nil size _
    · cases h
  | arrayLength =>
    obtain ⟨array, _, h⟩ := Outcome.bind_eq_ok.mp h
    obtain rfl := Outcome.pure_eq_ok.mp h
    exact append_instrs_ne_nil array _

theorem assignItems_ne_nil {dest : Code.Operand} {value : Code.Instr}
    (h : assignItems cls method optimize number dest value = .ok items) : items ≠ [] := by
  unfold assignItems at h
  split at h
  · cases h
    exact List.cons_ne_nil _ _
  · cases dest with
    | var var =>
      obtain ⟨valueItems, _, h⟩ := Outcome.bind_eq_ok.mp h
      obtain ⟨store, hstore, h⟩ := Outcome.bind_eq_ok.mp h
      obtain rfl := Outcome.pure_eq_ok.mp h
      rw [storeVariable] at hstore
      split at hstore
      · cases hstore
      · obtain ⟨slot, _, hstore⟩ := Outcome.bind_eq_ok.mp hstore
        obtain rfl := Outcome.pure_eq_ok.mp hstore
        exact append_instrs_ne_nil valueItems _
    | element array index ty =>
      obtain ⟨arrayItems, _, h⟩ := Outcome.bind_eq_ok.mp h
      obtain ⟨indexItems, _, h⟩ := Outcome.bind_eq_ok.mp h
      obtain ⟨valueItems, _, h⟩ := Outcome.bind_eq_ok.mp h
      obtain rfl := Outcome.pure_eq_ok.mp h
      exact append_instrs_ne_nil _ _
    | literal => cases h

/-- Every instruction has items, so control cannot skip a line. -/
theorem statementItems_ne_nil {instr : Code.Instr}
    (h : statementItems cls method optimize number instr = .ok items) : items ≠ [] := by
  cases instr with
  | assign dest ty value => exact assignItems_ne_nil h
  | call kind target name? args returnTy =>
    obtain ⟨call, hcall, h⟩ := Outcome.bind_eq_ok.mp h
    obtain rfl := Outcome.pure_eq_ok.mp h
    split
    · exact callItems_ne_nil hcall
    · exact append_instrs_ne_nil call _
  | putField object field value =>
    obtain ⟨loads, _, h⟩ := Outcome.bind_eq_ok.mp h
    obtain rfl := Outcome.pure_eq_ok.mp h
    exact append_instrs_ne_nil loads _
  | branch cond target =>
    cases cond with
    | binary op left right =>
      obtain ⟨loads, _, h⟩ := Outcome.bind_eq_ok.mp h
      obtain rfl := Outcome.pure_eq_ok.mp h
      cases op <;> simp [branchItems, instrs]
    | not operand | holds operand =>
      obtain ⟨load, _, h⟩ := Outcome.bind_eq_ok.mp h
      obtain rfl := Outcome.pure_eq_ok.mp h
      exact append_instrs_ne_nil load _
  | goto target =>
    cases h
    exact List.cons_ne_nil _ _
  | ret ty value =>
    cases value with
    | none =>
      cases h
      exact List.cons_ne_nil _ _
    | some value =>
      obtain ⟨load, _, h⟩ := Outcome.bind_eq_ok.mp h
      obtain rfl := Outcome.pure_eq_ok.mp h
      exact append_instrs_ne_nil load _
  | binary | not | getField | load =>
    obtain ⟨value, _, h⟩ := Outcome.bind_eq_ok.mp h
    obtain rfl := Outcome.pure_eq_ok.mp h
    exact append_instrs_ne_nil value _

/-- Control that gets past the last item of an instruction gets past the instruction. -/
theorem fallsThrough_of_getLast? {instr : Code.Instr}
    (h : statementItems cls method optimize number instr = .ok items)
    (hlast : items.getLast? = some item) (hfalls : item.endsBlock = false) :
    instr.fallsThrough := by
  cases instr with
  | goto target =>
    cases h
    cases hlast
    cases hfalls
  | ret ty value =>
    obtain ⟨step, hstep, hlast'⟩ := getLast?_retItems h
    rw [hlast] at hlast'
    cases hlast'
    simp only [List.mem_cons, List.not_mem_nil, or_false] at hstep
    rcases hstep with rfl | rfl | rfl <;> cases hfalls
  | assign | binary | not | call | getField | putField | branch | load => rfl

end

section

variable {cls : Code.Class} {method : Code.Method} {optimize : Bool} {segs : List (List Item)}
  {flow : Flow.Graph} {index place next : Nat} {item nextItem : Item}

/-- A label of the code stands in the segment of its line. -/
theorem exists_atLine_of_place? (hsegs : segments cls method.name optimize 1 method.body = .ok segs)
    {label : String} (hplace : place? method.body label = some index) :
    ∃ place, AtLine segs index place (.label label) := by
  obtain ⟨hlt, hmem, _⟩ := List.findIdx?_eq_some_iff_getElem.mp hplace
  obtain ⟨number, seg, hseg, hget⟩ := segments_getElem? hsegs (List.getElem?_eq_getElem hlt)
  obtain ⟨items, _, hseg⟩ := Outcome.bind_eq_ok.mp hseg
  obtain rfl := Outcome.pure_eq_ok.mp hseg
  have hlabel : .label label ∈ (method.body[index]).labels.map Item.label ++ items :=
    List.mem_append_left _ (List.mem_map_of_mem (of_decide_eq_true hmem))
  obtain ⟨offset, hoffset⟩ := List.mem_iff_getElem?.mp hlabel
  exact ⟨_, _, offset, hget, hoffset, rfl⟩

/-- An item of a segment is a label of the line or an item of its instruction. -/
theorem item_of_segment {labels : List String} {items : List Item} {offset : Nat}
    (h : (labels.map .label ++ items)[offset]? = some item) :
    (∃ label, item = .label label) ∧ offset < labels.length ∨
      ∃ rest, offset = labels.length + rest ∧ items[rest]? = some item := by
  by_cases hlt : offset < (labels.map Item.label).length
  · rw [List.getElem?_append_left hlt] at h
    obtain ⟨label, _, rfl⟩ := List.mem_map.mp (List.mem_of_getElem? h)
    exact .inl ⟨⟨label, rfl⟩, by simpa using hlt⟩
  · rw [List.getElem?_append_right (Nat.le_of_not_lt hlt)] at h
    rw [List.length_map] at hlt h
    exact .inr ⟨offset - labels.length, by omega, h⟩

/-- The last item of a segment is the last one of the instruction. -/
theorem getLast?_of_segment {labels : List String} {items : List Item} {offset : Nat}
    (h : (labels.map .label ++ items)[offset]? = some item) (hne : items ≠ [])
    (hlast : offset + 1 = (labels.map Item.label ++ items).length) :
    items.getLast? = some item := by
  rw [List.length_append, List.length_map] at hlast
  have hpos := List.length_pos_of_ne_nil hne
  rcases item_of_segment h with ⟨_, hlt⟩ | ⟨rest, rfl, hitem⟩
  · omega
  · rw [List.getLast?_eq_getElem?, ← hitem]
    congr 1
    omega

theorem write?_of_lt_segment {labels : List String} {items : List Item} {offset : Nat}
    {instr : Code.Instr} (accesses : Accesses instr items)
    (h : (labels.map .label ++ items)[offset]? = some item)
    (hlt : offset + 1 < (labels.map Item.label ++ items).length) : item.write? = none := by
  rw [List.length_append, List.length_map] at hlt
  rcases item_of_segment h with ⟨⟨label, rfl⟩, _⟩ | ⟨rest, rfl, hitem⟩
  · rfl
  · exact accesses.write?_of_lt hitem (by omega)

/-- An item where the segment of a line begins belongs to that line: no segment is empty. -/
theorem atLine_start (hsegs : segments cls method.name optimize 1 method.body = .ok segs)
    (h : segs.flatten[start segs index]? = some item) :
    index < method.body.length ∧ AtLine segs index (start segs index) item := by
  cases hseg : segs[index]? with
  | none =>
    have hall : segs.take index = segs :=
      List.take_of_length_le (List.getElem?_eq_none_iff.mp hseg)
    rw [start, hall, List.getElem?_eq_none (Nat.le_refl _)] at h
    cases h
  | some seg =>
    obtain ⟨line, number, items, hline, hitems, rfl⟩ := line_of_segments hsegs hseg
    refine ⟨(List.getElem?_eq_some_iff.mp hline).1, ?_⟩
    have hpos : 0 < (line.labels.map Item.label ++ items).length := by
      have := List.length_pos_of_ne_nil (statementItems_ne_nil hitems)
      rw [List.length_append]
      omega
    have hat : AtLine segs index (start segs index) _ :=
      ⟨_, 0, hseg, List.getElem?_eq_getElem hpos, rfl⟩
    have hget := getElem?_of_atLine hat
    rw [h] at hget
    rw [Option.some.inj hget]
    exact hat

/-- An item of a line is one of its instruction, unless it is a label. -/
theorem mem_of_atLine (hsegs : segments cls method.name optimize 1 method.body = .ok segs)
    (hat : AtLine segs index place item) (unlabeled : ∀ label, item ≠ .label label) :
    ∃ line number items, method.body[index]? = some line ∧
      statementItems cls method.name optimize number line.instr = .ok items ∧ item ∈ items := by
  obtain ⟨seg, offset, hseg, hitem, rfl⟩ := hat
  obtain ⟨line, number, items, hline, hitems, rfl⟩ := line_of_segments hsegs hseg
  rcases item_of_segment hitem with ⟨⟨label, hlabel⟩, _⟩ | ⟨rest, _, hrest⟩
  · exact absurd hlabel (unlabeled label)
  · exact ⟨line, number, items, hline, hitems, List.mem_of_getElem? hrest⟩

/-- The item in front of the next segment is the last one of its instruction. -/
theorem getLast?_of_atLine (hsegs : segments cls method.name optimize 1 method.body = .ok segs)
    (hat : AtLine segs index place item) (hend : place + 1 = start segs (index + 1)) :
    ∃ line number items, method.body[index]? = some line ∧
      statementItems cls method.name optimize number line.instr = .ok items ∧
      items.getLast? = some item := by
  obtain ⟨seg, offset, hseg, hitem, rfl⟩ := hat
  obtain ⟨line, number, items, hline, hitems, rfl⟩ := line_of_segments hsegs hseg
  rw [start_succ hseg] at hend
  exact ⟨line, number, items, hline, hitems,
    getLast?_of_segment hitem (statementItems_ne_nil hitems) (by omega)⟩

/-- Control that passes an item. -/
theorem passes_cases (hsegs : segments cls method.name optimize 1 method.body = .ok segs)
    (hflow : Flow.Graph.ofBody method.body = .ok flow) (hat : AtLine segs index place item)
    (hfalls : item.endsBlock = false) (hnext : segs.flatten[place + 1]? = some nextItem) :
    item.write? = none ∧ AtLine segs index (place + 1) nextItem ∨
      place + 1 = start segs (index + 1) ∧
        ∃ index' ∈ flow.next index, AtLine segs index' (place + 1) nextItem := by
  obtain ⟨seg, offset, hseg, hitem, rfl⟩ := hat
  obtain ⟨line, number, items, hline, hitems, rfl⟩ := line_of_segments hsegs hseg
  obtain ⟨hlt, _⟩ := List.getElem?_eq_some_iff.mp hitem
  by_cases hmore : offset + 1 < (line.labels.map Item.label ++ items).length
  · refine .inl ⟨write?_of_lt_segment (accesses_statementItems hitems) hitem hmore, ?_⟩
    have hat : AtLine segs index (start segs index + (offset + 1)) _ :=
      ⟨_, offset + 1, hseg, List.getElem?_eq_getElem hmore, rfl⟩
    have hget := getElem?_of_atLine hat
    rw [← Nat.add_assoc, hnext] at hget
    rw [Option.some.inj hget]
    exact hat
  · have hlast : offset + 1 = (line.labels.map Item.label ++ items).length := by omega
    have hend : start segs index + offset + 1 = start segs (index + 1) := by
      rw [start_succ hseg]
      omega
    rw [hend] at hnext ⊢
    obtain ⟨hbody, hat⟩ := atLine_start hsegs hnext
    have hgetLast := getLast?_of_segment hitem (statementItems_ne_nil hitems) hlast
    have falls := fallsThrough_of_getLast? hitems hgetLast hfalls
    exact .inr ⟨rfl, index + 1, Flow.succ_mem_next hflow hline falls hbody, hat⟩

/-- Control that jumps from an item. -/
theorem jumps_cases (hsegs : segments cls method.name optimize 1 method.body = .ok segs)
    (labeled : WellLabeled method.body) (hflow : Flow.Graph.ofBody method.body = .ok flow)
    (hat : AtLine segs index place item) {target : String} (htarget : item.target? = some target)
    (hnext : segs.flatten[next]? = some (.label target)) :
    AtLine segs index next (.label target) ∨
      place + 1 = start segs (index + 1) ∧
        ∃ index' ∈ flow.next index, AtLine segs index' next (.label target) := by
  obtain ⟨seg, offset, hseg, hitem, rfl⟩ := hat
  obtain ⟨line, number, items, hline, hitems, rfl⟩ := line_of_segments hsegs hseg
  have distinct := nodup_labels_segments hsegs labeled.distinct labeled.plain
  have hunique {index' place' : Nat} (hat : AtLine segs index' place' (.label target)) :
      AtLine segs index' next (.label target) := by
    rw [place_of_label distinct hnext (getElem?_of_atLine hat)]
    exact hat
  rcases item_of_segment hitem with ⟨⟨label, rfl⟩, _⟩ | ⟨rest, rfl, hrest⟩
  · cases htarget
  · rcases label_of_statementItems hitems hrest htarget with hinside | ⟨hlast, houtside⟩
    · obtain ⟨offset', hoffset⟩ :=
        List.mem_iff_getElem?.mp (List.mem_append_right (line.labels.map Item.label) hinside)
      exact .inl (hunique ⟨_, offset', hseg, hoffset, rfl⟩)
    · have hdefined := labeled.defined line (List.mem_of_getElem? hline) target houtside
      obtain ⟨index', hplace⟩ := place?_of_mem_labelsOf hdefined
      obtain ⟨place', hat⟩ := exists_atLine_of_place? hsegs hplace
      refine .inr ⟨?_, index', Flow.target_mem_next hflow hline houtside hplace, hunique hat⟩
      rw [start_succ hseg, List.length_append, List.length_map]
      omega

/-- Control that goes on from an item stays in the segment of its line and has met no item that
writes a slot, or it leaves the segment behind the last item and follows the flow graph. -/
theorem leads_cases (hsegs : segments cls method.name optimize 1 method.body = .ok segs)
    (labeled : WellLabeled method.body) (hflow : Flow.Graph.ofBody method.body = .ok flow)
    (hat : AtLine segs index place item) (leads : Leads segs.flatten place item next)
    (hnext : segs.flatten[next]? = some nextItem) :
    item.write? = none ∧ AtLine segs index next nextItem ∨
      place + 1 = start segs (index + 1) ∧
        ∃ index' ∈ flow.next index, AtLine segs index' next nextItem := by
  rcases leads with ⟨hfalls, rfl⟩ | ⟨target, htarget, hlabel⟩
  · exact passes_cases hsegs hflow hat hfalls hnext
  · rw [hlabel] at hnext
    cases hnext
    rcases jumps_cases hsegs labeled hflow hat htarget hlabel with hinside | houtside
    · exact .inl ⟨write?_of_target? htarget, hinside⟩
    · exact .inr houtside

end

end ClassCompiler.Stack
