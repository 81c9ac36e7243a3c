import ClassCompiler.Flow.Graph
import ClassCompiler.Proofs.Machine.Code
import ClassCompiler.Proofs.Outcome

/-!
# What a flow graph says about code

The flow graph of a method has one point for each of its instructions, with what the instruction
reads and writes. Its labels are where execution finds them, and wherever one instruction leads to
another, the graph has that step.
-/

namespace ClassCompiler.Flow

open Code (Instr Labeled place?)

theorem get?_of_addLabel {index : Nat} {labels labels' : NameMap Nat} {name : String}
    (h : addLabel index labels name = .ok labels') (label : String) :
    labels'.get? label = (labels.get? label).or (if label = name then some index else none) := by
  rw [addLabel] at h
  cases hget : labels.get? name with
  | some place => rw [hget] at h; cases h
  | none =>
    rw [hget] at h
    cases h
    by_cases heq : label = name
    · subst heq
      simp [hget]
    · simp [NameMap.get?_insert_of_ne, heq]

/-- All labels of a line are entered at its index, and none that was there is moved. -/
theorem get?_of_foldlM_addLabel {index : Nat} {names : List String} {labels labels' : NameMap Nat}
    (h : names.foldlM (addLabel index) labels = .ok labels') (label : String) :
    labels'.get? label = (labels.get? label).or (if label ∈ names then some index else none) := by
  induction names generalizing labels with
  | nil =>
    cases h
    simp
  | cons name rest ih =>
    rw [List.foldlM_cons] at h
    obtain ⟨labels₁, hname, hrest⟩ := Outcome.bind_eq_ok.mp h
    rw [ih hrest, get?_of_addLabel hname label, Option.or_assoc]
    by_cases heq : label = name
    · simp [heq]
    · simp [heq]

/-- A label is where it first occurs. -/
theorem get?_of_labelsFrom {index : Nat} {lines : List Labeled} {labels labels' : NameMap Nat}
    (h : labelsFrom index labels lines = .ok labels') (label : String) :
    labels'.get? label = (labels.get? label).or ((place? lines label).map (· + index)) := by
  induction lines generalizing index labels with
  | nil =>
    cases h
    simp [place?]
  | cons line rest ih =>
    rw [labelsFrom] at h
    obtain ⟨labels₁, hline, hrest⟩ := Outcome.bind_eq_ok.mp h
    rw [ih hrest, get?_of_foldlM_addLabel hline label, Option.or_assoc, place?, place?,
      List.findIdx?_cons]
    by_cases hmem : label ∈ line.labels
    · simp [hmem]
    · cases hplace : rest.findIdx? (fun line => label ∈ line.labels) with
      | none => simp [hmem]
      | some place => simp [hmem, Nat.add_assoc, Nat.add_comm 1 index]

theorem pointsFrom_length {labels : NameMap Nat} {count index : Nat} {lines : List Labeled}
    {points : List Point} (h : pointsFrom labels count index lines = .ok points) :
    points.length = lines.length := by
  induction lines generalizing index points with
  | nil => cases h; rfl
  | cons line rest ih =>
    rw [pointsFrom] at h
    obtain ⟨next, _, h⟩ := Outcome.bind_eq_ok.mp h
    obtain ⟨others, hothers, h⟩ := Outcome.bind_eq_ok.mp h
    cases h
    simpa using ih hothers

/-- The points have what the lines read and write, line by line. -/
theorem pointsFrom_sets {labels : NameMap Nat} {count index : Nat} {lines : List Labeled}
    {points : List Point} (h : pointsFrom labels count index lines = .ok points) :
    (points.map fun point => (point.uses, point.defs)) =
      lines.map fun line => (usesOf line.instr, defsOf line.instr) := by
  induction lines generalizing index points with
  | nil => cases h; rfl
  | cons line rest ih =>
    rw [pointsFrom] at h
    obtain ⟨next, _, h⟩ := Outcome.bind_eq_ok.mp h
    obtain ⟨others, hothers, h⟩ := Outcome.bind_eq_ok.mp h
    cases h
    rw [List.map_cons, List.map_cons, ih hothers]

/-- The point of a line. -/
theorem pointsFrom_getElem? {labels : NameMap Nat} {count index offset : Nat}
    {lines : List Labeled} {points : List Point} {line : Labeled}
    (h : pointsFrom labels count index lines = .ok points) (hline : lines[offset]? = some line) :
    ∃ next, nextOf labels count (index + offset) line.instr = .ok next ∧
      points[offset]? = some ⟨next, usesOf line.instr, defsOf line.instr⟩ := by
  induction lines generalizing index offset points with
  | nil => simp at hline
  | cons first rest ih =>
    rw [pointsFrom] at h
    obtain ⟨next, hnext, h⟩ := Outcome.bind_eq_ok.mp h
    obtain ⟨others, hothers, h⟩ := Outcome.bind_eq_ok.mp h
    cases h
    cases offset with
    | zero =>
      obtain rfl : first = line := by simpa using hline
      exact ⟨next, hnext, by simp⟩
    | succ offset =>
      obtain ⟨next', hnext', hpoint⟩ := ih hothers (by simpa using hline)
      refine ⟨next', ?_, by simpa using hpoint⟩
      rw [show index + (offset + 1) = index + 1 + offset by omega]
      exact hnext'

section

variable {body : List Labeled} {graph : Graph}

theorem ofBody_eq (h : Graph.ofBody body = .ok graph) :
    labelsFrom 0 ∅ body = .ok graph.labels ∧
      pointsFrom graph.labels body.length 0 body = .ok graph.points.toList := by
  rw [Graph.ofBody] at h
  obtain ⟨labels, hlabels, h⟩ := Outcome.bind_eq_ok.mp h
  obtain ⟨points, hpoints, h⟩ := Outcome.bind_eq_ok.mp h
  cases h
  exact ⟨hlabels, by simpa using hpoints⟩

theorem labels_get? (h : Graph.ofBody body = .ok graph) (label : String) :
    graph.labels.get? label = place? body label := by
  rw [get?_of_labelsFrom (ofBody_eq h).1 label]
  simp

theorem size_eq (h : Graph.ofBody body = .ok graph) : graph.size = body.length := by
  simpa [Graph.size] using pointsFrom_length (ofBody_eq h).2

theorem lt_size_of_line (h : Graph.ofBody body = .ok graph) {index : Nat} {line : Labeled}
    (hline : body[index]? = some line) : index < graph.size := by
  rw [size_eq h]
  exact (List.getElem?_eq_some_iff.mp hline).1

theorem point_of_line (h : Graph.ofBody body = .ok graph) {index : Nat} {line : Labeled}
    (hline : body[index]? = some line) :
    nextOf graph.labels body.length index line.instr = .ok (graph.next index) ∧
      graph.uses index = usesOf line.instr ∧ graph.defs index = defsOf line.instr := by
  obtain ⟨next, hnext, hpoint⟩ := pointsFrom_getElem? (ofBody_eq h).2 hline
  have hget : graph.points[index]? = some ⟨next, usesOf line.instr, defsOf line.instr⟩ := by
    simpa using hpoint
  simp only [Graph.next, Graph.uses, Graph.defs, hget]
  exact ⟨by simpa using hnext, trivial, trivial⟩

theorem mem_following {count index : Nat} (h : index + 1 < count) :
    index + 1 ∈ following count index := by
  simp [following, h]

theorem resolve_eq_ok {labels : NameMap Nat} {label : String} {place : Nat} :
    resolve labels label = .ok place ↔ labels.get? label = some place := by
  rw [resolve]
  cases labels.get? label <;> simp

/-- An instruction that execution can pass has the next one among those that may follow. -/
theorem mem_nextOf_of_falls {labels : NameMap Nat} {count index : Nat} {instr : Instr}
    {next : List Nat} (h : nextOf labels count index instr = .ok next)
    (falls : instr.fallsThrough) (hlt : index + 1 < count) : index + 1 ∈ next := by
  cases instr with
  | goto | ret => cases falls
  | branch cond target =>
    obtain ⟨place, _, h⟩ := Outcome.bind_eq_ok.mp h
    obtain rfl := Outcome.pure_eq_ok.mp h
    split
    · exact mem_following hlt
    · exact List.mem_append_left _ (mem_following hlt)
  | assign | binary | not | call | getField | putField | load =>
    cases h
    exact mem_following hlt

/-- A jump is an edge of the graph. -/
theorem mem_nextOf_of_target {labels : NameMap Nat} {count index place : Nat} {instr : Instr}
    {next : List Nat} {label : String} (h : nextOf labels count index instr = .ok next)
    (target : instr.target? = some label) (hplace : labels.get? label = some place) :
    place ∈ next := by
  cases instr with
  | goto label' =>
    cases target
    obtain ⟨place', hplace', h⟩ := Outcome.bind_eq_ok.mp h
    obtain rfl := Outcome.pure_eq_ok.mp h
    obtain rfl : place = place' := Option.some.inj (hplace.symm.trans (resolve_eq_ok.mp hplace'))
    exact List.mem_singleton.mpr rfl
  | branch cond label' =>
    cases target
    obtain ⟨place', hplace', h⟩ := Outcome.bind_eq_ok.mp h
    obtain rfl := Outcome.pure_eq_ok.mp h
    obtain rfl : place = place' := Option.some.inj (hplace.symm.trans (resolve_eq_ok.mp hplace'))
    split
    · assumption
    · exact List.mem_append_right _ (List.mem_singleton.mpr rfl)
  | assign | binary | not | call | getField | putField | load | ret => cases target

/-- Control goes to the next line, or to a line that carries a label. -/
theorem mem_nextOf {labels : NameMap Nat} {count index next : Nat} {instr : Instr}
    {followers : List Nat} (h : nextOf labels count index instr = .ok followers)
    (hnext : next ∈ followers) :
    next = index + 1 ∧ index + 1 < count ∨ ∃ label, labels.get? label = some next := by
  have hfollowing (hmem : next ∈ following count index) : next = index + 1 ∧ index + 1 < count := by
    rw [following] at hmem
    split at hmem
    · next hlt => exact ⟨List.mem_singleton.mp hmem, hlt⟩
    · cases hmem
  cases instr with
  | goto target =>
    obtain ⟨place, hplace, h⟩ := Outcome.bind_eq_ok.mp h
    obtain rfl := Outcome.pure_eq_ok.mp h
    rw [List.mem_singleton.mp hnext]
    exact .inr ⟨target, resolve_eq_ok.mp hplace⟩
  | branch cond target =>
    obtain ⟨place, hplace, h⟩ := Outcome.bind_eq_ok.mp h
    obtain rfl := Outcome.pure_eq_ok.mp h
    split at hnext
    · exact .inl (hfollowing hnext)
    · rcases List.mem_append.mp hnext with hmem | hmem
      · exact .inl (hfollowing hmem)
      · rw [List.mem_singleton.mp hmem]
        exact .inr ⟨target, resolve_eq_ok.mp hplace⟩
  | ret =>
    cases h
    cases hnext
  | assign | binary | not | call | getField | putField | load =>
    cases h
    exact .inl (hfollowing hnext)

/-- What may follow an instruction is the next one, or it is labeled. -/
theorem eq_succ_or_labeled (h : Graph.ofBody body = .ok graph) {index next : Nat} {line : Labeled}
    (hline : body[index]? = some line) (hnext : next ∈ graph.next index) :
    next = index + 1 ∧ next < body.length ∨
      ∃ line', body[next]? = some line' ∧ line'.labels ≠ [] := by
  rcases mem_nextOf (point_of_line h hline).1 hnext with ⟨rfl, hlt⟩ | ⟨label, hlabel⟩
  · exact .inl ⟨rfl, hlt⟩
  · rw [labels_get? h, place?] at hlabel
    obtain ⟨hlt, hmem, _⟩ := List.findIdx?_eq_some_iff_getElem.mp hlabel
    exact .inr ⟨_, List.getElem?_eq_getElem hlt, List.ne_nil_of_mem (by simpa using hmem)⟩

variable {index : Nat} {line : Labeled}

theorem succ_mem_next (h : Graph.ofBody body = .ok graph) (hline : body[index]? = some line)
    (falls : line.instr.fallsThrough) (hlt : index + 1 < body.length) :
    index + 1 ∈ graph.next index :=
  mem_nextOf_of_falls (point_of_line h hline).1 falls hlt

theorem target_mem_next (h : Graph.ofBody body = .ok graph) (hline : body[index]? = some line)
    {label : String} {place : Nat} (target : line.instr.target? = some label)
    (hplace : place? body label = some place) : place ∈ graph.next index :=
  mem_nextOf_of_target (point_of_line h hline).1 target ((labels_get? h label).trans hplace)

end

theorem exists_foldlM_addLabel (index : Nat) {names : List String} {labels : NameMap Nat}
    (distinct : names.Nodup) (hnew : ∀ name ∈ names, labels.get? name = none) :
    ∃ labels', names.foldlM (addLabel index) labels = .ok labels' := by
  induction names generalizing labels with
  | nil => exact ⟨labels, rfl⟩
  | cons first rest ih =>
    obtain ⟨hfirst, hrest⟩ := List.nodup_cons.mp distinct
    have hadd : addLabel index labels first = .ok (labels.insert first index) := by
      rw [addLabel, hnew first List.mem_cons_self]
    rw [List.foldlM_cons, hadd, Outcome.ok_bind]
    refine ih hrest fun name hname => ?_
    have hne : name ≠ first := fun heq => hfirst (heq ▸ hname)
    rw [NameMap.get?_insert_of_ne labels hne]
    exact hnew name (List.mem_cons_of_mem first hname)

/-- Distinct labels can all be entered. -/
theorem exists_labelsFrom (index : Nat) {lines : List Labeled} {labels : NameMap Nat}
    (distinct : (lines.flatMap (·.labels)).Nodup)
    (hnew : ∀ name ∈ lines.flatMap (·.labels), labels.get? name = none) :
    ∃ labels', labelsFrom index labels lines = .ok labels' := by
  induction lines generalizing index labels with
  | nil => exact ⟨labels, rfl⟩
  | cons line rest ih =>
    rw [List.flatMap_cons] at distinct hnew
    obtain ⟨hline, hrest, hdisjoint⟩ := List.nodup_append.mp distinct
    obtain ⟨labels', hlabels⟩ := exists_foldlM_addLabel index hline
      fun name hname => hnew name (List.mem_append_left _ hname)
    rw [labelsFrom, hlabels, Outcome.ok_bind]
    refine ih (index + 1) hrest fun name hname => ?_
    have hother : name ∉ line.labels := fun hmem => hdisjoint name hmem name hname rfl
    rw [get?_of_foldlM_addLabel hlabels, hnew name (List.mem_append_right _ hname), if_neg hother]
    rfl

theorem exists_nextOf {labels : NameMap Nat} (count index : Nat) {instr : Instr}
    (hdefined : ∀ target ∈ instr.target?, ∃ place, labels.get? target = some place) :
    ∃ next, nextOf labels count index instr = .ok next := by
  cases instr with
  | goto target | branch _ target =>
    obtain ⟨place, hplace⟩ := hdefined target rfl
    exact ⟨_, by simp only [nextOf, resolve_eq_ok.mpr hplace, Outcome.ok_bind]; rfl⟩
  | assign | binary | not | call | getField | putField | ret | load => exact ⟨_, rfl⟩

/-- If every label that is jumped to is known, every line has its edges. -/
theorem exists_pointsFrom {labels : NameMap Nat} (count index : Nat) {lines : List Labeled}
    (hdefined : ∀ line ∈ lines, ∀ target ∈ line.instr.target?,
      ∃ place, labels.get? target = some place) :
    ∃ points, pointsFrom labels count index lines = .ok points := by
  induction lines generalizing index with
  | nil => exact ⟨[], rfl⟩
  | cons line rest ih =>
    obtain ⟨next, hnext⟩ := exists_nextOf count index (hdefined line List.mem_cons_self)
    obtain ⟨points, hpoints⟩ := ih (index + 1) fun line hline =>
      hdefined line (List.mem_cons_of_mem _ hline)
    rw [pointsFrom, hnext, Outcome.ok_bind, hpoints]
    exact ⟨_, rfl⟩

/-- Code has a flow graph if its labels differ and every jump leads to one of them. -/
theorem exists_ofBody {body : List Labeled} (distinct : (body.flatMap (·.labels)).Nodup)
    (hdefined : ∀ line ∈ body, ∀ target ∈ line.instr.target?,
      ∃ place, place? body target = some place) :
    ∃ graph, Graph.ofBody body = .ok graph := by
  obtain ⟨labels, hlabels⟩ := exists_labelsFrom 0 distinct fun name _ => NameMap.get?_empty name
  have hplaces : ∀ line ∈ body, ∀ target ∈ line.instr.target?,
      ∃ place, labels.get? target = some place := by
    intro line hline target htarget
    obtain ⟨place, hplace⟩ := hdefined line hline target htarget
    refine ⟨place, ?_⟩
    rw [get?_of_labelsFrom hlabels, NameMap.get?_empty, hplace]
    rfl
  obtain ⟨points, hpoints⟩ := exists_pointsFrom body.length 0 hplaces
  rw [Graph.ofBody, hlabels, Outcome.ok_bind, hpoints]
  exact ⟨_, rfl⟩

end ClassCompiler.Flow
