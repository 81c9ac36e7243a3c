import Mathlib.Algebra.Order.BigOperators.Group.List
import Mathlib.Algebra.Order.Ring.Nat
import ClassCompiler.Flow.Liveness
import ClassCompiler.Proofs.NameSet

/-!
# Liveness is a fixpoint

A pass only adds variables, and it can only add those that some instruction mentions. The bound on
the number of passes is therefore never what ends the search: the passes end because one of them
changes nothing, and then both equations hold at every instruction.
-/

namespace ClassCompiler.Flow.Liveness

variable {graph : Graph} {live live' : Liveness}

theorem mem_newAfter {index : Nat} {name : String} :
    name ∈ newAfter graph live index ↔ ∃ next ∈ graph.next index, name ∈ live.liveBefore next := by
  have fold : ∀ (nexts : List Nat) (set : NameSet),
      name ∈ nexts.foldl (fun set next => set.union (live.liveBefore next)) set ↔
        name ∈ set ∨ ∃ next ∈ nexts, name ∈ live.liveBefore next := by
    intro nexts
    induction nexts with
    | nil => intro set; simp
    | cons next rest ih =>
      intro set
      rw [List.foldl_cons, ih, NameSet.mem_union]
      simp only [List.mem_cons, exists_eq_or_imp]
      exact or_assoc
  rw [newAfter, fold]
  simp

theorem mem_newBefore {index : Nat} {name : String} :
    name ∈ newBefore graph live index ↔
      name ∈ graph.uses index ∨ name ∈ newAfter graph live index ∧ name ∉ graph.defs index := by
  simp [newBefore]

/-- Everything live in one is live in the other. -/
def Le (live live' : Liveness) : Prop :=
  ∀ index name, (name ∈ live.liveBefore index → name ∈ live'.liveBefore index) ∧
    (name ∈ live.liveAfter index → name ∈ live'.liveAfter index)

theorem Le.refl (live : Liveness) : Le live live := fun _ _ => ⟨id, id⟩

theorem Le.trans {live'' : Liveness} (h : Le live live') (h' : Le live' live'') :
    Le live live'' :=
  fun index name => ⟨fun hmem => (h' index name).1 ((h index name).1 hmem),
    fun hmem => (h' index name).2 ((h index name).2 hmem)⟩

theorem newAfter_mono (h : Le live live') {index : Nat} {name : String}
    (hmem : name ∈ newAfter graph live index) : name ∈ newAfter graph live' index := by
  obtain ⟨next, hnext, hbefore⟩ := mem_newAfter.mp hmem
  exact mem_newAfter.mpr ⟨next, hnext, (h next name).1 hbefore⟩

theorem newBefore_mono (h : Le live live') {index : Nat} {name : String}
    (hmem : name ∈ newBefore graph live index) : name ∈ newBefore graph live' index := by
  rcases mem_newBefore.mp hmem with huse | ⟨hafter, hdef⟩
  · exact mem_newBefore.mpr (.inl huse)
  · exact mem_newBefore.mpr (.inr ⟨newAfter_mono h hafter, hdef⟩)

/-- What the passes keep: a set before and after each instruction, all of whose members an update
would put there again, and which only has variables that the code mentions. -/
structure Growing (graph : Graph) (live : Liveness) : Prop where
  before_size : live.before.size = graph.size
  after_size : live.after.size = graph.size
  before_sub : ∀ {index name}, name ∈ live.liveBefore index → name ∈ newBefore graph live index
  after_sub : ∀ {index name}, name ∈ live.liveAfter index → name ∈ newAfter graph live index
  before_mentioned : ∀ {index name}, name ∈ live.liveBefore index → name ∈ mentioned graph

theorem mem_mentioned {name : String} :
    name ∈ mentioned graph ↔
      ∃ point ∈ graph.points, name ∈ point.uses ∨ name ∈ point.defs := by
  have fold : ∀ (points : List Point) (set : NameSet),
      name ∈ points.foldl (fun set point => (set.union point.uses).union point.defs) set ↔
        name ∈ set ∨ ∃ point ∈ points, name ∈ point.uses ∨ name ∈ point.defs := by
    intro points
    induction points with
    | nil => intro set; simp
    | cons point rest ih =>
      intro set
      rw [List.foldl_cons, ih, NameSet.mem_union, NameSet.mem_union]
      simp only [List.mem_cons, exists_eq_or_imp]
      rw [or_assoc, or_assoc, or_assoc]
  rw [mentioned, ← Array.foldl_toList, fold]
  simp

theorem uses_mentioned {index : Nat} {name : String} (h : name ∈ graph.uses index) :
    name ∈ mentioned graph := by
  rw [Graph.uses] at h
  cases hpoint : graph.points[index]? with
  | none => simp [hpoint] at h
  | some point =>
    rw [hpoint] at h
    exact mem_mentioned.mpr ⟨point, Array.mem_of_getElem? hpoint, .inl h⟩

theorem defs_mentioned {index : Nat} {name : String} (h : name ∈ graph.defs index) :
    name ∈ mentioned graph := by
  rw [Graph.defs] at h
  cases hpoint : graph.points[index]? with
  | none => simp [hpoint] at h
  | some point =>
    rw [hpoint] at h
    exact mem_mentioned.mpr ⟨point, Array.mem_of_getElem? hpoint, .inr h⟩

theorem Growing.liveBefore_outside (h : Growing graph live) {index : Nat}
    (hout : graph.size ≤ index) : live.liveBefore index = ∅ := by
  rw [liveBefore, Array.getD_eq_getD_getElem?,
    Array.getElem?_eq_none (by rw [h.before_size]; exact hout)]
  rfl

theorem Growing.liveAfter_outside (h : Growing graph live) {index : Nat}
    (hout : graph.size ≤ index) : live.liveAfter index = ∅ := by
  rw [liveAfter, Array.getD_eq_getD_getElem?,
    Array.getElem?_eq_none (by rw [h.after_size]; exact hout)]
  rfl

theorem next_outside {index : Nat} (hout : graph.size ≤ index) : graph.next index = [] := by
  rw [Graph.next, Array.getElem?_eq_none hout]

theorem uses_outside {index : Nat} (hout : graph.size ≤ index) : graph.uses index = ∅ := by
  rw [Graph.uses, Array.getElem?_eq_none hout]

theorem not_mem_liveBefore_nothing {count index : Nat} {name : String} :
    name ∉ (nothing count).liveBefore index := by
  simp only [nothing, liveBefore, Array.getD_eq_getD_getElem?, Array.getElem?_replicate]
  split <;> exact NameSet.not_mem_empty name

theorem not_mem_liveAfter_nothing {count index : Nat} {name : String} :
    name ∉ (nothing count).liveAfter index := by
  simp only [nothing, liveAfter, Array.getD_eq_getD_getElem?, Array.getElem?_replicate]
  split <;> exact NameSet.not_mem_empty name

theorem growing_nothing (graph : Graph) : Growing graph (nothing graph.size) := by
  constructor
  · simp [nothing]
  · simp [nothing]
  · exact fun h => absurd h not_mem_liveBefore_nothing
  · exact fun h => absurd h not_mem_liveAfter_nothing
  · exact fun h => absurd h not_mem_liveBefore_nothing

/-- A visit changes the set before one instruction only. -/
theorem visit_liveBefore (hsize : live.before.size = graph.size) (index other : Nat) :
    (visit graph live index).liveBefore other =
      if other = index ∧ index < graph.size then newBefore graph live index
      else live.liveBefore other := by
  simp only [visit, liveBefore, Array.getD_eq_getD_getElem?, Array.getElem?_setIfInBounds, hsize]
  by_cases heq : index = other
  · subst heq
    by_cases hlt : index < graph.size
    · simp [hlt]
    · have hnone : live.before[index]? = none := by
        rw [Array.getElem?_eq_none]
        omega
      simp [hlt, hnone]
  · have hne : other ≠ index := fun h => heq h.symm
    simp [heq, hne]

/-- A visit changes the set after one instruction only. -/
theorem visit_liveAfter (hsize : live.after.size = graph.size) (index other : Nat) :
    (visit graph live index).liveAfter other =
      if other = index ∧ index < graph.size then newAfter graph live index
      else live.liveAfter other := by
  simp only [visit, liveAfter, Array.getD_eq_getD_getElem?, Array.getElem?_setIfInBounds, hsize]
  by_cases heq : index = other
  · subst heq
    by_cases hlt : index < graph.size
    · simp [hlt]
    · have hnone : live.after[index]? = none := by
        rw [Array.getElem?_eq_none]
        omega
      simp [hlt, hnone]
  · have hne : other ≠ index := fun h => heq h.symm
    simp [heq, hne]

/-- Visits never take a variable out of a set, as each set has what an update would put there. -/
theorem le_visit (h : Growing graph live) (index : Nat) : Le live (visit graph live index) := by
  intro other name
  rw [visit_liveBefore h.before_size, visit_liveAfter h.after_size]
  constructor
  · intro hmem
    split
    · next hcond => exact hcond.1 ▸ h.before_sub hmem
    · exact hmem
  · intro hmem
    split
    · next hcond => exact hcond.1 ▸ h.after_sub hmem
    · exact hmem

/-- An update keeps the invariant: it replaces two sets by larger ones, and updates are monotone. -/
theorem growing_visit (h : Growing graph live) (index : Nat) :
    Growing graph (visit graph live index) := by
  have hle := le_visit h index
  constructor
  · simpa [visit] using h.before_size
  · simpa [visit] using h.after_size
  · intro other name hmem
    rw [visit_liveBefore h.before_size] at hmem
    split at hmem
    · next hcond => exact hcond.1 ▸ newBefore_mono hle hmem
    · exact newBefore_mono hle (h.before_sub hmem)
  · intro other name hmem
    rw [visit_liveAfter h.after_size] at hmem
    split at hmem
    · next hcond => exact hcond.1 ▸ newAfter_mono hle hmem
    · exact newAfter_mono hle (h.after_sub hmem)
  · intro other name hmem
    rw [visit_liveBefore h.before_size] at hmem
    split at hmem
    · rcases mem_newBefore.mp hmem with huse | ⟨hafter, _⟩
      · exact uses_mentioned huse
      · obtain ⟨next, _, hbefore⟩ := mem_newAfter.mp hafter
        exact h.before_mentioned hbefore
    · exact h.before_mentioned hmem

/-- Some updates one after the other. -/
theorem growing_foldl_visit (indices : List Nat) (h : Growing graph live) :
    Growing graph (indices.foldl (visit graph) live) ∧
      Le live (indices.foldl (visit graph) live) := by
  induction indices generalizing live with
  | nil => exact ⟨h, Le.refl live⟩
  | cons index rest ih =>
    obtain ⟨hgrowing, hle⟩ := ih (growing_visit h index)
    exact ⟨hgrowing, (le_visit h index).trans hle⟩

theorem growing_pass (h : Growing graph live) :
    Growing graph (pass graph live) ∧ Le live (pass graph live) :=
  growing_foldl_visit _ h

/-- Sets are listed in order, so those with the same members are equal. -/
theorem eq_of_le_of_ge (h : Growing graph live) (h' : Growing graph live') (hle : Le live live')
    (hge : Le live' live) : live = live' := by
  have hbefore : live.before = live'.before := by
    refine Array.ext (h.before_size.trans h'.before_size.symm) fun index hlt hlt' => ?_
    refine NameSet.ext fun name => ?_
    have hl := (hle index name).1
    have hg := (hge index name).1
    simp only [liveBefore, Array.getD_eq_getD_getElem?, Array.getElem?_eq_getElem hlt,
      Array.getElem?_eq_getElem hlt', Option.getD_some] at hl hg
    exact ⟨hl, hg⟩
  have hafter : live.after = live'.after := by
    refine Array.ext (h.after_size.trans h'.after_size.symm) fun index hlt hlt' => ?_
    refine NameSet.ext fun name => ?_
    have hl := (hle index name).2
    have hg := (hge index name).2
    simp only [liveAfter, Array.getD_eq_getD_getElem?, Array.getElem?_eq_getElem hlt,
      Array.getElem?_eq_getElem hlt', Option.getD_some] at hl hg
    exact ⟨hl, hg⟩
  cases live
  cases live'
  cases hbefore
  cases hafter
  rfl

/-- How many entries the sets have altogether. -/
def total (graph : Graph) (live : Liveness) : Nat :=
  ((List.range graph.size).map fun index =>
    (live.liveBefore index).size + (live.liveAfter index).size).sum

/-- The sets can only have variables that the code mentions, which bounds how often they grow. -/
theorem total_le (h : Growing graph live) :
    total graph live ≤ 2 * graph.size * (mentioned graph).size := by
  have hentry : ∀ entries ∈ (List.range graph.size).map fun index =>
      (live.liveBefore index).size + (live.liveAfter index).size,
      entries ≤ 2 * (mentioned graph).size := by
    intro entries hentries
    obtain ⟨index, _, rfl⟩ := List.mem_map.mp hentries
    have hbefore : (live.liveBefore index).size ≤ (mentioned graph).size :=
      NameSet.size_le fun name hmem => h.before_mentioned hmem
    have hafter : (live.liveAfter index).size ≤ (mentioned graph).size := by
      refine NameSet.size_le fun name hmem => ?_
      obtain ⟨next, _, hnext⟩ := mem_newAfter.mp (h.after_sub hmem)
      exact h.before_mentioned hnext
    omega
  have hsum := List.sum_le_card_nsmul _ _ hentry
  simp only [List.length_map, List.length_range, Nat.nsmul_eq_mul] at hsum
  rw [total, Nat.mul_assoc, Nat.mul_left_comm]
  exact hsum

/-- A pass that changes something adds an entry. With `total_le` this ends the loop. -/
theorem total_lt (h : Growing graph live) (h' : Growing graph live') (hle : Le live live')
    (hne : live ≠ live') : total graph live < total graph live' := by
  have hsizes : ∀ index, (live.liveBefore index).size ≤ (live'.liveBefore index).size ∧
      (live.liveAfter index).size ≤ (live'.liveAfter index).size :=
    fun index => ⟨NameSet.size_le fun name => (hle index name).1,
      NameSet.size_le fun name => (hle index name).2⟩
  refine List.sum_lt_sum _ _ (fun index _ => Nat.add_le_add (hsizes index).1 (hsizes index).2) ?_
  refine Classical.byContradiction fun hnone => hne (eq_of_le_of_ge h h' hle ?_)
  -- no set has become larger, so none has changed
  intro index name
  by_cases hlt : index < graph.size
  · have hnlt := fun hmore => hnone ⟨index, List.mem_range.mpr hlt, hmore⟩
    have hbefore : live.liveBefore index = live'.liveBefore index := by
      refine Classical.byContradiction fun hdiff => hnlt ?_
      exact Nat.add_lt_add_of_lt_of_le (NameSet.size_lt (fun name => (hle index name).1) hdiff)
        (hsizes index).2
    have hafter : live.liveAfter index = live'.liveAfter index := by
      refine Classical.byContradiction fun hdiff => hnlt ?_
      exact Nat.add_lt_add_of_le_of_lt (hsizes index).1
        (NameSet.size_lt (fun name => (hle index name).2) hdiff)
    rw [hbefore, hafter]
    exact ⟨id, id⟩
  · rw [h'.liveBefore_outside (Nat.not_lt.mp hlt), h'.liveAfter_outside (Nat.not_lt.mp hlt)]
    exact ⟨fun hmem => absurd hmem (NameSet.not_mem_empty name),
      fun hmem => absurd hmem (NameSet.not_mem_empty name)⟩

/-- If a pass as a whole changes nothing, then no visit of it does: later visits take nothing back.
-/
theorem visit_eq_of_foldl_visit (h : Growing graph live) {indices : List Nat}
    (heq : indices.foldl (visit graph) live = live) {index : Nat} (hmem : index ∈ indices) :
    visit graph live index = live := by
  induction indices with
  | nil => cases hmem
  | cons first rest ih =>
    have hvisit : visit graph live first = live := by
      have hgrowing := growing_visit h first
      have hback := (growing_foldl_visit rest hgrowing).2
      rw [List.foldl_cons] at heq
      rw [heq] at hback
      exact eq_of_le_of_ge hgrowing h hback (le_visit h first)
    rcases List.mem_cons.mp hmem with rfl | hmem
    · exact hvisit
    · rw [List.foldl_cons, hvisit] at heq
      exact ih heq hmem

/-- With enough passes ahead the search ends at sets that a further pass keeps. -/
theorem settle_spec {fuel passes : Nat} (h : Growing graph live)
    (enough : 2 * graph.size * (mentioned graph).size < total graph live + fuel) :
    Growing graph (settle graph fuel live passes).1 ∧
      pass graph (settle graph fuel live passes).1 = (settle graph fuel live passes).1 := by
  induction fuel generalizing live passes with
  | zero => exact absurd (total_le h) (Nat.not_le.mpr enough)
  | succ fuel ih =>
    rw [settle]
    obtain ⟨hgrowing, hle⟩ := growing_pass h
    split
    · next heq => exact ⟨h, heq⟩
    · next hne =>
      -- a pass that changes something adds a name somewhere, and there is only room for so many
      have hmore := total_lt h hgrowing hle fun heq => hne heq.symm
      exact ih hgrowing (by omega)

theorem solve_spec (graph : Graph) :
    Growing graph graph.liveness ∧ pass graph graph.liveness = graph.liveness :=
  settle_spec (growing_nothing graph) (by rw [passBound]; omega)

theorem visit_liveness {index : Nat} (hlt : index < graph.size) :
    visit graph graph.liveness index = graph.liveness := by
  obtain ⟨hgrowing, hpass⟩ := solve_spec graph
  exact visit_eq_of_foldl_visit hgrowing hpass (by simpa using hlt)

/-- Live after an instruction is what is live before one that may follow it. -/
theorem liveAfter_eq (graph : Graph) (index : Nat) :
    graph.liveness.liveAfter index = newAfter graph graph.liveness index := by
  have hgrowing := (solve_spec graph).1
  by_cases hlt : index < graph.size
  · have hvisit := visit_liveAfter hgrowing.after_size index index
    rw [visit_liveness hlt] at hvisit
    simpa [hlt] using hvisit
  · rw [hgrowing.liveAfter_outside (Nat.not_lt.mp hlt), newAfter, next_outside (Nat.not_lt.mp hlt)]
    rfl

/-- Live before an instruction is what it reads, and what is live after it and not written by it. -/
theorem liveBefore_eq (graph : Graph) (index : Nat) :
    graph.liveness.liveBefore index = newBefore graph graph.liveness index := by
  have hgrowing := (solve_spec graph).1
  by_cases hlt : index < graph.size
  · have hvisit := visit_liveBefore hgrowing.before_size index index
    rw [visit_liveness hlt] at hvisit
    simpa [hlt] using hvisit
  · have hout := Nat.not_lt.mp hlt
    rw [hgrowing.liveBefore_outside hout, newBefore, newAfter, next_outside hout,
      uses_outside hout]
    rfl

theorem mem_liveAfter {index : Nat} {name : String} :
    name ∈ graph.liveness.liveAfter index ↔
      ∃ next ∈ graph.next index, name ∈ graph.liveness.liveBefore next := by
  rw [liveAfter_eq, mem_newAfter]

theorem mem_liveBefore {index : Nat} {name : String} :
    name ∈ graph.liveness.liveBefore index ↔
      name ∈ graph.uses index ∨
        name ∈ graph.liveness.liveAfter index ∧ name ∉ graph.defs index := by
  rw [liveBefore_eq, mem_newBefore, liveAfter_eq]

end ClassCompiler.Flow.Liveness
