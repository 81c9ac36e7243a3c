import Mathlib.Logic.Function.Iterate
import ClassCompiler.Proofs.Flow.Paths

/-!
# The passes that find liveness

The search for liveness is a loop without a bound: it makes passes until one changes nothing. Here
the loop is written out with its flag for changes, and it stops at any index that is outside of a
table. For the flow graph of a method neither happens: all indices are inside, every pass only adds
to the sets, and the loop ends after as many passes as `Liveness.solve` counts.
-/

namespace ClassCompiler.Flow

/-- What may follow an instruction is an instruction. -/
theorem next_lt_size {body : List Code.Labeled} {graph : Graph} (h : Graph.ofBody body = .ok graph)
    {index next : Nat} (hnext : next ∈ graph.next index) : next < graph.size := by
  have hlt := Liveness.lt_size_of_mem_next hnext
  rw [size_eq h] at hlt
  rcases eq_succ_or_labeled h (List.getElem?_eq_getElem hlt) hnext with
    ⟨_, hsucc⟩ | ⟨line, hline, _⟩
  · rwa [size_eq h]
  · exact lt_size_of_line h hline

namespace Liveness

/-- Brings one instruction up to date if all indices that this takes are inside of their tables. The
flag is raised if one of the two sets changes. -/
def visitWithin (graph : Graph) (state : Liveness × Bool) (index : Nat) :
    Option (Liveness × Bool) := do
  let point ← graph.points[index]?
  let ahead ← point.next.mapM fun next => state.1.before[next]?
  let before ← state.1.before[index]?
  let after ← state.1.after[index]?
  let newAfter := ahead.foldl NameSet.union ∅
  let newBefore := point.uses.union (newAfter.diff point.defs)
  if newBefore = before ∧ newAfter = after then return state
  else
    return ({ before := state.1.before.setIfInBounds index newBefore
              after := state.1.after.setIfInBounds index newAfter }, true)

/-- One pass over all instructions, the last one first, and whether it has changed anything. -/
def passWithin (graph : Graph) (live : Liveness) : Option (Liveness × Bool) :=
  (List.range graph.size).reverse.foldlM (visitWithin graph) (live, false)

/-- The loop: from some sets it ends after a number of passes at some sets, because the last pass
has changed nothing. No pass takes an index outside of a table. -/
inductive Loop (graph : Graph) : Liveness → Nat → Liveness → Prop where
  | stop {live last : Liveness} (h : passWithin graph live = some (last, false)) :
      Loop graph live 1 last
  | again {live next last : Liveness} {passes : Nat} (h : passWithin graph live = some (next, true))
      (hrest : Loop graph next passes last) : Loop graph live (passes + 1) last

variable {graph : Graph} {live : Liveness}

theorem getElem?_before {index : Nat} (hlt : index < live.before.size) :
    live.before[index]? = some (live.liveBefore index) := by
  rw [liveBefore, Array.getD_eq_getD_getElem?, Array.getElem?_eq_getElem hlt]
  rfl

theorem getElem?_after {index : Nat} (hlt : index < live.after.size) :
    live.after[index]? = some (live.liveAfter index) := by
  rw [liveAfter, Array.getD_eq_getD_getElem?, Array.getElem?_eq_getElem hlt]
  rfl

theorem mapM_before (hsize : live.before.size = graph.size) {nexts : List Nat}
    (inside : ∀ next ∈ nexts, next < graph.size) :
    (nexts.mapM fun next => live.before[next]?) = some (nexts.map live.liveBefore) := by
  induction nexts with
  | nil => rfl
  | cons next rest ih =>
    obtain ⟨hnext, hrest⟩ := List.forall_mem_cons.mp inside
    have hlt : next < live.before.size := by omega
    rw [List.mapM_cons, getElem?_before hlt, ih hrest]
    rfl

/-- A visit changes nothing exactly if both equations hold at the instruction. -/
theorem visit_eq_self_iff (h : Growing graph live) {index : Nat} (hlt : index < graph.size) :
    visit graph live index = live ↔
      newBefore graph live index = live.liveBefore index ∧
        newAfter graph live index = live.liveAfter index := by
  constructor
  · intro hvisit
    have hbefore := visit_liveBefore h.before_size index index
    have hafter := visit_liveAfter h.after_size index index
    rw [hvisit, if_pos ⟨rfl, hlt⟩] at hbefore hafter
    exact ⟨hbefore.symm, hafter.symm⟩
  · rintro ⟨hbefore, hafter⟩
    refine (eq_of_le_of_ge h (growing_visit h index) (le_visit h index) ?_).symm
    intro other name
    rw [visit_liveBefore h.before_size, visit_liveAfter h.after_size]
    by_cases heq : other = index ∧ index < graph.size
    · rw [if_pos heq, if_pos heq, hbefore, hafter, heq.1]
      exact ⟨id, id⟩
    · rw [if_neg heq, if_neg heq]
      exact ⟨id, id⟩

/-- A visit inside of the tables is a visit, and the flag tells whether it has changed anything. -/
theorem visitWithin_eq (h : Growing graph live) (changed : Bool) {index : Nat}
    (hlt : index < graph.size) (inside : ∀ next ∈ graph.next index, next < graph.size) :
    visitWithin graph (live, changed) index =
      some (visit graph live index, changed || decide (visit graph live index ≠ live)) := by
  obtain ⟨point, hpoint⟩ : ∃ point, graph.points[index]? = some point :=
    ⟨_, Array.getElem?_eq_getElem hlt⟩
  have hnext : graph.next index = point.next := by rw [Graph.next, hpoint]
  have huses : graph.uses index = point.uses := by rw [Graph.uses, hpoint]
  have hdefs : graph.defs index = point.defs := by rw [Graph.defs, hpoint]
  have hahead : (point.next.map live.liveBefore).foldl NameSet.union ∅ =
      newAfter graph live index := by
    rw [newAfter, hnext, List.foldl_map]
  have hnew : point.uses.union ((newAfter graph live index).diff point.defs) =
      newBefore graph live index := by
    rw [newBefore, huses, hdefs]
  have hbefore := getElem?_before (h.before_size.symm ▸ hlt)
  have hafter := getElem?_after (h.after_size.symm ▸ hlt)
  rw [hnext] at inside
  have hread := mapM_before h.before_size inside
  have hself := visit_eq_self_iff h hlt
  simp only [visitWithin, hpoint, hread, hbefore, hafter, Option.bind_eq_bind, Option.bind_some,
    hahead, hnew]
  by_cases hsame : newBefore graph live index = live.liveBefore index ∧
      newAfter graph live index = live.liveAfter index
  · rw [if_pos hsame, hself.mpr hsame]
    simp
  · have hne : visit graph live index ≠ live := fun heq => hsame (hself.mp heq)
    rw [if_neg hsame, decide_eq_true hne, Bool.or_true]
    rfl

/-- Visits one after the other. A set that has changed never changes back, so the flag tells whether
any set differs from what it was. -/
theorem foldlM_visitWithin (inside : ∀ index, ∀ next ∈ graph.next index, next < graph.size)
    (h : Growing graph live) (changed : Bool) {indices : List Nat}
    (hlt : ∀ index ∈ indices, index < graph.size) :
    indices.foldlM (visitWithin graph) (live, changed) =
      some (indices.foldl (visit graph) live,
        changed || decide (indices.foldl (visit graph) live ≠ live)) := by
  induction indices generalizing live changed with
  | nil => simp
  | cons index rest ih =>
    obtain ⟨hindex, hrest⟩ := List.forall_mem_cons.mp hlt
    have hgrowing := growing_visit h index
    have hflag : visit graph live index ≠ live ∨
        rest.foldl (visit graph) (visit graph live index) ≠ visit graph live index ↔
          (index :: rest).foldl (visit graph) live ≠ live := by
      constructor
      · intro hchanged heq
        have hvisit := visit_eq_of_foldl_visit h heq List.mem_cons_self
        rcases hchanged with hne | hne
        · exact hne hvisit
        · exact hne (heq.trans hvisit.symm)
      · intro hne
        by_cases hvisit : visit graph live index = live
        · refine .inr fun heq => hne ?_
          rw [List.foldl_cons, heq, hvisit]
        · exact .inl hvisit
    rw [List.foldlM_cons, visitWithin_eq h changed hindex (inside index)]
    refine (ih hgrowing _ hrest).trans ?_
    rw [Bool.or_assoc, ← Bool.decide_or, decide_eq_decide.mpr hflag]
    rfl

theorem passWithin_eq (inside : ∀ index, ∀ next ∈ graph.next index, next < graph.size)
    (h : Growing graph live) :
    passWithin graph live = some (pass graph live, decide (pass graph live ≠ live)) := by
  have hlt : ∀ index ∈ (List.range graph.size).reverse, index < graph.size := by simp
  rw [passWithin, foldlM_visitWithin inside h false hlt, pass, Bool.false_or]

/-- What the loop has in hand after some passes. -/
theorem growing_passes (graph : Graph) (rounds : Nat) :
    Growing graph ((pass graph)^[rounds] (nothing graph.size)) := by
  induction rounds with
  | zero => exact growing_nothing graph
  | succ rounds ih =>
    rw [Function.iterate_succ_apply']
    exact (growing_pass ih).1

/-- The passes that are counted are those of the loop. Each pass but the last adds a variable to a
set, so they are no more than there is room for. -/
theorem loop_settle (inside : ∀ index, ∀ next ∈ graph.next index, next < graph.size)
    (h : Growing graph live) {fuel : Nat} (passes : Nat)
    (enough : 2 * graph.size * (mentioned graph).size < total graph live + fuel) :
    ∃ count, Loop graph live count (settle graph fuel live passes).1 ∧
      (settle graph fuel live passes).2 = passes + count ∧
      total graph live + count ≤ 2 * graph.size * (mentioned graph).size + 1 := by
  induction fuel generalizing live passes with
  | zero =>
    have hle := total_le h
    omega
  | succ fuel ih =>
    have hpass := passWithin_eq inside h
    obtain ⟨hgrowing, hle⟩ := growing_pass h
    by_cases heq : pass graph live = live
    · have hroom := total_le h
      refine ⟨1, ?_, ?_, by omega⟩
      · rw [settle, if_pos heq]
        rw [heq] at hpass
        exact .stop (by simpa using hpass)
      · rw [settle, if_pos heq]
    · have hmore := total_lt h hgrowing hle fun h => heq h.symm
      obtain ⟨count, hloop, hpasses, hroom⟩ := ih hgrowing (passes + 1) (by omega)
      refine ⟨count + 1, ?_, ?_, by omega⟩
      · rw [settle, if_neg heq]
        exact .again (by simpa [heq] using hpass) hloop
      · rw [settle, if_neg heq, hpasses]
        omega

/-- The search for liveness ends. Take the flow graph of a method with its `n` instructions, of
which some read or write `V` variables in all. After any number of passes a further one takes no
index outside of a table, and leaves every set at least what it was. The loop comes to a pass that
changes nothing, with the liveness of the graph, after at most `2 * n * V + 1` passes. -/
theorem liveness_loop_ends (body : List Code.Labeled) (graph : Graph)
    (h : Graph.ofBody body = .ok graph) :
    (∀ rounds, ∃ next changed,
      passWithin graph ((pass graph)^[rounds] (nothing body.length)) = some (next, changed) ∧
      next = (pass graph)^[rounds + 1] (nothing body.length) ∧
      Le ((pass graph)^[rounds] (nothing body.length)) next) ∧
    Loop graph (nothing body.length) graph.livenessPasses graph.liveness ∧
    graph.livenessPasses ≤ 2 * body.length * (mentioned graph).size + 1 := by
  have inside : ∀ index, ∀ next ∈ graph.next index, next < graph.size :=
    fun index next hnext => next_lt_size h hnext
  have hstart := growing_nothing graph
  have enough : 2 * graph.size * (mentioned graph).size <
      total graph (nothing graph.size) + passBound graph := by
    rw [passBound]
    omega
  obtain ⟨count, hloop, hpasses, hroom⟩ := loop_settle inside hstart 0 enough
  rw [Nat.zero_add] at hpasses
  have hcount : graph.livenessPasses = count := hpasses
  rw [← size_eq h]
  refine ⟨?_, ?_, by omega⟩
  · intro rounds
    have hgrowing := growing_passes graph rounds
    rw [Function.iterate_succ_apply']
    exact ⟨_, _, passWithin_eq inside hgrowing, rfl, (growing_pass hgrowing).2⟩
  · rw [hcount]
    exact hloop

/-- The value that the loop of the method carries around takes three passes to be found. -/
theorem liveness_loop_summing :
    ∃ graph, Graph.ofBody summing.body = .ok graph ∧ graph.livenessPasses = 3 ∧
      (mentioned graph).names = ["i", "n", "sum", "t1"] ∧ Loop graph (nothing 6) 3 graph.liveness ∧
      (∃ next changed, passWithin graph ((pass graph)^[1] (nothing 6)) = some (next, changed) ∧
        next = (pass graph)^[2] (nothing 6) ∧ Le ((pass graph)^[1] (nothing 6)) next) ∧
      3 ≤ 2 * 6 * 4 + 1 := by
  have hruns : (Graph.ofBody summing.body).toOption.map (fun graph =>
      (graph.livenessPasses, (mentioned graph).names)) = some (3, ["i", "n", "sum", "t1"]) := by
    decide +kernel
  obtain ⟨graph, hgraph, hresults⟩ := Outcome.exists_of_toOption hruns
  obtain ⟨hpasses, hnames⟩ := Prod.mk.inj hresults
  obtain ⟨hrounds, hloop, hbound⟩ := liveness_loop_ends summing.body graph hgraph
  rw [hpasses] at hloop hbound
  rw [NameSet.size, hnames] at hbound
  exact ⟨graph, hgraph, hpasses, hnames, hloop, hrounds 1, hbound⟩

end Liveness

end ClassCompiler.Flow
