import ClassCompiler.Proofs.Flow.Graph
import ClassCompiler.Proofs.Flow.Liveness

/-!
# Liveness is exact

A variable is live before an instruction exactly if a path leads from there to an instruction that
reads it, and no instruction on the way writes it. Whatever sets agree with both equations have to
contain what such paths reach, so the sets that the passes find are the least ones that agree.
-/

namespace ClassCompiler.Flow

variable {graph : Graph} {index : Nat} {name : String}

/-- A path of the flow graph leads from an instruction to one that reads the variable, and none of
the instructions before the last one writes it. -/
def Graph.ReadAhead (graph : Graph) (index : Nat) (name : String) : Prop :=
  ∃ (length : Nat) (path : Nat → Nat), path 0 = index ∧
    (∀ step < length, path (step + 1) ∈ graph.next (path step)) ∧
    name ∈ graph.uses (path length) ∧ ∀ step < length, name ∉ graph.defs (path step)

namespace Graph.ReadAhead

theorem of_uses (h : name ∈ graph.uses index) : graph.ReadAhead index name :=
  ⟨0, fun _ => index, rfl, by simp, h, by simp⟩

/-- A path can be entered one instruction earlier. -/
theorem of_next {next : Nat} (hnext : next ∈ graph.next index) (hdef : name ∉ graph.defs index)
    (h : graph.ReadAhead next name) : graph.ReadAhead index name := by
  obtain ⟨length, path, rfl, hpath, huse, hdefs⟩ := h
  refine ⟨length + 1, fun step => if step = 0 then index else path (step - 1), rfl, ?_, ?_, ?_⟩
  · intro step hstep
    cases step with
    | zero => simpa using hnext
    | succ step => simpa using hpath step (by omega)
  · simpa using huse
  · intro step hstep
    cases step with
    | zero => simpa using hdef
    | succ step => simpa using hdefs step (by omega)

/-- What holds where a variable is read, and is handed back along the graph where the variable is
not written, holds wherever the variable is read ahead. -/
theorem rec_back {P : Nat → Prop} (huse : ∀ index, name ∈ graph.uses index → P index)
    (hback : ∀ index, ∀ next ∈ graph.next index, name ∉ graph.defs index → P next → P index)
    (h : graph.ReadAhead index name) : P index := by
  obtain ⟨length, path, rfl, hpath, hread, hdefs⟩ := h
  -- from the end of the path back to its beginning
  have back : ∀ rest ≤ length, P (path (length - rest)) := by
    intro rest
    induction rest with
    | zero => exact fun _ => huse _ hread
    | succ rest ih =>
      intro hrest
      have hstep : length - (rest + 1) < length := by omega
      have hsucc : length - (rest + 1) + 1 = length - rest := by omega
      refine hback _ _ (hpath _ hstep) (hdefs _ hstep) ?_
      rw [hsucc]
      exact ih (by omega)
  simpa using back length (Nat.le_refl length)

end Graph.ReadAhead

namespace Liveness

variable {live : Liveness}

theorem isFixpoint_iff :
    isFixpoint graph live = true ↔ ∀ index < graph.size,
      newBefore graph live index = live.liveBefore index ∧
        newAfter graph live index = live.liveAfter index := by
  simp [isFixpoint]

theorem isFixpoint_liveness (graph : Graph) : isFixpoint graph graph.liveness = true :=
  isFixpoint_iff.mpr fun index _ =>
    ⟨(liveBefore_eq graph index).symm, (liveAfter_eq graph index).symm⟩

theorem lt_size_of_mem_uses (h : name ∈ graph.uses index) : index < graph.size := by
  refine Nat.lt_of_not_le fun hout => ?_
  rw [uses_outside hout] at h
  exact NameSet.not_mem_empty name h

theorem lt_size_of_mem_next {next : Nat} (h : next ∈ graph.next index) : index < graph.size := by
  refine Nat.lt_of_not_le fun hout => ?_
  rw [next_outside hout] at h
  cases h

/-- Sets that agree with both equations contain all that is read ahead. -/
theorem mem_liveBefore_of_readAhead (fixpoint : isFixpoint graph live = true)
    (h : graph.ReadAhead index name) : name ∈ live.liveBefore index := by
  have equations := isFixpoint_iff.mp fixpoint
  refine h.rec_back (P := fun index => name ∈ live.liveBefore index) ?_ ?_
  · intro index huse
    rw [← (equations index (lt_size_of_mem_uses huse)).1]
    exact mem_newBefore.mpr (.inl huse)
  · intro index next hnext hdef hlive
    rw [← (equations index (lt_size_of_mem_next hnext)).1]
    exact mem_newBefore.mpr (.inr ⟨mem_newAfter.mpr ⟨next, hnext, hlive⟩, hdef⟩)

/-- Nothing is live that is not read ahead. -/
structure Justified (graph : Graph) (live : Liveness) : Prop where
  before_size : live.before.size = graph.size
  readAhead : ∀ {index name}, name ∈ live.liveBefore index → graph.ReadAhead index name

/-- A visit puts a variable before an instruction only if a path to a read begins there. -/
theorem justified_visit (h : Justified graph live) (index : Nat) :
    Justified graph (visit graph live index) := by
  refine ⟨by simpa [visit] using h.before_size, ?_⟩
  intro other name hmem
  rw [visit_liveBefore h.before_size] at hmem
  split at hmem
  · next hcond =>
    obtain ⟨rfl, _⟩ := hcond
    rcases mem_newBefore.mp hmem with huse | ⟨hafter, hdef⟩
    · exact .of_uses huse
    · obtain ⟨next, hnext, hbefore⟩ := mem_newAfter.mp hafter
      exact .of_next hnext hdef (h.readAhead hbefore)
  · exact h.readAhead hmem

theorem justified_pass (h : Justified graph live) : Justified graph (pass graph live) := by
  rw [pass]
  induction (List.range graph.size).reverse generalizing live with
  | nil => exact h
  | cons index rest ih => exact ih (justified_visit h index)

theorem justified_settle (h : Justified graph live) (fuel passes : Nat) :
    Justified graph (settle graph fuel live passes).1 := by
  induction fuel generalizing live passes with
  | zero => exact h
  | succ fuel ih =>
    rw [settle]
    split
    · exact h
    · exact ih (justified_pass h) (passes + 1)

theorem justified_liveness (graph : Graph) : Justified graph graph.liveness :=
  justified_settle ⟨(growing_nothing graph).before_size,
    fun hmem => absurd hmem not_mem_liveBefore_nothing⟩ _ _

theorem mem_liveBefore_iff_readAhead :
    name ∈ graph.liveness.liveBefore index ↔ graph.ReadAhead index name :=
  ⟨(justified_liveness graph).readAhead, mem_liveBefore_of_readAhead (isFixpoint_liveness graph)⟩

/-- The liveness of a flow graph is the least one that agrees with both equations. -/
theorem liveness_le (fixpoint : isFixpoint graph live = true) : Le graph.liveness live := by
  have hbefore : ∀ index name, name ∈ graph.liveness.liveBefore index →
      name ∈ live.liveBefore index :=
    fun index name hmem =>
      mem_liveBefore_of_readAhead fixpoint (mem_liveBefore_iff_readAhead.mp hmem)
  refine fun index name => ⟨hbefore index name, fun hmem => ?_⟩
  obtain ⟨next, hnext, hlive⟩ := mem_liveAfter.mp hmem
  rw [← (isFixpoint_iff.mp fixpoint index (lt_size_of_mem_next hnext)).2]
  exact mem_newAfter.mpr ⟨next, hnext, hbefore next name hlive⟩

end Liveness

/-- What is live in a method that has a flow graph. There is one set before and one after each
instruction. A variable is live before an instruction exactly if a path leads from there to one that
reads it past none that writes it, and it is live after an instruction exactly if it is live before
one that may follow. The sets agree with both equations at every instruction, and they are the least
ones that do. -/
theorem liveness_exact (method : Code.Method) (graph : Graph)
    (h : Graph.ofBody method.body = .ok graph) :
    graph.liveness.before.size = method.body.length ∧
    graph.liveness.after.size = method.body.length ∧
    (∀ index name, name ∈ graph.liveness.liveBefore index ↔ graph.ReadAhead index name) ∧
    (∀ index name, name ∈ graph.liveness.liveAfter index ↔
      ∃ next ∈ graph.next index, name ∈ graph.liveness.liveBefore next) ∧
    Liveness.isFixpoint graph graph.liveness = true ∧
    ∀ live, Liveness.isFixpoint graph live = true → Liveness.Le graph.liveness live := by
  have hgrowing := (Liveness.solve_spec graph).1
  refine ⟨?_, ?_, ?_, ?_, Liveness.isFixpoint_liveness graph, ?_⟩
  · rw [hgrowing.before_size, size_eq h]
  · rw [hgrowing.after_size, size_eq h]
  · exact fun index name => Liveness.mem_liveBefore_iff_readAhead
  · exact fun index name => Liveness.mem_liveAfter
  · exact fun live fixpoint => Liveness.liveness_le fixpoint

/-- A loop that adds up `n` until `i` is zero, with a value in it that nothing reads. -/
def summing : Code.Method where
  name := "summing"
  isStatic := true
  isConstructor := false
  parameters := []
  returnTy := .int
  locals := []
  body :=
    let i : Code.Operand := .var (.declared "i" .int)
    let n : Code.Operand := .var (.declared "n" .int)
    let sum : Code.Operand := .var (.declared "sum" .int)
    let unread : Code.Operand := .var (.temporary "t1" .int)
    [⟨[], .assign sum .int (.load (.int 0))⟩,
      ⟨["loop1"], .assign sum .int (.binary .add sum n)⟩,
      ⟨[], .assign unread .int (.binary .add sum i)⟩,
      ⟨[], .assign i .int (.binary .sub i (.int 1))⟩,
      ⟨[], .branch (.binary .lt (.int 0) i) "loop1"⟩,
      ⟨[], .ret .int (some sum)⟩]

/-- Sets that agree with both equations for the loop and are not the least: a variable that nothing
reads is carried around. -/
def summingLoose : Liveness :=
  let carried := NameSet.ofList ["i", "n", "sum", "t2"]
  { before := #[.ofList ["i", "n", "t2"], carried, carried, carried, carried, .ofList ["sum"]]
    after := #[carried, carried, carried, carried, carried, ∅] }

theorem liveness_exact_summing :
    ∃ graph, Graph.ofBody summing.body = .ok graph ∧ graph.liveness.before.size = 6 ∧
      (graph.liveness.liveBefore 0).names = ["i", "n"] ∧ graph.ReadAhead 0 "n" ∧
      (graph.liveness.liveBefore 3).names = ["i", "n", "sum"] ∧ ¬ graph.ReadAhead 3 "t1" ∧
      (∃ next ∈ graph.next 4, "n" ∈ graph.liveness.liveBefore next) ∧
      Liveness.isFixpoint graph summingLoose = true ∧ Liveness.Le graph.liveness summingLoose ∧
      graph.liveness ≠ summingLoose := by
  refine ⟨_, rfl, ?_⟩
  obtain ⟨hsize, _, hbefore, hafter, _, hleast⟩ := liveness_exact summing _ rfl
  refine ⟨hsize, by decide +kernel, (hbefore 0 "n").mp (by decide +kernel), by decide +kernel,
    fun h => ?_, (hafter 4 "n").mp (by decide +kernel), by decide +kernel,
    hleast summingLoose (by decide +kernel), by decide +kernel⟩
  exact absurd ((hbefore 3 "t1").mpr h) (by decide +kernel)

end ClassCompiler.Flow
