import ClassCompiler.Proofs.Stack.Lowered
import ClassCompiler.Proofs.Stack.Simulation

/-!
# Assembly preserves the meaning of code

The items of a body fall into segments, one for each line of code. Executing a segment from its
first item with an empty operand stack is one step of the code.
-/

namespace ClassCompiler.Stack

open Code (Labeled Method SlotStore Variable)
open Machine (Session Stop Value World)

/-- One step of the code is one or more steps of the body, from the entry of a segment to that of
the next. -/
theorem reaches_step {S : Type} {perform : Request → Machine.Effect S Value} {cls : Code.Class}
    {method : Method} {body : Body} (accepted : bodyOf cls method false = .ok body)
    (labeled : WellLabeled method.body) {segs : List (List Item)}
    (hsegs : segments cls method.name false 1 method.body = .ok segs) {index : Nat}
    {line : Labeled} (hline : method.body[index]? = some line) (slots : SlotStore) (state : S)
    (hbool : ∀ state',
      (slotMachine cls perform).exec slots line.instr state ≠ .error .notBoolean state') :
    Reaches perform (listing segs.flatten) 1 (.running (entry segs index) [] slots state)
      (.ofCode segs ((slotMachine cls perform).step method.body (.running index slots state))) := by
  have hmeets := @meets_segment S perform _ _ _ _ _ _ accepted labeled hsegs hline slots state
  rw [Code.Executor.step, hline]
  simp only
  cases hexec : (slotMachine cls perform).exec slots line.instr state with
  | ok control state' =>
    rw [hexec] at hmeets
    exact hmeets
  | error stop state' =>
    rw [hexec] at hmeets
    cases stop with
    | notBoolean => exact absurd hexec (hbool state')
    | trap | exhausted => exact hmeets

/-- The body of a method executes line by line as its code does. Take a method that has assembly,
whose labels are distinct, defined where they are jumped to, and not those of comparisons. Execution
of the body from the first item of a line, with an empty operand stack and any slots, has the
effects of one step of the code in the same order, and gets with the same slots and an empty stack
to the first item of the line that the step leads to, or returns the same value, or stops as the
step does. Only steps that find something other than 0 or 1 where `&&` or `!` takes a boolean are
left out. Methods that have been lowered have such labels, whatever registers they are given. -/
theorem run_segment_eq_step :
    (∀ {σ : Type} (world : World Request σ) (cls : Code.Class) (method : Method) (body : Body),
      bodyOf cls method false = .ok body → WellLabeled method.body →
      ∃ segs, segments cls method.name false 1 method.body = .ok segs ∧
        body.items = segs.flatten ∧
        ∀ (index : Nat) (line : Labeled), method.body[index]? = some line →
        ∀ (slots : SlotStore) (session : Session Request σ),
        (∀ session', (slotMachine cls world.ask).exec slots line.instr session ≠
          .error .notBoolean session') →
        ∃ steps, 0 < steps ∧
          run world.ask (listing body.items) steps (.running (entry segs index) [] slots session) =
            .ofCode segs ((slotMachine cls world.ask).step method.body
              (.running index slots session))) ∧
    ∀ (table : Source.SymbolTable) (program : Source.Program) (lowered : Code.Class),
      Lowering.lowerProgram table program = .ok lowered → ∀ method ∈ lowered.methods,
      ∀ map, WellLabeled (Registers.assign map method).body := by
  constructor
  · intro σ world cls method body accepted labeled
    obtain ⟨segs, _, hsegs, hitems, _, _⟩ := segments_of_bodyOf accepted
    refine ⟨segs, hsegs, hitems, ?_⟩
    intro index line hline slots session hbool
    obtain ⟨steps, hsteps, hrun⟩ := reaches_step accepted labeled hsegs hline slots session hbool
    refine ⟨steps, hsteps, ?_⟩
    rw [hitems]
    exact hrun
  · intro table program lowered hlowered method hmethod map
    exact ((complete_lowerProgram hlowered hmethod).mapVars _).labeled

/-- A method that stores a comparison into an element of an array, and branches on a conjunction
with an element. -/
def flagging : Method where
  name := "flagging"
  isStatic := true
  isConstructor := false
  parameters := []
  returnTy := .void
  locals := []
  body :=
    let flags : Variable := { Variable.declared "flags" (.array .bool) with register := some 0 }
    let x : Variable := { Variable.declared "x" .int with register := some 1 }
    let y : Variable := { Variable.declared "y" .int with register := some 2 }
    let more : Variable := { Variable.declared "more" .bool with register := some 3 }
    [⟨["loop1"], .assign (.element flags (.var x) .bool) .bool (.binary .lt (.var x) (.var y))⟩,
      ⟨[], .branch (.binary .and (.var more) (.element flags (.var x) .bool)) "loop1"⟩,
      ⟨[], .ret .void none⟩]

def flaggingSlots : SlotStore
  | 0 => .ref 7
  | 1 => .int 2
  | 2 => .int 5
  | _ => .int 1

/-- A program whose only method loops. -/
def looping : Source.Program :=
  ⟨[], "C", none, [], [⟨"f", true, [], .void, [.while (.bool true) (.block [])], none⟩]⟩

def loopingTable : Source.SymbolTable :=
  Source.SymbolTable.addMethod ⟨"C", none, [], [], ∅⟩ ⟨"f", .void, [], []⟩

theorem run_segment_flagging :
    (∃ body segs, bodyOf ⟨"C", none, [], [], []⟩ flagging false = .ok body ∧
      WellLabeled flagging.body ∧
      segments ⟨"C", none, [], [], []⟩ "flagging" false 1 flagging.body = .ok segs ∧
      (∃ steps, 0 < steps ∧
        run (World.ask fun _ _ => some (.int 1, ())) (listing body.items) steps
          (.running (entry segs 0) [] flaggingSlots ⟨(), []⟩) =
        .running (entry segs 1) [] flaggingSlots
          ⟨(), [(⟨.iastore, [.ref 7, .int 2, .int 1]⟩, some (.int 1))]⟩) ∧
      ∃ steps, 0 < steps ∧
        run (World.ask fun _ _ => some (.int 1, ())) (listing body.items) steps
          (.running (entry segs 1) [] flaggingSlots ⟨(), []⟩) =
        .running (entry segs 0) [] flaggingSlots
          ⟨(), [(⟨.iaload, [.ref 7, .int 2]⟩, some (.int 1))]⟩) ∧
    ∃ lowered, Lowering.lowerProgram loopingTable looping = .ok lowered ∧
      ∀ method ∈ lowered.methods, ∀ map, WellLabeled (Registers.assign map method).body := by
  have labeled : WellLabeled flagging.body := by
    refine ⟨by decide, by decide, ?_⟩
    intro label hlabel number
    obtain rfl : label = Lowering.LabelKind.label .test 1 := List.mem_singleton.mp hlabel
    exact label_not_mem_labelsOfComparison .test 1 number
  obtain ⟨segs, hsegs, _, hrun⟩ := run_segment_eq_step.1
    (fun _ _ => some (.int 1, ()) : World Request Unit) ⟨"C", none, [], [], []⟩ flagging _ rfl
    labeled
  refine ⟨⟨_, segs, rfl, labeled, hsegs, ?_, ?_⟩, _, rfl, ?_⟩
  · exact hrun 0 _ rfl flaggingSlots ⟨(), []⟩ nofun
  · exact hrun 1 _ rfl flaggingSlots ⟨(), []⟩ nofun
  · exact run_segment_eq_step.2 loopingTable looping _ rfl

end ClassCompiler.Stack
