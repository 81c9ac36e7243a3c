import ClassCompiler.Proofs.Stack.Depth
import ClassCompiler.Proofs.Stack.Shortening

/-!
# Increments cannot be observed

With increments a line of code has the items that it has without them, or an increment in place of a
window. A window leaves the operand stack as deep as it was and jumps nowhere, so both bodies are
written alike: one exists if the other does, and the one with increments needs no deeper stack.
-/

namespace ClassCompiler.Stack

open Code (Labeled Method Operand SlotStore Variable)
open Machine (Session Value World)

/-- Occurrences of one variable in one slot have one type. -/
def TypedOnce (lines : List Labeled) : Prop :=
  ∀ left ∈ lines.flatMap (·.instr.vars), ∀ right ∈ lines.flatMap (·.instr.vars),
    sameSlot left right → left.ty = right.ty

/-- An instruction whose value is that of a variable with an amount added. -/
inductive Increments (var : Variable) : Code.Instr → Int32 → Prop where
  | addConstant {other : Variable} (same : sameSlot other var) (value : Int32) (ty : Code.Ty) :
    Increments var (.binary .add (.var other) (.literal value ty)) value
  | addToConstant {other : Variable} (same : sameSlot other var) (value : Int32) (ty : Code.Ty) :
    Increments var (.binary .add (.literal value ty) (.var other)) value
  | subConstant {other : Variable} (same : sameSlot other var) (value : Int32) (ty : Code.Ty) :
    Increments var (.binary .sub (.var other) (.literal value ty)) (-value)

/-- All three forms add the constant; a difference adds its negative. -/
theorem increments_of_addedConstant? {var : Variable} {value : Code.Instr} {added : Int}
    (h : addedConstant? var value = some added) : Increments var value (Int32.ofInt added) := by
  unfold addedConstant? at h
  split at h
  · next other value ty =>
    split at h <;> cases h
    next same =>
      rw [Int32.ofInt_toInt]
      exact .addConstant same value ty
  · next value ty other =>
    split at h <;> cases h
    next same =>
      rw [Int32.ofInt_toInt]
      exact .addToConstant same value ty
  · next other value ty =>
    split at h <;> cases h
    next same =>
      rw [Int32.ofInt_neg, Int32.ofInt_toInt]
      exact .subConstant same value ty
  · cases h

/-- What is known of an assignment that becomes an increment. -/
theorem increment?_eq_some {dest : Operand} {value : Code.Instr} {slot : UInt16} {delta : Int32}
    (h : increment? dest value = some (slot, delta)) :
    ∃ var, dest = .var var ∧ isCounter var ∧ var.register = some slot ∧
      Increments var value delta ∧ -128 ≤ delta.toInt ∧ delta.toInt ≤ 127 := by
  unfold increment? at h
  split at h
  · next var =>
    split at h
    · next counter =>
      obtain ⟨slot', hslot, h⟩ := Option.bind_eq_some_iff.mp h
      obtain ⟨added, hadded, h⟩ := Option.bind_eq_some_iff.mp h
      split at h
      · next range =>
        cases h
        simp only [Bool.and_eq_true, decide_eq_true_eq] at range
        have htoInt : (Int32.ofInt added).toInt = added :=
          Int32.toInt_ofInt_of_le (by omega) (by omega)
        exact ⟨var, rfl, counter, hslot, increments_of_addedConstant? hadded, by omega, by omega⟩
      · cases h
    · cases h
  · cases h

theorem increment?_call (dest : Operand) (kind : Code.CallKind) (target : Operand)
    (name? : Option String) (args : List Operand) (returnTy : Code.Ty) :
    increment? dest (.call kind target name? args returnTy) = none := by
  cases h : increment? dest (.call kind target name? args returnTy) with
  | none => rfl
  | some entry =>
    obtain ⟨_, _, _, _, increments, _⟩ := increment?_eq_some h
    cases increments

section

variable {cls : Code.Class} {method : String} {number : Nat}

theorem isCounter_of_sameSlot {var other : Variable} (counter : isCounter var)
    (same : sameSlot other var) (hty : other.ty = var.ty) : isCounter other := by
  simp only [sameSlot, Bool.and_eq_true, decide_eq_true_eq] at same
  rw [isCounter, hty, same.1.2]
  exact counter

section

variable {var : Variable} {slot : UInt16} (counter : isCounter var)
  (hslot : var.register = some slot)

include counter hslot

theorem slotOf_of_isCounter : slotOf method var = .ok slot := by
  obtain ⟨name, ty, role, register⟩ := var
  obtain rfl : register = some slot := hslot
  cases role with
  | declared | parameter | temporary | receiver => rfl
  | field | className => simp [isCounter] at counter

theorem loadVariable_of_isCounter : loadVariable method var = .ok (instrs [.iload slot]) := by
  have hty : var.ty = .int := by
    simp only [isCounter, Bool.and_eq_true, decide_eq_true_eq] at counter
    exact counter.1.1.1
  rw [loadVariable, slotOf_of_isCounter counter hslot, hty]
  rfl

theorem storeVariable_of_isCounter : storeVariable method var = .ok (instrs [.istore slot]) := by
  have hvar : var.ty = .int ∧ var.role ≠ .receiver := by
    simp only [isCounter, Bool.and_eq_true, decide_eq_true_eq] at counter
    exact ⟨counter.1.1.1, counter.1.2⟩
  rw [storeVariable, if_neg hvar.2, slotOf_of_isCounter counter hslot, hvar.1]
  rfl

/-- Without increments, an assignment that an increment can do is a window. -/
theorem exists_window {value : Code.Instr} {delta : Int32} (increments : Increments var value delta)
    (typed : ∀ other ∈ value.vars, sameSlot other var → other.ty = var.ty) :
    ∃ window, Window window slot delta ∧
      assignItems cls method false number (.var var) value = .ok (instrs window) := by
  have hload : ∀ other ∈ value.vars, sameSlot other var →
      loadVariable method other = .ok (instrs [.iload slot]) := by
    intro other hmem same
    have hregister : other.register = some slot := by
      simp only [sameSlot, Bool.and_eq_true, decide_eq_true_eq] at same
      rw [same.2, hslot]
    exact loadVariable_of_isCounter (isCounter_of_sameSlot counter same (typed other hmem same))
      hregister
  have hassign : ∀ {op : BinOp} {left right : Operand} {first second : Instr},
      loadOperand method left = .ok (instrs [first]) →
      loadOperand method right = .ok (instrs [second]) →
      assignItems cls method false number (.var var) (.binary op left right) =
        .ok (instrs [first, second] ++ operatorItems number op ++ instrs [.istore slot]) := by
    intro op left right first second hleft hright
    simp only [assignItems, valueItems, loadOperands, hleft, hright,
      storeVariable_of_isCounter counter hslot]
    rfl
  cases increments with
  | @addConstant other same value ty =>
    exact ⟨_, .addConstant slot _, hassign (hload other List.mem_cons_self same) rfl⟩
  | @addToConstant other same value ty =>
    exact ⟨_, .addToConstant slot _, hassign rfl (hload other List.mem_cons_self same)⟩
  | @subConstant other same value ty =>
    exact ⟨_, .subConstant slot _, hassign (hload other List.mem_cons_self same) rfl⟩

end

/-- What increments change in the items of an instruction. -/
theorem statementItems_increments {instr : Code.Instr}
    (typed : ∀ left ∈ instr.vars, ∀ right ∈ instr.vars, sameSlot left right → left.ty = right.ty) :
    statementItems cls method true number instr = statementItems cls method false number instr ∨
    ∃ window slot delta, Window window slot delta ∧ -128 ≤ delta.toInt ∧ delta.toInt ≤ 127 ∧
      statementItems cls method false number instr = .ok (instrs window) ∧
      statementItems cls method true number instr = .ok (instrs [.iinc slot delta]) := by
  cases instr with
  | assign dest ty value =>
    rw [statementItems, statementItems]
    cases hincrement : increment? dest value with
    | none =>
      refine .inl ?_
      simp only [assignItems, hincrement]
      rfl
    | some pair =>
      obtain ⟨slot, delta⟩ := pair
      obtain ⟨var, rfl, counter, hslot, increments, low, high⟩ := increment?_eq_some hincrement
      have typed' : ∀ other ∈ value.vars, sameSlot other var → other.ty = var.ty :=
        fun other hmem => typed other (List.mem_cons_of_mem var hmem) var List.mem_cons_self
      obtain ⟨window, hwindow, hplain⟩ := exists_window counter hslot increments typed'
      refine .inr ⟨window, slot, delta, hwindow, low, high, hplain, ?_⟩
      simp only [assignItems, hincrement]
      rfl
  | ret ty value => cases value <;> exact .inl rfl
  | binary | not | call | getField | putField | branch | goto | load => exact .inl rfl

end

/-- Two drafts that differ in windows which one of them has replaced, and in the depths that these
reach. -/
structure Trails (plain short : Draft) : Prop where
  items : Shortened plain.items.toList short.items.toList
  depth : plain.depth = short.depth
  maxDepth : short.maxDepth ≤ plain.maxDepth
  labelDepths : ∀ label, plain.labelDepths.get? label = short.labelDepths.get? label
  closed : plain.closed = short.closed

namespace Trails

variable {plain short : Draft}

theorem mark (h : Trails plain short) (label : String) :
    Trails (plain.mark label) (short.mark label) := by
  refine ⟨?_, ?_, h.maxDepth, h.labelDepths, rfl⟩
  · simpa [Draft.mark] using h.items.append (.refl [.label label])
  · simp only [Draft.mark, h.depth, h.labelDepths, h.closed]

theorem marks (h : Trails plain short) (labels : List String) :
    Trails (labels.foldl Draft.mark plain) (labels.foldl Draft.mark short) := by
  induction labels generalizing plain short with
  | nil => exact h
  | cons label rest ih => exact ih (h.mark label)

theorem push (h : Trails plain short) (instr : Instr) :
    Trails (plain.push instr) (short.push instr) := by
  have hdepth : (plain.push instr).depth = (short.push instr).depth := by
    simp only [Draft.push, h.depth]
  refine ⟨?_, hdepth, ?_, ?_, rfl⟩
  · simpa [Draft.push] using h.items.append (.refl [.instr instr])
  · have hmax := UInt16.le_iff_toNat_le.mp h.maxDepth
    have hplain : (plain.push instr).maxDepth = max plain.maxDepth (plain.push instr).depth := rfl
    have hshort : (short.push instr).maxDepth = max short.maxDepth (short.push instr).depth := rfl
    rw [UInt16.le_iff_toNat_le, hplain, hshort, UInt16.toNat_max, UInt16.toNat_max, hdepth]
    omega
  · intro label
    simp only [Draft.push, recordJump_get?, h.labelDepths, h.depth]

theorem add (h : Trails plain short) (item : Item) :
    Outcome.Matched Trails (plain.add item) (short.add item) := by
  rcases add_cases short item with
    ⟨label, rfl, _⟩ | ⟨instr, rfl, htaken, hadd⟩ | ⟨instr, rfl, htaken, hadd⟩
  · exact .ok (h.mark label)
  · rw [hadd, add_of_le (h.depth ▸ htaken)]
    exact .ok (h.push instr)
  · rw [hadd, add_of_lt (h.depth ▸ htaken)]
    exact .error _ _

theorem foldlM_add (h : Trails plain short) (items : List Item) :
    Outcome.Matched Trails (items.foldlM Draft.add plain) (items.foldlM Draft.add short) := by
  induction items generalizing plain short with
  | nil => exact .ok h
  | cons item rest ih =>
    rw [List.foldlM_cons, List.foldlM_cons]
    exact (h.add item).bind fun _ _ hnext => ih hnext

end Trails

/-- A window needs two places and leaves nothing. -/
theorem adds_window {window : List Instr} {slot : UInt16} {delta : Int32}
    (h : Window window slot delta) : Adds (instrs window) 0 2 := by
  have hload : Adds (instrs [.iload slot]) 1 1 := adds_instr rfl rfl rfl rfl
  have hconstant : ∀ value, Adds (instrs [.iconst value]) 1 1 :=
    fun value => adds_instr rfl rfl rfl rfl
  have hstore : ∀ {loads : List Item} {op : Instr}, Adds loads 2 2 → op.pops = 2 →
      op.pushes = 1 → op.target? = none → op.endsBlock = false →
      Adds (loads ++ instrs [op] ++ instrs [.istore slot]) 0 2 := by
    intro loads op hloads hpops hpushes noTarget noEnd
    have hop : Adds (loads ++ instrs [op]) 1 2 :=
      hloads.instr (Nat.le_of_eq hpops) (by omega) (by omega) noTarget noEnd
    exact hop.instr (Nat.le_refl 1) rfl (Nat.zero_le 2) rfl rfl
  cases h with
  | addConstant | subConstant => exact hstore (hload.append (hconstant _)) rfl rfl rfl rfl
  | addToConstant =>
    have hloads := (hconstant delta).append hload
    exact hstore hloads rfl rfl rfl rfl

theorem adds_iinc (slot : UInt16) (delta : Int32) : Adds (instrs [.iinc slot delta]) 0 0 :=
  (adds_nil 0).instr (Nat.le_refl 0) rfl (Nat.le_refl 0) rfl rfl

/-- Instructions that leave nothing, written on an empty stack. -/
theorem exists_written_instrs {draft : Draft} (hempty : draft.depth = 0) {list : List Instr}
    {height : Nat} (hadds : Adds (instrs list) 0 height) (fits : height < UInt16.size) :
    ∃ next, (instrs list).foldlM Draft.add draft = .ok next ∧ next.depth = 0 ∧
      draft.maxDepth.toNat ≤ next.maxDepth.toNat ∧
      next.maxDepth.toNat ≤ max draft.maxDepth.toNat height ∧
      (∀ label, next.labelDepths.get? label = draft.labelDepths.get? label) ∧
      next.closed = (draft.closed && (instrs list).isEmpty) := by
  obtain ⟨depths, hpasses, hpeak⟩ := hadds 0
  have noLabels := labels_instrs list
  have hle : draft.depth ≤ draft.maxDepth := by
    rw [hempty]
    exact UInt16.zero_le
  rcases written_of_passes hpasses hempty hle (by rw [noLabels]; exact List.nodup_nil)
    (by rw [noLabels]; nofun) with ⟨next, hnext⟩ | ⟨hlarge, _⟩
  · have hmax := hnext.maxDepth (by omega)
    refine ⟨next, hnext.written, hnext.depth, by omega, by omega, fun label => ?_, hnext.closed⟩
    exact hnext.labelDepths label (by rw [noLabels]; nofun)
  · omega

/-- On an empty stack a window is written like the increment in its place. -/
theorem Trails.window {plain short : Draft} (h : Trails plain short) (hempty : short.depth = 0)
    {window : List Instr} {slot : UInt16} {delta : Int32} (hwindow : Window window slot delta)
    (low : -128 ≤ delta.toInt) (high : delta.toInt ≤ 127) :
    Outcome.Matched Trails ((instrs window).foldlM Draft.add plain)
      ((instrs [.iinc slot delta]).foldlM Draft.add short) := by
  obtain ⟨plain', hplain, hdepth, hgrown, _, hlabels, hclosed⟩ :=
    exists_written_instrs (h.depth.trans hempty) (adds_window hwindow) (by decide)
  obtain ⟨short', hshort, hdepth', _, hkept, hlabels', hclosed'⟩ :=
    exists_written_instrs hempty (adds_iinc slot delta) (by decide)
  rw [hplain, hshort]
  refine .ok ⟨?_, hdepth.trans hdepth'.symm, ?_, ?_, ?_⟩
  · rw [items_of_foldlM_add hplain, items_of_foldlM_add hshort]
    have hitems : Shortened (instrs window ++ []) [.instr (.iinc slot delta)] :=
      .shorten hwindow low high .nil
    rw [List.append_nil] at hitems
    exact h.items.append hitems
  · have hmax := UInt16.le_iff_toNat_le.mp h.maxDepth
    rw [UInt16.le_iff_toNat_le]
    omega
  · intro label
    rw [hlabels, hlabels', h.labelDepths]
  · have hne : (instrs window).isEmpty = false := by cases hwindow <;> rfl
    rw [hclosed, hclosed', hne, Bool.and_false]
    exact (Bool.and_false _).symm

/-- Instructions that leave nothing are refused where the stack was not empty before. -/
theorem exists_error_of_kept {draft : Draft} {list : List Instr} {height : Nat}
    (hadds : Adds (instrs list) 0 height) (hne : draft.depth ≠ 0) (fault : Draft → Fault) :
    ∃ fault', ((instrs list).foldlM Draft.add draft >>= fun next =>
      if next.depth = 0 then pure next else .error (fault next)) = .error fault' := by
  cases hwritten : (instrs list).foldlM Draft.add draft with
  | error fault' => exact ⟨fault', rfl⟩
  | ok next =>
    obtain ⟨depths, hpasses, _⟩ := hadds draft.depth.toNat
    have hkept := depth_of_passes hpasses (labels_instrs list) UInt16.ofNat_toNat.symm hwritten
    rw [Nat.add_zero, UInt16.ofNat_toNat] at hkept
    exact ⟨fault next, by rw [Outcome.ok_bind, if_neg (hkept ▸ hne)]⟩

namespace Trails

variable {cls : Code.Class} {method : String} {number : Nat} {plain short : Draft}

/-- A line is written to both drafts alike, or as a window to one and as an increment to the other.
-/
theorem addLine (h : Trails plain short) {line : Labeled}
    (typed : ∀ left ∈ line.instr.vars, ∀ right ∈ line.instr.vars,
      sameSlot left right → left.ty = right.ty) :
    Outcome.Matched Trails (plain.addLine cls method false number line)
      (short.addLine cls method true number line) := by
  have hmarked := h.marks line.labels
  -- what is left over is the same for both, as they are equally deep
  have hcheck : ∀ next next' : Draft, Trails next next' →
      Outcome.Matched Trails
        (if next.depth = 0 then pure next
          else .error (Fault.leftOver next.depth line.instr method))
        (if next'.depth = 0 then pure next'
          else .error (Fault.leftOver next'.depth line.instr method)) := by
    intro next next' hnext
    rw [hnext.depth]
    split
    · exact .ok hnext
    · exact .error _ _
  rw [Draft.addLine, Draft.addLine]
  rcases statementItems_increments typed with
    hsame | ⟨window, slot, delta, hwindow, low, high, hplain, hshort⟩
  · rw [hsame]
    cases statementItems cls method false number line.instr with
    | error fault => exact .error fault fault
    | ok items => exact (hmarked.foldlM_add items).bind hcheck
  · rw [hplain, hshort]
    by_cases hempty : (line.labels.foldl Draft.mark short).depth = 0
    · exact (hmarked.window hempty hwindow low high).bind hcheck
    · -- both leave what was there before
      let fault (next : Draft) : Fault := .leftOver next.depth line.instr method
      obtain ⟨left, hleft⟩ :=
        exists_error_of_kept (adds_window hwindow) (hmarked.depth ▸ hempty) fault
      obtain ⟨right, hright⟩ := exists_error_of_kept (adds_iinc slot delta) hempty fault
      have hboth := @Outcome.Matched.error Fault Draft Draft Trails left right
      rw [← hleft, ← hright] at hboth
      exact hboth

theorem addLines (h : Trails plain short) {lines : List Labeled} (typed : TypedOnce lines) :
    Outcome.Matched Trails (Draft.addLines cls method false number plain lines)
      (Draft.addLines cls method true number short lines) := by
  induction lines generalizing plain short number with
  | nil => exact .ok h
  | cons line rest ih =>
    rw [TypedOnce, List.flatMap_cons] at typed
    have typedLine : ∀ left ∈ line.instr.vars, ∀ right ∈ line.instr.vars,
        sameSlot left right → left.ty = right.ty := by
      intro left hleft right hright
      exact typed left (List.mem_append_left _ hleft) right (List.mem_append_left _ hright)
    have typedRest : TypedOnce rest := by
      intro left hleft right hright
      exact typed left (List.mem_append_right _ hleft) right (List.mem_append_right _ hright)
    rw [Draft.addLines, Draft.addLines]
    exact (h.addLine typedLine).bind fun _ _ hnext => ih hnext typedRest

end Trails

/-- The bodies of a method without and with increments. -/
theorem matched_bodyOf (cls : Code.Class) {method : Method} (typed : TypedOnce method.body) :
    Outcome.Matched
      (fun plain short => Shortened plain.items short.items ∧ short.maxStack ≤ plain.maxStack)
      (bodyOf cls method false) (bodyOf cls method true) := by
  have initial : Trails .initial .initial := ⟨.nil, rfl, UInt16.le_refl _, fun _ => rfl, rfl⟩
  rw [bodyOf, bodyOf]
  exact (initial.addLines typed).bind fun _ _ h => .ok ⟨h.items, h.maxDepth⟩

/-- Increments change nothing that can be observed of a method whose variables have one type each.
It has a body with them if it has one without. The bodies differ in windows that are replaced. From
all slots and in all worlds they show the same slots and effects and return the same, and with
increments the operand stack is no deeper. -/
theorem increments_unobservable (cls : Code.Class) (method : Method)
    (typed : TypedOnce method.body) :
    ((∃ body, bodyOf cls method true = .ok body) ↔ ∃ body, bodyOf cls method false = .ok body) ∧
    ∀ plain short, bodyOf cls method false = .ok plain → bodyOf cls method true = .ok short →
      Shortened plain.items short.items ∧ short.maxStack ≤ plain.maxStack ∧
      ∀ {σ : Type} (world : World Request σ) (slots : SlotStore) (session : Session Request σ)
        (sight : Sight (Session Request σ)),
        (∃ steps, (run world.ask (listing plain.items) steps
          (.running 0 [] slots session)).sight = sight) ↔
        ∃ steps, (run world.ask (listing short.items) steps
          (.running 0 [] slots session)).sight = sight := by
  have hmatched := matched_bodyOf cls typed
  generalize bodyOf cls method false = left at hmatched
  generalize bodyOf cls method true = right at hmatched
  cases hmatched with
  | error fault fault' => simp
  | @ok plain short h =>
    refine ⟨⟨fun _ => ⟨plain, rfl⟩, fun _ => ⟨short, rfl⟩⟩, ?_⟩
    rintro _ _ ⟨⟩ ⟨⟩
    refine ⟨h.1, h.2, fun world slots session sight => ?_⟩
    exact exists_sight_iff h.1 [] slots session sight

/-- A loop that adds to a parameter and to a local by all three forms of windows; the last amount
is too wide for an increment. -/
def ticking : Method where
  name := "ticking"
  isStatic := true
  isConstructor := false
  parameters := []
  returnTy := .int
  locals := []
  body :=
    let n : Variable := { Variable.parameter "n" .int 1 with register := some 0 }
    let i : Variable := { Variable.declared "i" .int with register := some 1 }
    let more : Variable := { Variable.declared "more" .bool with register := some 2 }
    [⟨["loop1"], .assign (.var i) .int (.binary .add (.var i) (.int 1))⟩,
      ⟨[], .assign (.var n) .int (.binary .sub (.var n) (.int 128))⟩,
      ⟨[], .assign (.var i) .int (.binary .add (.int 127) (.var i))⟩,
      ⟨[], .assign (.var i) .int (.binary .add (.var i) (.int 128))⟩,
      ⟨[], .assign (.var more) .bool (.binary .lt (.var i) (.var n))⟩,
      ⟨[], .branch (.holds (.var more)) "loop1"⟩,
      ⟨[], .ret .int (some (.var i))⟩]

def tickingSlots : SlotStore
  | 0 => .int (-2147483137)
  | 1 => .int 2147483647
  | _ => .int 0

theorem increments_unobservable_ticking :
    TypedOnce ticking.body ∧
    ∃ plain short, bodyOf ⟨"C", none, [], [], []⟩ ticking false = .ok plain ∧
      bodyOf ⟨"C", none, [], [], []⟩ ticking true = .ok short ∧
      Shortened plain.items short.items ∧ short.items.length + 9 = plain.items.length ∧
      short.maxStack ≤ plain.maxStack ∧
      ∃ steps slots, (run (World.ask fun _ _ => none) (listing short.items) steps
        (.running 0 [] tickingSlots ⟨(), []⟩)).sight =
          .returned (some (.int (-2147483137))) slots ⟨(), []⟩ := by
  have typed : TypedOnce ticking.body := by
    unfold TypedOnce
    decide
  obtain ⟨hitems, hmax, hsight⟩ := (increments_unobservable ⟨"C", none, [], [], []⟩ ticking typed).2
    _ _ rfl rfl
  obtain ⟨steps, hsteps⟩ := (hsight (fun _ _ => none : World Request Unit) tickingSlots ⟨(), []⟩
    _).mp ⟨50, rfl⟩
  exact ⟨typed, _, _, rfl, rfl, hitems, rfl, hmax, steps, _, hsteps⟩

end ClassCompiler.Stack
