import ClassCompiler.Proofs.Stack.Layout

/-!
# Windows and increments

A window is four instructions that add a constant to a slot by way of the operand stack. Where some
windows of a listing are replaced by increments, labels stay in their places, and while a window is
executed neither the slots nor the world changes until its last instruction. The two listings
therefore show the same, step by step.
-/

namespace ClassCompiler.Stack

open Code (SlotStore put)
open Machine (Effect Glides Listing Value)
open Machine.Listing (Stands)

/-- Four instructions that add an amount to a slot. -/
inductive Window : List Instr → UInt16 → Int32 → Prop where
  | addConstant (slot : UInt16) (value : Int32) :
    Window [.iload slot, .iconst value, .iadd, .istore slot] slot value
  | addToConstant (slot : UInt16) (value : Int32) :
    Window [.iconst value, .iload slot, .iadd, .istore slot] slot value
  | subConstant (slot : UInt16) (value : Int32) :
    Window [.iload slot, .iconst value, .isub, .istore slot] slot (-value)

/-- The second items are the first ones with some windows replaced by increments, whose amounts fit
into a signed byte. -/
inductive Shortened : List Item → List Item → Prop where
  | nil : Shortened [] []
  | keep (item : Item) {plain short : List Item} (h : Shortened plain short) :
    Shortened (item :: plain) (item :: short)
  | shorten {window : List Instr} {slot : UInt16} {delta : Int32} {plain short : List Item}
    (hwindow : Window window slot delta) (low : -128 ≤ delta.toInt) (high : delta.toInt ≤ 127)
    (h : Shortened plain short) :
    Shortened (instrs window ++ plain) (.instr (.iinc slot delta) :: short)

namespace Shortened

theorem refl (items : List Item) : Shortened items items := by
  induction items with
  | nil => exact .nil
  | cons item rest ih => exact .keep item ih

theorem append {plain plain' short short' : List Item} (h : Shortened plain short)
    (h' : Shortened plain' short') : Shortened (plain ++ plain') (short ++ short') := by
  induction h with
  | nil => exact h'
  | keep item _ ih => exact .keep item ih
  | shorten hwindow low high _ ih =>
    rw [List.append_assoc]
    exact .shorten hwindow low high ih

end Shortened

/-- Two addresses with the same code ahead of them, but for windows that are replaced. -/
def Aligned (plain short : List Item) (address address' : Nat) : Prop :=
  ∃ before ahead before' ahead', plain = before ++ ahead ∧ short = before' ++ ahead' ∧
    Shortened ahead ahead' ∧ (listing before).size = address ∧ (listing before').size = address'

section

variable {plain short : List Item} {address address' : Nat}

theorem Aligned.prepend (h : Aligned plain short address address') (items items' : List Item) :
    Aligned (items ++ plain) (items' ++ short) ((listing items).size + address)
      ((listing items').size + address') := by
  obtain ⟨before, ahead, before', ahead', rfl, rfl, hahead, rfl, rfl⟩ := h
  refine ⟨items ++ before, ahead, items' ++ before', ahead', ?_, ?_, hahead, ?_, ?_⟩
  · rw [List.append_assoc]
  · rw [List.append_assoc]
  · rw [listing_append, Listing.size_append]
  · rw [listing_append, Listing.size_append]

theorem Shortened.aligned (h : Shortened plain short) : Aligned plain short 0 0 :=
  ⟨[], plain, [], short, rfl, rfl, h, rfl, rfl⟩

theorem size_instrs (list : List Instr) : (listing (instrs list)).size = list.length := by
  induction list with
  | nil => rfl
  | cons first rest ih => rw [listing_instrs_cons, Listing.size_instr, ih, List.length_cons]

theorem address?_instrs (list : List Instr) (items : List Item) (label : String) :
    (listing (instrs list ++ items)).address? label =
      ((listing items).address? label).map (list.length + ·) := by
  induction list with
  | nil => cases hlabel : (listing items).address? label <;> simp [instrs, hlabel]
  | cons first rest ih =>
    have hcons : listing (instrs (first :: rest) ++ items) =
        .inr first :: listing (instrs rest ++ items) := rfl
    rw [hcons, Listing.address?, ih, Option.map_map]
    refine congrArg (Option.map · _) (funext fun address => ?_)
    simp only [Function.comp, List.length_cons]
    omega

/-- A label is in both listings, at addresses with the same code ahead, or it is in neither. -/
def Located (plain short : List Item) (label : String) : Prop :=
  (listing plain).address? label = none ∧ (listing short).address? label = none ∨
    ∃ address address', (listing plain).address? label = some address ∧
      (listing short).address? label = some address' ∧ Aligned plain short address address'

theorem Located.prepend {label : String} (h : Located plain short label)
    (list list' : List Instr) : Located (instrs list ++ plain) (instrs list' ++ short) label := by
  rw [Located, address?_instrs, address?_instrs]
  rcases h with ⟨hplain, hshort⟩ | ⟨address, address', hplain, hshort, haligned⟩
  · rw [hplain, hshort]
    exact .inl ⟨rfl, rfl⟩
  · have hnext := haligned.prepend (instrs list) (instrs list')
    rw [size_instrs, size_instrs] at hnext
    rw [hplain, hshort]
    exact .inr ⟨_, _, rfl, rfl, hnext⟩

/-- Windows have no labels, so a label is in both listings or in neither. -/
theorem Shortened.located (h : Shortened plain short) (label : String) :
    Located plain short label := by
  induction h with
  | nil => exact .inl ⟨rfl, rfl⟩
  | @keep item plain short h ih =>
    cases item with
    | instr instr => exact ih.prepend [instr] [instr]
    | label name =>
      rw [Located, listing_label, listing_label, Listing.address?, Listing.address?]
      split
      · exact .inr ⟨0, 0, rfl, rfl, (h.keep (.label name)).aligned⟩
      · rcases ih with hnone | ⟨address, address', hplain, hshort, haligned⟩
        · exact .inl hnone
        · have hnext := haligned.prepend [.label name] [.label name]
          simp only [listing_label, listing_nil, Listing.size_label, Listing.size_nil,
            Nat.zero_add] at hnext
          exact .inr ⟨address, address', hplain, hshort, hnext⟩
  | @shorten window slot delta plain short _ _ _ _ ih => exact ih.prepend window [.iinc slot delta]

theorem Window.length_eq {window : List Instr} {slot : UInt16} {delta : Int32}
    (h : Window window slot delta) : window.length = 4 := by
  cases h <;> rfl

/-- What stands at aligned addresses: nothing, the same instruction, or a window and its
increment. -/
theorem Aligned.ahead (h : Aligned plain short address address') :
    ((listing plain).instrs[address]? = none ∧ (listing short).instrs[address']? = none) ∨
    (∃ instr, (listing plain).instrs[address]? = some instr ∧
      (listing short).instrs[address']? = some instr ∧
      Aligned plain short (address + 1) (address' + 1)) ∨
    ∃ window slot delta, Window window slot delta ∧
      Stands (listing plain) address (listing (instrs window)) ∧
      (listing short).instrs[address']? = some (.iinc slot delta) ∧
      Aligned plain short (address + 4) (address' + 1) := by
  obtain ⟨before, ahead, before', ahead', rfl, rfl, hahead, rfl, rfl⟩ := h
  induction hahead generalizing before before' with
  | nil => exact .inl ⟨by simp [Listing.size], by simp [Listing.size]⟩
  | @keep item plain short h ih =>
    cases item with
    | label name =>
      have hlabel := ih (before ++ [.label name]) (before' ++ [.label name])
      simpa using hlabel
    | instr instr =>
      refine .inr (.inl ⟨instr, Listing.instrs_getElem? (listing_append ..),
        Listing.instrs_getElem? (listing_append ..), ?_⟩)
      exact ⟨before ++ [.instr instr], plain, before' ++ [.instr instr], short, by simp, by simp, h,
        by simp, by simp⟩
  | @shorten window slot delta plain short hwindow low high h ih =>
    refine .inr (.inr ⟨window, slot, delta, hwindow, ?_,
      Listing.instrs_getElem? (listing_append ..), ?_⟩)
    · exact ⟨listing before, listing plain, by simp, rfl⟩
    · exact ⟨before ++ instrs window, plain, before' ++ instrs [.iinc slot delta], short, by simp,
        by simp [instrs], h, by simp [size_instrs, hwindow.length_eq], by simp⟩

end

/-- What can be seen of an execution: the slots and the state, and what was returned. -/
inductive Sight (S : Type) where
  | running (slots : SlotStore) (state : S)
  | returned (value : Option Value) (slots : SlotStore) (state : S)
  | stopped (state : S)

def Config.sight {S : Type} : Config S → Sight S
  | .running _ _ slots state => .running slots state
  | .returned value slots state => .returned value slots state
  | .stopped state => .stopped state

section

variable {S : Type} {perform : Request → Effect S Value}

section

variable {code : Listing Instr} {address : Nat} {stack : List Value} {slots : SlotStore}
  {state : S} {window : List Instr} {slot : UInt16} {delta : Int32}

theorem step_of_exec {instr : Instr} {control : Control} {state' : S}
    (h : code.instrs[address]? = some instr)
    (hexec : exec perform stack slots instr state = .ok control state') :
    step perform code (.running address stack slots state) =
      proceed code address slots state' control := by
  simp only [step, h, hexec]

theorem step_of_next {instr : Instr} {stack' : List Value} {slots' : SlotStore} {state' : S}
    (h : code.instrs[address]? = some instr)
    (hexec : exec perform stack slots instr state = .ok (.next stack' slots') state') :
    step perform code (.running address stack slots state) =
      .running (address + 1) stack' slots' state' :=
  step_of_exec h hexec

theorem step_of_trap {instr : Instr} {stop : Machine.Stop} {state' : S}
    (h : code.instrs[address]? = some instr)
    (hexec : exec perform stack slots instr state = .error stop state') :
    step perform code (.running address stack slots state) = .stopped state' := by
  simp only [step, h, hexec]

theorem exec_iload_int {value : Int32} (h : slots slot = .int value) (stack : List Value)
    (state : S) :
    exec perform stack slots (.iload slot) state =
      .ok (.next (.int value :: stack) slots) state := by
  rw [exec_iload, execLoad, h]
  rfl

theorem exec_iload_ref {ref : Nat} (h : slots slot = .ref ref) (stack : List Value) (state : S) :
    exec perform stack slots (.iload slot) state = .error .trap state := by
  rw [exec_iload, execLoad, h]
  rfl

/-- A window adds its amount to its slot. -/
theorem glides_window (hwindow : Window window slot delta)
    (stands : Stands code address (listing (instrs window))) {value : Int32}
    (hslot : slots slot = .int value) :
    Glides (step perform code) Config.sight (.running address stack slots state)
      (.running (address + 4) stack (put slots slot (.int (value + delta))) state) := by
  cases hwindow with
  | addConstant =>
    refine .cons (step_of_next stands.instr_eq (exec_iload_int hslot _ _)) rfl ?_
    refine .cons (step_of_next stands.next.instr_eq rfl) rfl ?_
    refine .cons (step_of_next stands.next.next.instr_eq rfl) rfl ?_
    exact .of_step (step_of_next stands.next.next.next.instr_eq rfl)
  | addToConstant =>
    refine .cons (step_of_next stands.instr_eq rfl) rfl ?_
    refine .cons (step_of_next stands.next.instr_eq (exec_iload_int hslot _ _)) rfl ?_
    refine .cons (step_of_next stands.next.next.instr_eq rfl) rfl ?_
    rw [Int32.add_comm]
    exact .of_step (step_of_next stands.next.next.next.instr_eq rfl)
  | subConstant =>
    refine .cons (step_of_next stands.instr_eq (exec_iload_int hslot _ _)) rfl ?_
    refine .cons (step_of_next stands.next.instr_eq rfl) rfl ?_
    refine .cons (step_of_next stands.next.next.instr_eq rfl) rfl ?_
    rw [← Int32.sub_eq_add_neg]
    exact .of_step (step_of_next stands.next.next.next.instr_eq rfl)

/-- A window on a slot that holds a reference stops, and nothing has happened. -/
theorem glides_window_trap (hwindow : Window window slot delta)
    (stands : Stands code address (listing (instrs window))) {ref : Nat}
    (hslot : slots slot = .ref ref) :
    Glides (step perform code) Config.sight (.running address stack slots state)
      (.stopped state) := by
  cases hwindow with
  | addConstant | subConstant =>
    exact .of_step (step_of_trap stands.instr_eq (exec_iload_ref hslot _ _))
  | addToConstant =>
    refine .cons (step_of_exec stands.instr_eq rfl) rfl ?_
    exact .of_step (step_of_trap stands.next.instr_eq (exec_iload_ref hslot _ _))

end

variable {plain short : List Item}

/-- Configurations that differ at most in their addresses, which are aligned. -/
inductive Alike (plain short : List Item) : Config S → Config S → Prop where
  | running {address address' : Nat} (h : Aligned plain short address address')
    (stack : List Value) (slots : SlotStore) (state : S) :
    Alike plain short (.running address stack slots state) (.running address' stack slots state)
  | returned (value : Option Value) (slots : SlotStore) (state : S) :
    Alike plain short (.returned value slots state) (.returned value slots state)
  | stopped (state : S) : Alike plain short (.stopped state) (.stopped state)

theorem Alike.sight_eq {config config' : Config S} (h : Alike plain short config config') :
    config.sight = config'.sight := by
  cases h <;> rfl

/-- Both executions go on from aligned addresses, and jumps keep them aligned. -/
theorem alike_proceed (h : Shortened plain short) {address address' : Nat}
    (haligned : Aligned plain short (address + 1) (address' + 1)) (slots : SlotStore) (state : S)
    (control : Control) :
    Alike plain short (proceed (listing plain) address slots state control)
      (proceed (listing short) address' slots state control) := by
  cases control with
  | next stack slots => exact .running haligned stack slots state
  | leave value => exact .returned value slots state
  | jump target stack =>
    rw [proceed, proceed, goTo, goTo]
    rcases h.located target with ⟨hplain, hshort⟩ | ⟨_, _, hplain, hshort, htarget⟩
    · rw [hplain, hshort]
      exact .stopped state
    · rw [hplain, hshort]
      exact .running htarget stack slots state

/-- A step of the shortened listing is one step of the other, or a window. -/
theorem Alike.glides (h : Shortened plain short) {config config' : Config S}
    (halike : Alike plain short config config') :
    ∃ config'', Glides (step perform (listing plain)) Config.sight config config'' ∧
      Alike plain short config'' (step perform (listing short) config') := by
  cases halike with
  | returned value slots state => exact ⟨_, .of_step rfl, .returned value slots state⟩
  | stopped state => exact ⟨_, .of_step rfl, .stopped state⟩
  | @running address address' haligned stack slots state =>
    rcases haligned.ahead with ⟨hplain, hshort⟩ | ⟨instr, hplain, hshort, hnext⟩ |
      ⟨window, slot, delta, hwindow, hstands, hshort, hnext⟩
    · refine ⟨.stopped state, .of_step ?_, ?_⟩
      · simp only [step, hplain]
      · simp only [step, hshort]
        exact .stopped state
    · cases hexec : exec perform stack slots instr state with
      | ok control state' =>
        refine ⟨_, .of_step (step_of_exec hplain hexec), ?_⟩
        rw [step_of_exec hshort hexec]
        exact alike_proceed h hnext slots state' control
      | error stop state' =>
        refine ⟨_, .of_step (step_of_trap hplain hexec), ?_⟩
        rw [step_of_trap hshort hexec]
        exact .stopped state'
    · cases hslot : slots slot with
      | int value =>
        have hexec : exec perform stack slots (.iinc slot delta) state =
            .ok (.next stack (put slots slot (.int (value + delta)))) state := by
          rw [exec_iinc, hslot]
          rfl
        refine ⟨_, glides_window hwindow hstands hslot, ?_⟩
        rw [step_of_exec hshort hexec]
        exact .running hnext stack _ state
      | ref ref =>
        have hexec : exec perform stack slots (.iinc slot delta) state = .error .trap state := by
          rw [exec_iinc, hslot]
          rfl
        refine ⟨_, glides_window_trap hwindow hstands hslot, ?_⟩
        rw [step_of_trap hshort hexec]
        exact .stopped state

/-- A listing shows the same with and without its windows replaced. -/
theorem exists_sight_iff (h : Shortened plain short) (stack : List Value) (slots : SlotStore)
    (state : S) (sight : Sight S) :
    (∃ steps, (run perform (listing plain) steps (.running 0 stack slots state)).sight = sight) ↔
      ∃ steps, (run perform (listing short) steps (.running 0 stack slots state)).sight = sight :=
  Machine.exists_see_iff (R := Alike plain short) (fun _ _ halike => halike.sight_eq)
    (fun _ _ halike => halike.glides h) (.running h.aligned stack slots state) sight

end

end ClassCompiler.Stack
