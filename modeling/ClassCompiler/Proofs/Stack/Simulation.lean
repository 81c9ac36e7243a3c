import ClassCompiler.Proofs.Stack.Discipline

/-!
# Assembly executes as its code does

One step of code, on variables kept in slots, is done by the segment of its line: from an empty
operand stack the segment has the same effects in the same order and ends with an empty stack where
the code goes on. A request of code is translated to the instruction that asks it.
-/

namespace ClassCompiler.Stack

open Code (Condition Labeled Operand SlotStore Variable)
open Machine (Effect Listing Session Stop Value World)
open Machine.Listing (Stands)

/-- The class whose methods are invoked on values of a type, where there is one. -/
def ownerName (cls : Code.Class) (ty : Code.Ty) : String := (cls.ownerOf? ty).getD ""

/-- How a callee is invoked, with its class and name. -/
def calleeRef (cls : Code.Class) : Code.Callee → InvokeKind × String × String
  | .virtual receiver method => (.virtual, ownerName cls receiver, method)
  | .static owner method => (.static, cls.qualify owner, method)
  | .staticOf target method => (.static, ownerName cls target, method)
  | .constructor object => (.special, ownerName cls object, "<init>")
  | .superconstructor => (.special, cls.superclassName, "<init>")

def newArrayInstr (cls : Code.Class) (element : Code.Ty) : Instr :=
  if element.isInteger then .newIntArray else .anewarray (cls.referenceName element)

/-- What a request of code in a class asks in assembly. -/
def Request.ofCode (cls : Code.Class) : Code.Request → Request
  | .invoke callee argTys returnTy operands =>
    let (kind, owner, name) := calleeRef cls callee
    ⟨.invoke kind ⟨owner, name, cls.methodDescriptor argTys returnTy, argTys.length,
      returnTy ≠ .void⟩, operands⟩
  | .newObject name => ⟨.new (cls.qualify name), []⟩
  | .newArray ty size => ⟨newArrayInstr cls (ty.element?.getD .void), [size]⟩
  | .length array => ⟨.arraylength, [array]⟩
  | .getElement ty array index =>
    ⟨if ty.isInteger then .iaload else .aaload, [array, index]⟩
  | .putElement ty array index value =>
    ⟨if ty.isInteger then .iastore else .aastore, [array, index, value]⟩
  | .getField field ty object => ⟨.getfield ⟨cls.name, field, cls.descriptor ty⟩, [object]⟩
  | .putField field ty object value =>
    ⟨.putfield ⟨cls.name, field, cls.descriptor ty⟩, [object, value]⟩

/-- A variable of an integer type holds an integer, and any other a reference. -/
def fitsKind (ty : Code.Ty) (value : Value) : Bool := value.isInteger == ty.isInteger

/-- Execution of the code of a class on slots, where requests are asked as assembly asks them. -/
def slotMachine {S : Type} (cls : Code.Class) (perform : Request → Effect S Value) :
    Code.Executor SlotStore S :=
  Code.slotted fitsKind fun request => perform (.ofCode cls request)

section

variable {S : Type} {cls : Code.Class} {perform : Request → Effect S Value}
  {code : Listing Instr} {method : String} {items : List Item} {address : Nat}
  {slots : SlotStore}

theorem slot_of_slotOf {var : Variable} {slot : UInt16} (h : slotOf method var = .ok slot) :
    var.slot? = some slot := by
  obtain ⟨name, ty, role, register⟩ := var
  cases register with
  | none => cases role <;> cases h
  | some register => cases role <;> cases h <;> rfl

/-- Loading a variable puts on the stack what its slot holds. -/
theorem meets_fetch {var : Variable} (h : loadVariable method var = .ok items)
    (stands : Stands code address (listing items)) (stack : List Value) (state : S) :
    Meets perform code 1 ((slotMachine cls perform).fetch slots var state)
      (.running address stack slots state)
      fun value state' => .running (address + (listing items).size) (value :: stack) slots
        state' := by
  obtain ⟨slot, hslot, h⟩ := Outcome.bind_eq_ok.mp h
  obtain rfl := Outcome.pure_eq_ok.mp h
  have hinstr := stands.instr_eq
  have hexec : exec perform stack slots
      (if var.ty.isInteger then .iload slot else .aload slot) =
      execLoad stack slots var.ty.isInteger slot := by
    cases var.ty.isInteger <;> rfl
  have hget : (slotMachine cls perform).get slots var = some (slots slot) := by
    simp [slotMachine, Code.slotted, slot_of_slotOf hslot]
  rw [Code.Executor.fetch_apply, hget]
  by_cases hfits : (slots slot).isInteger = var.ty.isInteger
  · have hfits' : (slotMachine cls perform).fits var.ty (slots slot) = true := by
      simp [slotMachine, Code.slotted, fitsKind, hfits]
    simp only [hfits', if_true]
    refine Meets.ok (reaches_next hinstr ?_)
    rw [hexec, execLoad, if_pos hfits]
    rfl
  · have hfits' : (slotMachine cls perform).fits var.ty (slots slot) = false := by
      simp [slotMachine, Code.slotted, fitsKind, hfits]
    simp only [hfits', Bool.false_eq_true, if_false]
    refine Meets.trap (reaches_stopped .trap hinstr ?_)
    rw [hexec, execLoad, if_neg hfits]
    rfl

/-- An instruction that asks the world, with its operands on top of the stack. -/
theorem meets_request {instr : Instr} (h : code.instrs[address]? = some instr)
    (asks : instr.asks) {operands : List Value} (hpops : instr.pops = operands.length)
    (stack : List Value) (state : S) :
    Meets perform code 1 (perform ⟨instr, operands⟩ state)
      (.running address (operands.reverse ++ stack) slots state)
      fun answer state' => .running (address + 1)
        (if instr.pushes = 0 then stack else answer :: stack) slots state' := by
  have hlength : operands.reverse.length = instr.pops := by rw [List.length_reverse, hpops]
  have htake : ((operands.reverse ++ stack).take instr.pops).reverse = operands := by
    rw [← hlength, List.take_left, List.reverse_reverse]
  have hdrop : (operands.reverse ++ stack).drop instr.pops = stack := by
    rw [← hlength, List.drop_left]
  have hnot : ¬ (operands.reverse ++ stack).length < instr.pops := by
    rw [List.length_append, hlength]
    omega
  have hexec := exec_of_asks perform (operands.reverse ++ stack) slots asks
  rw [execRequest, if_neg hnot, htake, hdrop] at hexec
  cases hperform : perform ⟨instr, operands⟩ state with
  | ok answer state' =>
    refine Meets.ok (reaches_next h ?_)
    rw [hexec, Effect.bind_ok hperform]
    rfl
  | error stop state' =>
    have hstop := reaches_stopped stop h ((congrFun hexec state).trans
      (Effect.bind_error hperform _))
    cases stop with
    | notBoolean => trivial
    | trap | exhausted => exact hstop

/-- An instruction that asks for a value. -/
theorem meets_answer {instr : Instr} (h : code.instrs[address]? = some instr)
    (asks : instr.asks) {operands : List Value} (hpops : instr.pops = operands.length)
    (hpushes : instr.pushes = 1) (stack : List Value) (state : S) :
    Meets perform code 1 (perform ⟨instr, operands⟩ state)
      (.running address (operands.reverse ++ stack) slots state)
      fun answer state' => .running (address + 1) (answer :: stack) slots state' := by
  have hrequest := @meets_request S perform code address slots instr h asks operands hpops stack
    state
  rw [hpushes] at hrequest
  exact hrequest

theorem meets_operand {operand : Operand} (h : loadOperand method operand = .ok items)
    (stands : Stands code address (listing items)) (stack : List Value) (state : S) :
    Meets perform code 1 ((slotMachine cls perform).operand slots operand state)
      (.running address stack slots state)
      fun value state' => .running (address + (listing items).size) (value :: stack) slots
        state' := by
  induction operand generalizing items address stack state with
  | literal value ty =>
    cases h
    exact Meets.ok (reaches_next stands.instr_eq rfl)
  | var var => exact meets_fetch h stands stack state
  | element array index ty ih =>
    obtain ⟨arrayItems, harray, h⟩ := Outcome.bind_eq_ok.mp h
    obtain ⟨indexItems, hindex, h⟩ := Outcome.bind_eq_ok.mp h
    obtain rfl := Outcome.pure_eq_ok.mp h
    simp only [listing_append, Listing.size_append, ← Nat.add_assoc] at stands ⊢
    have hinstr := stands.right.instr_eq
    rw [Listing.size_append, ← Nat.add_assoc] at hinstr
    rw [Code.Executor.operand]
    refine Meets.bind (meets_fetch harray stands.left.left stack state) fun array state _ => ?_
    refine Meets.bind (ih hindex stands.left.right _ state) fun index state _ => ?_
    exact meets_answer hinstr (by split <;> rfl) (by split <;> rfl) (by split <;> rfl) stack state

/-- Operands come to lie on the stack in their order, the first lowest. -/
theorem meets_operands {operands : List Operand} (h : loadOperands method operands = .ok items)
    (stands : Stands code address (listing items)) (stack : List Value) (state : S) :
    Meets perform code 0 ((slotMachine cls perform).operands slots operands state)
      (.running address stack slots state)
      fun values state' => .running (address + (listing items).size) (values.reverse ++ stack)
        slots state' := by
  induction operands generalizing items address stack state with
  | nil =>
    cases h
    exact Meets.ok (Machine.Reaches.refl _)
  | cons first rest ih =>
    obtain ⟨firstItems, hfirst, h⟩ := Outcome.bind_eq_ok.mp h
    obtain ⟨restItems, hrest, h⟩ := Outcome.bind_eq_ok.mp h
    obtain rfl := Outcome.pure_eq_ok.mp h
    simp only [listing_append, Listing.size_append, ← Nat.add_assoc] at stands ⊢
    rw [Code.Executor.operands]
    refine Meets.bind (meets_operand hfirst stands.left stack state) fun value state _ => ?_
    refine Meets.bind (ih hrest stands.right _ state) fun values state _ => ?_
    refine Meets.ok ?_
    rw [List.reverse_cons, List.append_assoc]
    exact Machine.Reaches.refl _

/-- An invocation asks of the world what the call of the code asks. -/
theorem meets_invocation {kind : InvokeKind} {owner name : String} {operands args : List Operand}
    {returnTy : Code.Ty} {callee : Code.Callee}
    (h : invocationItems cls method kind owner name operands args returnTy = .ok items)
    (hcallee : calleeRef cls callee = (kind, owner, name))
    (hcount : operands.length = args.length + if kind = .static then 0 else 1)
    (stands : Stands code address (listing items)) (stack : List Value) (state : S) :
    Meets perform code 1
      (((slotMachine cls perform).operands slots operands >>= fun values =>
        (slotMachine cls perform).perform
          (.invoke callee (args.map (·.ty)) returnTy values)) state)
      (.running address stack slots state)
      fun answer state' => .running (address + (listing items).size)
        (if returnTy = .void then stack else answer :: stack) slots state' := by
  obtain ⟨loads, hloads, h⟩ := Outcome.bind_eq_ok.mp h
  obtain rfl := Outcome.pure_eq_ok.mp h
  simp only [listing_append, Listing.size_append, ← Nat.add_assoc] at stands ⊢
  refine Meets.bind (meets_operands hloads stands.left stack state) fun values state hvalues => ?_
  have hlength := Code.Executor.length_of_operands _ _ hvalues
  have hmeets := @meets_request S perform code (address + (listing loads).size) slots _
    stands.right.instr_eq rfl values (by
      rw [hlength, hcount]
      cases kind <;> rfl) stack state
  have hrequest : (slotMachine cls perform).perform
      (.invoke callee (args.map (·.ty)) returnTy values) =
      perform ⟨.invoke kind ⟨owner, name, cls.methodDescriptor (args.map (·.ty)) returnTy,
        args.length, returnTy ≠ .void⟩, values⟩ := by
    simp [slotMachine, Code.slotted, Request.ofCode, hcallee]
  rw [hrequest]
  by_cases hvoid : returnTy = .void
  · simpa [Instr.pushes_invoke, hvoid] using hmeets
  · simpa [Instr.pushes_invoke, hvoid] using hmeets

theorem ownerName_of_classOf {target : Operand} {owner : String}
    (h : classOf cls target = .ok owner) : ownerName cls target.ty = owner := by
  rw [classOf] at h
  split at h <;> cases h
  next howner => rw [ownerName, howner]; rfl

theorem calleeRef_virtual {target : Operand} {owner name : String}
    (h : ownerOf cls .virtual target = .ok owner) :
    calleeRef cls (.virtual target.ty name) = (.virtual, owner, name) := by
  rw [calleeRef, ownerName_of_classOf h]

theorem calleeRef_static {target : Operand} {owner name : String}
    (h : ownerOf cls .static target = .ok owner) :
    calleeRef cls (Code.staticCallee target name) = (.static, owner, name) := by
  cases target with
  | var var => cases h; rfl
  | literal | element =>
    simp only [Code.staticCallee, calleeRef]
    rw [ownerName_of_classOf h]

theorem calleeRef_special {target : Operand} {owner : String}
    (h : ownerOf cls .special target = .ok owner) :
    calleeRef cls (Code.constructorCallee target) = (.special, owner, "<init>") := by
  cases target with
  | var var =>
    rw [ownerOf] at h
    rw [Code.constructorCallee]
    split at h
    · next hrole =>
      cases h
      simp only [hrole, if_true]
      rfl
    · next hrole =>
      simp only [hrole, if_false, calleeRef]
      have howner : ownerName cls var.ty = owner := ownerName_of_classOf h
      rw [howner]
  | literal | element =>
    simp only [Code.constructorCallee, calleeRef]
    rw [ownerName_of_classOf h]

/-- A call, which leaves its answer unless it is void. -/
theorem meets_call {kind : Code.CallKind} {target : Operand} {name? : Option String}
    {args : List Operand} {returnTy : Code.Ty}
    (h : callItems cls method kind target name? args returnTy = .ok items)
    (stands : Stands code address (listing items)) (stack : List Value) (state : S) :
    Meets perform code 1
      ((slotMachine cls perform).call slots kind target name? args returnTy state)
      (.running address stack slots state)
      fun answer state' => .running (address + (listing items).size)
        (if callResults kind returnTy = 0 then stack else answer :: stack) slots state' := by
  have hresults : ∀ answer : Value, (if returnTy = .void then stack else answer :: stack) =
      if (if returnTy = .void then 0 else 1) = 0 then stack else answer :: stack := by
    intro answer
    by_cases hvoid : returnTy = .void <;> simp [hvoid]
  cases kind with
  | special =>
    obtain ⟨owner, howner, h⟩ := Outcome.bind_eq_ok.mp h
    have hmeets := @meets_invocation S cls perform code method items address slots .special owner
      "<init>" (target :: args) args returnTy _ h (calleeRef_special howner) rfl stands stack state
    simp only [hresults] at hmeets
    exact hmeets
  | virtual =>
    cases name? with
    | none => cases h
    | some name =>
      obtain ⟨owner, howner, h⟩ := Outcome.bind_eq_ok.mp h
      have hmeets := @meets_invocation S cls perform code method items address slots .virtual owner
        name (target :: args) args returnTy _ h (calleeRef_virtual howner) rfl stands stack state
      simp only [hresults] at hmeets
      exact hmeets
  | static =>
    cases name? with
    | none => cases h
    | some name =>
      obtain ⟨owner, howner, h⟩ := Outcome.bind_eq_ok.mp h
      have hmeets := @meets_invocation S cls perform code method items address slots .static owner
        name args args returnTy _ h (calleeRef_static howner) rfl stands stack state
      simp only [hresults] at hmeets
      exact hmeets
  | newObject =>
    cases target with
    | var var =>
      cases h
      exact meets_answer stands.instr_eq rfl rfl rfl stack state
    | literal | element => cases h
  | newArray =>
    obtain ⟨size, hsize, h⟩ := Outcome.bind_eq_ok.mp h
    split at h
    · next element helement =>
      obtain rfl := Outcome.pure_eq_ok.mp h
      simp only [listing_append, Listing.size_append, ← Nat.add_assoc] at stands ⊢
      refine Meets.bind (meets_operand hsize stands.left stack state) fun value state _ => ?_
      have hrequest : (slotMachine cls perform).perform (.newArray returnTy value) =
          perform ⟨newArrayInstr cls element, [value]⟩ := by
        simp [slotMachine, Code.slotted, Request.ofCode, helement]
      rw [hrequest]
      exact meets_answer stands.right.instr_eq (by split <;> rfl) (by split <;> rfl)
        (by split <;> rfl) stack state
    · cases h
  | arrayLength =>
    obtain ⟨array, harray, h⟩ := Outcome.bind_eq_ok.mp h
    obtain rfl := Outcome.pure_eq_ok.mp h
    simp only [listing_append, Listing.size_append, ← Nat.add_assoc] at stands ⊢
    refine Meets.bind (meets_operand harray stands.left stack state) fun value state _ => ?_
    exact meets_answer stands.right.instr_eq rfl rfl rfl stack state

/-- An instruction that replaces two integers by a result. -/
theorem meets_integers {instr : Instr} {op : Int32 → Int32 → Except Stop Int32}
    {result : Value → Value → Except Stop Value} (h : code.instrs[address]? = some instr)
    (hexec : ∀ stack, exec perform stack slots instr = execOperator stack slots op)
    (hints : ∀ left right, result (.int left) (.int right) = (op left right).map .int)
    (htrap : ∀ left right, (left.isInteger && right.isInteger) = false →
      result left right = .error .trap)
    (left right : Value) (stack : List Value) (state : S) :
    Meets perform code 1 (Effect.lift (result left right) state)
      (.running address (right :: left :: stack) slots state)
      fun value state' => .running (address + 1) (value :: stack) slots state' := by
  have hstep := hexec (right :: left :: stack)
  by_cases hkinds : (left.isInteger && right.isInteger) = true
  · cases left with
    | ref => cases hkinds
    | int left =>
      cases right with
      | ref => cases hkinds
      | int right =>
        rw [hints]
        rw [execOperator] at hstep
        cases hop : op left right with
        | ok value =>
          rw [hop] at hstep
          exact Meets.ok (reaches_next h (congrFun hstep state))
        | error stop =>
          rw [hop] at hstep
          have hstop := reaches_stopped stop h (congrFun hstep state)
          cases stop with
          | notBoolean => trivial
          | trap | exhausted => exact hstop
  · rw [htrap left right (by simpa using hkinds)]
    refine Meets.trap (reaches_stopped .trap h ?_)
    rw [hstep]
    cases left <;> cases right <;> first | rfl | exact absurd rfl hkinds

theorem exec_iand (perform : Request → Effect S Value) (stack : List Value) (left right : Bool)
    (state : S) :
    exec perform (.ofBool right :: .ofBool left :: stack) slots .iand state =
      .ok (.next (.ofBool (left && right) :: stack) slots) state := by
  cases left <;> cases right <;> rfl

theorem meets_and (h : code.instrs[address]? = some .iand) (left right : Value)
    (stack : List Value) (state : S) :
    Meets perform code 1 (Effect.lift (Value.binary .and left right) state)
      (.running address (right :: left :: stack) slots state)
      fun value state' => .running (address + 1) (value :: stack) slots state' := by
  cases hleft : left.bool? with
  | none =>
    have hresult : Value.binary .and left right = .error .notBoolean := by
      simp [Value.binary, hleft]
    rw [hresult]
    trivial
  | some first =>
    cases hright : right.bool? with
    | none =>
      have hresult : Value.binary .and left right = .error .notBoolean := by
        simp [Value.binary, hleft, hright]
      rw [hresult]
      trivial
    | some second =>
      have hresult : Value.binary .and left right = .ok (.ofBool (first && second)) := by
        simp [Value.binary, hleft, hright]
      rw [hresult, Value.eq_ofBool_of_bool? hleft, Value.eq_ofBool_of_bool? hright]
      exact Meets.ok (reaches_next h (exec_iand perform stack first second state))

theorem binary_trap {op : BinOp} (hop : op ≠ .and) {left right : Value}
    (h : (left.isInteger && right.isInteger) = false) :
    Value.binary op left right = .error .trap := by
  cases left <;> cases right <;> cases op <;> first | rfl | exact absurd rfl hop | cases h

/-- A comparison: both ways lead behind it, with the result on the stack. -/
theorem meets_comparison (distinct : code.labels.Nodup) {number : Nat}
    (stands : Stands code address (listing (operatorItems number .lt))) (left right : Value)
    (stack : List Value) (state : S) :
    Meets perform code 1 (Effect.lift (Value.binary .lt left right) state)
      (.running address (right :: left :: stack) slots state)
      fun value state' => .running (address + 4) (value :: stack) slots state' := by
  have onTrue := stands.next.next.next
  have done := onTrue.past_label.next
  have hjump : code.address? (comparisonLabels number).1 = some (address + 1 + 1 + 1) :=
    onTrue.address?_eq distinct
  have hdone : code.address? (comparisonLabels number).2 = some (address + 1 + 1 + 1 + 1) :=
    done.address?_eq distinct
  by_cases hkinds : (left.isInteger && right.isInteger) = true
  · cases left with
    | ref => cases hkinds
    | int left =>
      cases right with
      | ref => cases hkinds
      | int right =>
        refine Meets.ok ?_
        -- one way leads over the label in the middle, the other over the jump to the end
        by_cases hlt : left < right
        · have hfirst : Reaches perform code 1
              (.running address (.int right :: .int left :: stack) slots state)
              (.running (address + 1 + 1 + 1) stack slots state) := by
            have h := @reaches_jump S perform code address _ (comparisonLabels number).1
              (.int right :: .int left :: stack) stack slots state state stands.instr_eq
              (by rw [exec_ifIcmplt, if_pos hlt]; rfl)
            rwa [goTo, hjump] at h
          have hvalue : Value.ofBool (left < right) = .int 1 := by simp [Value.ofBool, hlt]
          rw [hvalue]
          exact hfirst.trans (reaches_next onTrue.past_label.instr_eq rfl)
        · have hfirst : Reaches perform code 1
              (.running address (.int right :: .int left :: stack) slots state)
              (.running (address + 1) stack slots state) :=
            reaches_next stands.instr_eq (by rw [exec_ifIcmplt, if_neg hlt]; rfl)
          have hsecond : Reaches perform code 1 (.running (address + 1) stack slots state)
              (.running (address + 1 + 1) (.int 0 :: stack) slots state) :=
            reaches_next stands.next.instr_eq rfl
          have hthird : Reaches perform code 1
              (.running (address + 1 + 1) (.int 0 :: stack) slots state)
              (.running (address + 1 + 1 + 1 + 1) (.int 0 :: stack) slots state) := by
            have h := @reaches_jump S perform code (address + 1 + 1) _ (comparisonLabels number).2
              (.int 0 :: stack) (.int 0 :: stack) slots state state stands.next.next.instr_eq rfl
            rwa [goTo, hdone] at h
          have hvalue : Value.ofBool (left < right) = .int 0 := by simp [Value.ofBool, hlt]
          rw [hvalue]
          exact (hfirst.trans hsecond).trans hthird
  · have hnot : (left.isInteger && right.isInteger) = false := by simpa using hkinds
    rw [binary_trap (by simp) hnot]
    refine Meets.trap (reaches_stopped .trap stands.instr_eq ?_)
    cases left <;> cases right <;> first | rfl | exact absurd rfl hkinds

/-- The items of an operator compute what the operator means, a comparison by its jumps. -/
theorem meets_operator (distinct : code.labels.Nodup) {number : Nat} {op : BinOp}
    (stands : Stands code address (listing (operatorItems number op))) (left right : Value)
    (stack : List Value) (state : S) :
    Meets perform code 1 (Effect.lift (Value.binary op left right) state)
      (.running address (right :: left :: stack) slots state)
      fun value state' => .running (address + (listing (operatorItems number op)).size)
        (value :: stack) slots state' := by
  cases op with
  | add | sub | mul =>
    exact meets_integers stands.instr_eq (fun _ => rfl) (fun _ _ => rfl)
      (fun _ _ h => binary_trap (by simp) h) left right stack state
  | div =>
    refine meets_integers stands.instr_eq (fun _ => rfl) (fun left right => ?_)
      (fun _ _ h => binary_trap (by simp) h) left right stack state
    rw [Value.binary, divide]
    split <;> rfl
  | and => exact meets_and stands.instr_eq left right stack state
  | lt => exact meets_comparison distinct stands left right stack state

theorem loadOperands_pair {left right : Operand}
    (h : loadOperands method [left, right] = .ok items) :
    ∃ leftItems rightItems, loadOperand method left = .ok leftItems ∧
      loadOperand method right = .ok rightItems ∧ items = leftItems ++ rightItems := by
  obtain ⟨leftItems, hleft, h⟩ := Outcome.bind_eq_ok.mp h
  obtain ⟨rest, hrest, h⟩ := Outcome.bind_eq_ok.mp h
  obtain rfl := Outcome.pure_eq_ok.mp h
  obtain ⟨rightItems, hright, hrest⟩ := Outcome.bind_eq_ok.mp hrest
  obtain ⟨none, hnone, hrest⟩ := Outcome.bind_eq_ok.mp hrest
  cases hnone
  obtain rfl := Outcome.pure_eq_ok.mp hrest
  exact ⟨leftItems, rightItems, hleft, hright, by rw [List.append_nil]⟩

theorem exec_ixor (perform : Request → Effect S Value) (stack : List Value) (truth : Bool)
    (state : S) :
    exec perform (.int 1 :: .ofBool truth :: stack) slots .ixor state =
      .ok (.next (.ofBool (!truth) :: stack) slots) state := by
  cases truth <;> rfl

theorem meets_not (stands : Stands code address (listing (instrs [.iconst 1, .ixor])))
    (value : Value) (stack : List Value) (state : S) :
    Meets perform code 1 (Effect.lift value.not state)
      (.running address (value :: stack) slots state)
      fun result state' => .running (address + 2) (result :: stack) slots state' := by
  cases hvalue : value.bool? with
  | none =>
    rw [Value.not, hvalue]
    trivial
  | some truth =>
    rw [Value.not, hvalue, Value.eq_ofBool_of_bool? hvalue]
    refine Meets.ok ?_
    have hone : Reaches perform code 1 (.running address (.ofBool truth :: stack) slots state)
        (.running (address + 1) (.int 1 :: .ofBool truth :: stack) slots state) :=
      reaches_next stands.instr_eq rfl
    exact hone.trans (reaches_next stands.next.instr_eq (exec_ixor perform stack truth state))

/-- The items of a value leave that value on the stack, with the same requests. -/
theorem meets_value (distinct : code.labels.Nodup) {number : Nat} {instr : Code.Instr}
    (h : valueItems cls method number instr = .ok items)
    (stands : Stands code address (listing items)) (stack : List Value) (state : S) :
    Meets perform code 1 ((slotMachine cls perform).value slots instr state)
      (.running address stack slots state)
      fun value state' => .running (address + (listing items).size) (value :: stack) slots
        state' := by
  cases instr with
  | load operand => exact meets_operand h stands stack state
  | binary op left right =>
    obtain ⟨loads, hloads, h⟩ := Outcome.bind_eq_ok.mp h
    obtain rfl := Outcome.pure_eq_ok.mp h
    obtain ⟨leftItems, rightItems, hleft, hright, rfl⟩ := loadOperands_pair hloads
    simp only [listing_append, Listing.size_append, ← Nat.add_assoc] at stands ⊢
    have hoperator := stands.right
    rw [Listing.size_append, ← Nat.add_assoc] at hoperator
    rw [Code.Executor.value]
    refine Meets.bind (meets_operand hleft stands.left.left stack state) fun left state _ => ?_
    refine Meets.bind (meets_operand hright stands.left.right _ state) fun right state _ => ?_
    exact meets_operator distinct hoperator left right stack state
  | not operand =>
    obtain ⟨load, hload, h⟩ := Outcome.bind_eq_ok.mp h
    obtain rfl := Outcome.pure_eq_ok.mp h
    simp only [listing_append, Listing.size_append, ← Nat.add_assoc] at stands ⊢
    rw [Code.Executor.value]
    refine Meets.bind (meets_operand hload stands.left stack state) fun value state _ => ?_
    exact meets_not stands.right value stack state
  | call kind target name? args returnTy =>
    rw [valueItems] at h
    split at h
    · cases h
    · next hvoid =>
      have hresults : callResults kind returnTy = 1 := by cases kind <;> simp [callResults, hvoid]
      have hmeets := @meets_call S cls perform code method items address slots kind target name?
        args returnTy h stands stack state
      rw [hresults] at hmeets
      exact hmeets
  | getField object field =>
    obtain ⟨load, hload, h⟩ := Outcome.bind_eq_ok.mp h
    obtain rfl := Outcome.pure_eq_ok.mp h
    simp only [listing_append, Listing.size_append, ← Nat.add_assoc] at stands ⊢
    rw [Code.Executor.value]
    refine Meets.bind (meets_operand hload stands.left stack state) fun value state _ => ?_
    exact meets_answer stands.right.instr_eq rfl rfl rfl stack state
  | assign | putField | branch | goto | ret => cases h

/-- A jump that is taken if a value on the stack counts as true. -/
theorem meets_branch {target : String} (h : code.instrs[address]? = some (.ifne target))
    (value : Value) (stack : List Value) (state : S) :
    Meets perform code 1 ((Effect.require value.truth? : Effect S Bool) state)
      (.running address (value :: stack) slots state)
      fun truth state' =>
        if truth then goTo code target stack slots state'
        else .running (address + 1) stack slots state' := by
  cases value with
  | ref => exact Meets.trap (reaches_stopped .trap h rfl)
  | int value =>
    refine Meets.ok ?_
    by_cases hzero : value = 0
    · simp only [hzero, ne_eq, not_true_eq_false, decide_false, Bool.false_eq_true, if_false]
      exact reaches_next h (by rw [exec_ifne]; rfl)
    · simp only [hzero, ne_eq, not_false_eq_true, decide_true, if_true]
      exact reaches_jump h (by rw [exec_ifne, decide_eq_true hzero]; rfl)

theorem meets_less {target : String} (h : code.instrs[address]? = some (.ifIcmplt target))
    (left right : Value) (stack : List Value) (state : S) :
    Meets perform code 1
      ((Effect.lift (Value.binary .lt left right) >>= fun value =>
        (Effect.require value.truth? : Effect S Bool)) state)
      (.running address (right :: left :: stack) slots state)
      fun truth state' =>
        if truth then goTo code target stack slots state'
        else .running (address + 1) stack slots state' := by
  by_cases hkinds : (left.isInteger && right.isInteger) = true
  · cases left with
    | ref => cases hkinds
    | int left =>
      cases right with
      | ref => cases hkinds
      | int right =>
        have hresult : (Effect.lift (Value.binary .lt (.int left) (.int right)) >>= fun value =>
            (Effect.require value.truth? : Effect S Bool)) state =
            .ok (decide (left < right)) state := by
          rw [Value.binary, Effect.lift, pure_bind, Value.truth?_ofBool]
          rfl
        rw [hresult]
        refine Meets.ok ?_
        by_cases hlt : left < right
        · simp only [hlt, decide_true, if_true]
          exact reaches_jump h (by rw [exec_ifIcmplt, if_pos hlt]; rfl)
        · simp only [hlt, decide_false, Bool.false_eq_true, if_false]
          exact reaches_next h (by rw [exec_ifIcmplt, if_neg hlt]; rfl)
  · have hnot : (left.isInteger && right.isInteger) = false := by simpa using hkinds
    rw [binary_trap (by simp) hnot]
    refine Meets.trap (reaches_stopped .trap h ?_)
    cases left <;> cases right <;> first | rfl | exact absurd rfl hkinds

/-- A jump that is taken if a boolean on the stack is false. -/
theorem meets_unless {target : String} (h : code.instrs[address]? = some (.ifeq target))
    (value : Value) (stack : List Value) (state : S) :
    Meets perform code 1
      ((Effect.lift value.not >>= fun value =>
        (Effect.require value.truth? : Effect S Bool)) state)
      (.running address (value :: stack) slots state)
      fun truth state' =>
        if truth then goTo code target stack slots state'
        else .running (address + 1) stack slots state' := by
  cases hvalue : value.bool? with
  | none =>
    rw [Value.not, hvalue]
    trivial
  | some truth =>
    have hresult : (Effect.lift value.not >>= fun value =>
        (Effect.require value.truth? : Effect S Bool)) state = .ok (!truth) state := by
      rw [Value.not, hvalue]
      simp only [Effect.lift]
      rw [pure_bind, Value.truth?_ofBool]
      rfl
    rw [hresult, Value.eq_ofBool_of_bool? hvalue]
    refine Meets.ok ?_
    cases truth with
    | true => exact reaches_next h rfl
    | false => exact reaches_jump h rfl

/-- The items of a condition jump exactly if the condition holds. -/
theorem meets_condition (distinct : code.labels.Nodup) {target : String} {cond : Condition}
    (h : conditionItems method target cond = .ok items)
    (stands : Stands code address (listing items)) (stack : List Value) (state : S) :
    Meets perform code 1 ((slotMachine cls perform).condition slots cond state)
      (.running address stack slots state)
      fun truth state' =>
        if truth then goTo code target stack slots state'
        else .running (address + (listing items).size) stack slots state' := by
  cases cond with
  | binary op left right =>
    obtain ⟨loads, hloads, h⟩ := Outcome.bind_eq_ok.mp h
    obtain rfl := Outcome.pure_eq_ok.mp h
    obtain ⟨leftItems, rightItems, hleft, hright, rfl⟩ := loadOperands_pair hloads
    simp only [listing_append, Listing.size_append, ← Nat.add_assoc] at stands ⊢
    have hbranch := stands.right
    rw [Listing.size_append, ← Nat.add_assoc] at hbranch
    rw [Code.Executor.condition]
    refine Meets.bind (meets_operand hleft stands.left.left stack state) fun left state _ => ?_
    refine Meets.bind (meets_operand hright stands.left.right _ state) fun right state _ => ?_
    by_cases hop : op = .lt
    · subst hop
      exact meets_less hbranch.instr_eq left right stack state
    · rw [branchItems_eq hop] at hbranch ⊢
      simp only [listing_append, Listing.size_append, ← Nat.add_assoc] at hbranch ⊢
      refine Meets.bind (meets_operator distinct hbranch.left left right stack state)
        fun value state _ => ?_
      exact meets_branch hbranch.right.instr_eq value stack state
  | not operand =>
    obtain ⟨load, hload, h⟩ := Outcome.bind_eq_ok.mp h
    obtain rfl := Outcome.pure_eq_ok.mp h
    simp only [listing_append, Listing.size_append, ← Nat.add_assoc] at stands ⊢
    rw [Code.Executor.condition]
    refine Meets.bind (meets_operand hload stands.left stack state) fun value state _ => ?_
    exact meets_unless stands.right.instr_eq value stack state
  | holds operand =>
    obtain ⟨load, hload, h⟩ := Outcome.bind_eq_ok.mp h
    obtain rfl := Outcome.pure_eq_ok.mp h
    simp only [listing_append, Listing.size_append, ← Nat.add_assoc] at stands ⊢
    rw [Code.Executor.condition]
    refine Meets.bind (meets_operand hload stands.left stack state) fun value state _ => ?_
    exact meets_branch stands.right.instr_eq value stack state

/-- Storing takes the value into the slot of the variable. -/
theorem meets_update {var : Variable} (h : storeVariable method var = .ok items)
    (stands : Stands code address (listing items)) (value : Value) (stack : List Value)
    (state : S) :
    Meets perform code 1 ((slotMachine cls perform).update slots var value state)
      (.running address (value :: stack) slots state)
      fun slots' state' => .running (address + (listing items).size) stack slots' state' := by
  rw [storeVariable] at h
  split at h
  · cases h
  · obtain ⟨slot, hslot, h⟩ := Outcome.bind_eq_ok.mp h
    obtain rfl := Outcome.pure_eq_ok.mp h
    have hinstr := stands.instr_eq
    have hexec : exec perform (value :: stack) slots
        (if var.ty.isInteger then .istore slot else .astore slot) =
        execStore (value :: stack) slots var.ty.isInteger slot := by
      cases var.ty.isInteger <;> rfl
    have hset : (slotMachine cls perform).set slots var value =
        some (Code.put slots slot value) := by
      simp [slotMachine, Code.slotted, slot_of_slotOf hslot]
    rw [Code.Executor.update, hset]
    by_cases hfits : value.isInteger = var.ty.isInteger
    · have hfits' : (slotMachine cls perform).fits var.ty value = true := by
        simp [slotMachine, Code.slotted, fitsKind, hfits]
      rw [if_pos hfits']
      refine Meets.ok (reaches_next hinstr ?_)
      rw [hexec, execStore, if_pos hfits]
      rfl
    · have hfits' : ¬ (slotMachine cls perform).fits var.ty value = true := by
        simp [slotMachine, Code.slotted, fitsKind, hfits]
      rw [if_neg hfits']
      refine Meets.trap (reaches_stopped .trap hinstr ?_)
      rw [hexec, execStore, if_neg hfits]
      rfl

/-- An assignment does what its code does, and leaves the stack empty. -/
theorem meets_assign (distinct : code.labels.Nodup) {number : Nat} {dest : Operand}
    {value : Code.Instr} (h : assignItems cls method false number dest value = .ok items)
    (stands : Stands code address (listing items)) (state : S) :
    Meets perform code 1 ((slotMachine cls perform).assign slots dest value state)
      (.running address [] slots state)
      fun slots' state' => .running (address + (listing items).size) [] slots' state' := by
  unfold assignItems at h
  simp only [Bool.false_eq_true, if_false] at h
  cases dest with
  | var var =>
    obtain ⟨valueItems, hvalue, h⟩ := Outcome.bind_eq_ok.mp h
    obtain ⟨store, hstore, h⟩ := Outcome.bind_eq_ok.mp h
    obtain rfl := Outcome.pure_eq_ok.mp h
    simp only [listing_append, Listing.size_append, ← Nat.add_assoc] at stands ⊢
    rw [Code.Executor.assign]
    refine Meets.bind (meets_value distinct hvalue stands.left [] state) fun value state _ => ?_
    exact meets_update hstore stands.right value [] state
  | element array index ty =>
    obtain ⟨arrayItems, harray, h⟩ := Outcome.bind_eq_ok.mp h
    obtain ⟨indexItems, hindex, h⟩ := Outcome.bind_eq_ok.mp h
    obtain ⟨valueItems, hvalue, h⟩ := Outcome.bind_eq_ok.mp h
    obtain rfl := Outcome.pure_eq_ok.mp h
    simp only [listing_append, Listing.size_append, ← Nat.add_assoc] at stands ⊢
    have hindexAt := stands.left.left.right
    have hvalueAt := stands.left.right
    have hinstr := stands.right.instr_eq
    simp only [Listing.size_append, ← Nat.add_assoc] at hvalueAt hinstr
    rw [Code.Executor.assign]
    refine Meets.bind (meets_fetch harray stands.left.left.left [] state) fun array state _ => ?_
    refine Meets.bind (meets_operand hindex hindexAt _ state) fun index state _ => ?_
    refine Meets.bind (meets_value distinct hvalue hvalueAt _ state) fun value state _ => ?_
    have hstore := @meets_request S perform code _ slots _ hinstr (by split <;> rfl)
      [array, index, value] (by split <;> rfl) [] state
    refine Meets.map hstore fun answer state => ?_
    rw [if_pos (by split <;> rfl)]
    rfl
  | literal => cases h

/-- Where execution goes on after an instruction whose segment ends at an address. -/
def resume (code : Listing Instr) (address : Nat) (slots : SlotStore) :
    Code.Control SlotStore → S → Config S
  | .next slots', state => .running address [] slots' state
  | .jump label, state => goTo code label [] slots state
  | .leave value, state => .returned value slots state

/-- A value that is not used is taken off the stack again. -/
theorem meets_dropped {x : Effect S Value} {state : S} {config : Config S}
    (h : Meets perform code 1 (x state) config
      fun value state' => .running address [value] slots state')
    (hpop : code.instrs[address]? = some .pop) :
    Meets perform code 1 ((x >>= fun _ => pure (Code.Control.next slots)) state) config
      (resume code (address + 1) slots) :=
  Meets.bind h fun _ _ _ => Meets.ok (reaches_next hpop rfl)

theorem meets_leave {ty : Code.Ty}
    (h : code.instrs[address]? = some (if ty.isInteger then .ireturn else .areturn))
    (value : Value) (state : S) {address' : Nat} :
    Meets perform code 1
      ((if (slotMachine cls perform).fits ty value then
        return .leave (some value) else throw .trap : Effect S (Code.Control SlotStore)) state)
      (.running address [value] slots state) (resume code address' slots) := by
  have hexec : exec perform [value] slots (if ty.isInteger then .ireturn else .areturn) =
      execLeave [value] ty.isInteger := by
    cases ty.isInteger <;> rfl
  by_cases hfits : value.isInteger = ty.isInteger
  · have hfits' : (slotMachine cls perform).fits ty value = true := by
      simp [slotMachine, Code.slotted, fitsKind, hfits]
    rw [if_pos hfits']
    refine Meets.ok (reaches_leave h ?_)
    rw [hexec, execLeave, if_pos hfits]
    rfl
  · have hfits' : ¬ (slotMachine cls perform).fits ty value = true := by
      simp [slotMachine, Code.slotted, fitsKind, hfits]
    rw [if_neg hfits']
    refine Meets.trap (reaches_stopped .trap h ?_)
    rw [hexec, execLeave, if_neg hfits]
    rfl

/-- The items of an instruction do what the instruction does. The items are accepted: written to a
draft they leave its stack empty. -/
theorem meets_statement (distinct : code.labels.Nodup) {number : Nat} {instr : Code.Instr}
    (h : statementItems cls method false number instr = .ok items) {draft next : Draft}
    (hfirst : draft.depth = 0) (hwritten : items.foldlM Draft.add draft = .ok next)
    (hempty : next.depth = 0) (stands : Stands code address (listing items)) (state : S) :
    Meets perform code 1 ((slotMachine cls perform).exec slots instr state)
      (.running address [] slots state)
      (resume code (address + (listing items).size) slots) := by
  cases instr with
  | assign dest ty value =>
    have hassign : assignItems cls method false number dest value = .ok items := h
    rw [Code.Executor.exec]
    exact Meets.map (meets_assign distinct hassign stands state) fun _ _ => rfl
  | call kind target name? args returnTy =>
    obtain ⟨call, hcall, h⟩ := Outcome.bind_eq_ok.mp h
    obtain rfl := Outcome.pure_eq_ok.mp h
    have hexec : (slotMachine cls perform).exec slots (.call kind target name? args returnTy) =
        (slotMachine cls perform).call slots kind target name? args returnTy >>= fun _ =>
          pure (.next slots) := rfl
    rw [hexec]
    by_cases hvoid : returnTy = .void
    · rw [if_pos hvoid] at hwritten stands ⊢
      have hresults : callResults kind returnTy = 0 := by
        obtain ⟨depths, hpasses, _⟩ := adds_callItems hcall 0
        have hdepth := depth_of_passes hpasses (labels_callItems hcall) hfirst hwritten
        rw [hempty, Nat.zero_add] at hdepth
        exact eq_zero_of_ofNat (callResults_le_one kind returnTy) hdepth.symm
      refine Meets.map (meets_call hcall stands [] state) fun answer state => ?_
      rw [if_pos hresults]
      rfl
    · rw [if_neg hvoid] at stands ⊢
      have hresults : callResults kind returnTy = 1 := by cases kind <;> simp [callResults, hvoid]
      simp only [listing_append, Listing.size_append, ← Nat.add_assoc] at stands ⊢
      have hmeets := @meets_call S cls perform code method call address slots kind target name?
        args returnTy hcall stands.left [] state
      rw [hresults] at hmeets
      exact meets_dropped hmeets stands.right.instr_eq
  | putField object field value =>
    obtain ⟨loads, hloads, h⟩ := Outcome.bind_eq_ok.mp h
    obtain rfl := Outcome.pure_eq_ok.mp h
    obtain ⟨objectItems, valueItems, hobject, hvalue, rfl⟩ := loadOperands_pair hloads
    simp only [listing_append, Listing.size_append, ← Nat.add_assoc] at stands ⊢
    have hinstr := stands.right.instr_eq
    rw [Listing.size_append, ← Nat.add_assoc] at hinstr
    rw [Code.Executor.exec]
    refine Meets.bind (meets_operand hobject stands.left.left [] state) fun object state _ => ?_
    refine Meets.bind (meets_operand hvalue stands.left.right _ state) fun value state _ => ?_
    have hstore := @meets_request S perform code _ slots _ hinstr rfl [object, value] rfl [] state
    exact Meets.map hstore fun _ _ => rfl
  | branch cond target =>
    have hcondition : conditionItems method target cond = .ok items := h
    rw [Code.Executor.exec]
    refine Meets.map (meets_condition distinct hcondition stands [] state) fun truth state => ?_
    cases truth <;> rfl
  | goto target =>
    cases h
    exact Meets.ok (reaches_jump stands.instr_eq rfl)
  | ret ty value =>
    cases value with
    | none =>
      cases h
      exact Meets.ok (reaches_leave stands.instr_eq rfl)
    | some value =>
      obtain ⟨load, hload, h⟩ := Outcome.bind_eq_ok.mp h
      obtain rfl := Outcome.pure_eq_ok.mp h
      simp only [listing_append, Listing.size_append, ← Nat.add_assoc] at stands ⊢
      rw [Code.Executor.exec]
      refine Meets.bind (meets_operand hload stands.left [] state) fun value state _ => ?_
      exact meets_leave stands.right.instr_eq value state
  | binary | not | getField | load =>
    obtain ⟨valueItems, hvalue, h⟩ := Outcome.bind_eq_ok.mp h
    obtain rfl := Outcome.pure_eq_ok.mp h
    simp only [listing_append, Listing.size_append, ← Nat.add_assoc] at stands ⊢
    exact meets_dropped (meets_value distinct hvalue stands.left [] state) stands.right.instr_eq

end

/-- The place in a body at which the execution of its code is. -/
def Config.ofCode {S : Type} (segs : List (List Item)) : Code.Config SlotStore S → Config S
  | .running index slots state => .running (entry segs index) [] slots state
  | .returned value slots state => .returned value slots state
  | .stopped state => .stopped state

section

variable {S : Type} {perform : Request → Effect S Value} {cls : Code.Class}
  {method : Code.Method} {segs : List (List Item)} {index : Nat} {line : Labeled}

/-- Where a segment leaves off is where its line leads. -/
theorem resume_eq (hsegs : segments cls method.name false 1 method.body = .ok segs)
    (labeled : WellLabeled method.body) (hline : method.body[index]? = some line)
    {items : List Item} (hget : segs[index]? = some items) (slots : SlotStore)
    {control : Code.Control SlotStore} (follows : control.Follows line.instr) (state : S) :
    resume (listing segs.flatten) (entry segs index + (listing items).size) slots control state =
      Config.ofCode segs (Code.Executor.proceed method.body index slots state control) := by
  cases control with
  | next slots' =>
    rw [← entry_succ hget]
    rfl
  | jump label =>
    have hdefined := labeled.defined line (List.mem_of_getElem? hline) label follows
    obtain ⟨target, htarget⟩ := place?_of_mem_labelsOf hdefined
    have haddress := address?_of_place? hsegs
      (nodup_labels_segments hsegs labeled.distinct labeled.plain) htarget
    simp only [resume, goTo, haddress, Code.Executor.proceed, htarget, Config.ofCode]
  | leave value => rfl

/-- The segment of a line does what the instruction of the line does. -/
theorem meets_segment {body : Body} (accepted : bodyOf cls method false = .ok body)
    (labeled : WellLabeled method.body)
    (hsegs : segments cls method.name false 1 method.body = .ok segs)
    (hline : method.body[index]? = some line) (slots : SlotStore) (state : S) :
    Meets perform (listing segs.flatten) 1
      ((slotMachine cls perform).exec slots line.instr state)
      (.running (entry segs index) [] slots state)
      (fun control state' =>
        Config.ofCode segs (Code.Executor.proceed method.body index slots state' control)) := by
  obtain ⟨_, draft, _, _, hdraft, _⟩ := segments_of_bodyOf accepted
  obtain ⟨number, items, _, _, hitems, hget, hfirst, hwritten, hempty⟩ :=
    (tracked_initial method.body 1).accepted_line labeled (fun _ hmem => hmem) hdraft hsegs hline
  have hstands := stands_segment hget
  rw [listing_append] at hstands
  have hitemsAt := hstands.right
  rw [size_labels, Nat.add_zero] at hitemsAt
  have distinct := nodup_labels_segments hsegs labeled.distinct labeled.plain
  have hmeets := @meets_statement S cls perform _ method.name items _ slots distinct number
    line.instr hitems _ _ hfirst hwritten hempty hitemsAt state
  cases hexec : (slotMachine cls perform).exec slots line.instr state with
  | ok control state' =>
    rw [hexec] at hmeets
    have hgoal := resume_eq hsegs labeled hline hget slots
      (Code.Executor.follows_of_exec hexec) state'
    rw [listing_append, Listing.size_append, size_labels, Nat.zero_add] at hgoal
    refine Meets.ok ?_
    rw [← hgoal]
    exact hmeets
  | error stop state' =>
    rw [hexec] at hmeets
    cases stop with
    | notBoolean => trivial
    | trap | exhausted => exact hmeets

end

end ClassCompiler.Stack
