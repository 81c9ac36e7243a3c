import ClassCompiler.Proofs.Lowering.Statements

/-!
# Lowering preserves the meaning of methods

A method terminates with a value, with values of its variables and with a sequence of requests if
and only if its code returns with the same ones. A run of the method that takes more rounds than it
was given shows that its code has not returned after as many steps, so code that returns belongs to
a method that terminates. This takes parameters that 16 bits can count, and objects that are not
assigned to a variable of another class: there the code runs the constructor of the variable's
class.
-/

namespace ClassCompiler.Lowering

open Code (Config Control Executor Instr Labeled NamedStore Operand)
open Machine (Effect Session Stop Value World)
open Source (Scope SymbolTable)

section

variable {S : Type} {perform : Source.Request → Effect S Value} {table : SymbolTable}
  {scope : Scope} {code : List Labeled} {draft draft' : Draft} {source store : NamedStore} {s : S}

/-- The code from a draft on returns what a computation says. -/
def Returns (perform : Source.Request → Effect S Value) (scope : Scope) (code : List Labeled)
    (draft : Draft) (rounds : Nat) (store : NamedStore) (s : S) :
    EStateM.Result Stop S (Option Value × NamedStore) → Prop
  | .ok (value, source) s' => ∃ store',
    Reaches perform code 0 (.running draft.size store s) (.returned value store' s') ∧
      Agree scope source store'
  | .error _ _ => Pending perform code rounds (.running draft.size store s)

/-- Code that follows a computation goes on to where the rest of the code returns. -/
theorem Follows.returns {rounds : Nat} {x : Effect S NamedStore}
    {f : NamedStore → Effect S (Option Value × NamedStore)}
    (h : Follows perform scope code draft draft' rounds store s (x s))
    (h' : ∀ source' store' s', Agree scope source' store' →
      Returns perform scope code draft' rounds store' s' (f source' s')) :
    Returns perform scope code draft rounds store s ((x >>= f) s) := by
  cases hx : x s with
  | error stop s' =>
    rw [hx] at h
    rw [Effect.bind_error hx]
    exact h
  | ok source' s' =>
    rw [hx] at h
    obtain ⟨store', hreach, agree⟩ := h
    have hrest := h' source' store' s' agree
    rw [Effect.bind_ok hx]
    cases hf : f source' s' with
    | ok final s'' =>
      rw [hf] at hrest
      obtain ⟨store'', hreturn, agree'⟩ := hrest
      exact ⟨store'', hreach.trans hreturn, agree'⟩
    | error stop s'' =>
      rw [hf] at hrest
      exact (Pending.after hreach hrest).weaken (Nat.le_add_left _ _)

theorem returns_void {rounds : Nat} {ty : Code.Ty}
    (hcode : (draft.write (.ret ty none)).listing <+: Code.listing code)
    (agree : Agree scope source store) :
    Returns perform scope code draft rounds store s (.ok (none, source) s) := by
  have hexec : (namedMachine perform).exec store (.ret ty none) s = .ok (.leave none) s := rfl
  exact ⟨store, (reaches_of_exec hcode hexec).weaken (Nat.zero_le 1), agree⟩

/-- The operand of the return has the value of the expression, as computed before it. -/
theorem returns_value {rounds : Nat} {ty : Code.Ty} {operand : Operand} {x : Effect S Value}
    (h : Supplies perform scope code draft draft' store s operand (x s))
    (hcode : (draft'.write (.ret ty (some operand))).listing <+: Code.listing code)
    (agree : Agree scope source store) :
    Returns perform scope code draft rounds store s
      ((x >>= fun value => pure (some value, source)) s) := by
  have hcomputes := computes_of_supplies h
  cases hx : x s with
  | ok value s' =>
    rw [hx] at hcomputes
    obtain ⟨store', s₁, hreach, hkept, hvalue⟩ := hcomputes
    have hexec : (namedMachine perform).exec store' (.ret ty (some operand)) s₁ =
        .ok (.leave (some value)) s' := by
      rw [Executor.exec, Effect.bind_ok hvalue]
      rfl
    have hreturn := (reaches_of_exec hcode hexec).weaken (Nat.zero_le 1)
    rw [Effect.bind_ok hx]
    exact ⟨store', hreach.trans hreturn, agree.trans hkept.agree⟩
  | error stop s' =>
    rw [hx] at hcomputes
    obtain ⟨s₂, hstop⟩ := hcomputes.stops hcode fun store' => rfl
    rw [Effect.bind_error hx]
    exact .of_stopped hstop rounds

/-- The code of a body runs to its only return. -/
theorem returns_lowerBody {rounds : Nat} {method : Source.Method}
    (fits : scope.parameters.length < UInt16.size)
    (own : Source.OwnClass (method.assignedObjects table scope))
    (distinct : (Code.listing code).labels.Nodup)
    (h : lowerBody method (.ofScope table scope) draft = .ok () draft')
    (hcode : draft'.listing <+: Code.listing code) (agree : Agree scope source store) :
    Returns perform scope code draft rounds store s
      (Source.runMethod perform table scope rounds method source s) := by
  obtain ⟨middle, hbody, hend⟩ := lowerBody_eq_ok h
  have hstmts (hmiddle : middle.listing <+: Code.listing code) :
      Follows perform scope code draft middle rounds store s
        (Source.execAll perform table scope rounds method.body source s) := by
    rw [Source.Method.assignedObjects, Source.assignedObjectsOfBody_eq] at own
    refine follows_lowerStmts (fun stmt hstmt => ?_) hbody hmiddle agree
    exact follows_lowerStmt fits distinct stmt (own.of_flatMap hstmt)
  rw [Source.runMethod]
  rcases hend with ⟨hvoid, rfl⟩ | ⟨result, operand, middle', hvoid, hresult, hvalue, rfl⟩
  · refine (hstmts ((middle.grows_write _).trans hcode)).returns ?_
    intro source' store' s' agree'
    simp only [hvoid]
    exact returns_void hcode agree'
  · have hcode' := (middle'.grows_write _).trans hcode
    refine (hstmts ((plain_lowerValue hvalue).grows.trans hcode')).returns ?_
    intro source' store' s' agree'
    simp only [hresult]
    exact returns_value (supplies_value fits hvalue hcode' agree') hcode agree'

theorem returns_lowerMethod {rounds : Nat} {method : Source.Method} {code : Code.Method}
    (hscope : table.method? method.signature = some scope)
    (fits : scope.parameters.length < UInt16.size)
    (own : Source.OwnClass (method.assignedObjects table scope))
    (h : lowerMethod table method = .ok code) (agree : Agree scope source store) :
    Returns perform scope code.body Draft.initial rounds store s
      (Source.runMethod perform table scope rounds method source s) := by
  have distinct := (labels_lowerMethod h).1
  obtain ⟨scope', draft, hscope', hbody, hpending, hcode, _⟩ := lowerMethod_eq_ok h
  obtain rfl : scope' = scope := Option.some.inj (hscope'.symm.trans hscope)
  have hlisting : Code.listing code.body = draft.listing := by
    rw [hcode, Draft.listing_of_pending hpending]
  exact returns_lowerBody fits own distinct hbody (hlisting ▸ List.prefix_rfl) agree

end

/-- Lowering preserves the meaning of a method. Take a method that is lowered, the scope that the
symbol table has for it, and stores that agree on its variables. The method has fewer than 65536
parameters, and each object that it assigns to a variable at once is of the class that the variable
is declared with. The body and the expression that it returns terminate with a value, a session and
variables that have the observed values, if and only if the code, run from its first instruction,
returns with that value, that session and variables that have the observed values. -/
theorem terminates_iff_returns {σ : Type} (world : World Source.Request σ)
    {table : SymbolTable} {method : Source.Method} {scope : Scope} {code : Code.Method}
    (hscope : table.method? method.signature = some scope)
    (h : lowerMethod table method = .ok code) (fits : scope.parameters.length < UInt16.size)
    (own : Source.OwnClass (method.assignedObjects table scope))
    {source store : NamedStore} (agree : Agree scope source store)
    (session session' : Session Source.Request σ) (value : Option Value) (observed : NamedStore) :
    (∃ rounds final,
      Source.runMethod world.ask table scope rounds method source session =
        .ok (value, final) session' ∧ Agree scope final observed) ↔
    ∃ steps final,
      (namedMachine world.ask).run code.body steps (.running 0 store session) =
        .returned value final session' ∧ Agree scope final observed := by
  have hreturns (rounds : Nat) :
      Returns world.ask scope code.body Draft.initial rounds store session
        (Source.runMethod world.ask table scope rounds method source session) :=
    returns_lowerMethod hscope fits own h agree
  constructor
  · rintro ⟨rounds, final, hrun, hobserved⟩
    have hreturn := hreturns rounds
    rw [hrun] at hreturn
    obtain ⟨final', ⟨steps, _, hsteps⟩, agree'⟩ := hreturn
    refine ⟨steps, final', hsteps, ?_⟩
    intro key hkey
    exact (agree' key hkey).symm.trans (hobserved key hkey)
  · rintro ⟨steps, final, hsteps, hobserved⟩
    -- as many rounds are enough as the code takes steps
    have hreturn := hreturns steps
    cases hrun : Source.runMethod world.ask table scope steps method source session with
    | ok result session'' =>
      rw [hrun] at hreturn
      obtain ⟨final', hreach, agree'⟩ := hreturn
      have hend := Machine.Reaches.eq_of_fixed hsteps rfl (hreach.of_fixed rfl steps)
      cases hend
      exact ⟨steps, result.2, hrun, agree'.trans hobserved⟩
    | error stop session'' =>
      rw [hrun] at hreturn
      obtain ⟨config, hreach, hpending⟩ := hreturn
      exact absurd (Machine.Reaches.eq_of_fixed hsteps rfl hreach) (hpending _ _ _)

/-- A method that adds up entries of an array that are small, each times what a new object
answers. -/
def weighing : Source.Method where
  name := "weigh"
  isStatic := false
  parameters := [⟨"n", .int⟩]
  returnTy := .int
  body :=
    let entry : Source.Expr := .index (.name "entries") (.name "i")
    [.assign "scale" (.newObject "Scale"),
      .assign "i" (.int 0),
      .assign "sum" (.int 0),
      .while (.binary .lt (.name "i") (.name "n")) (.block
        [.ifElse (.binary .lt entry (.int 3))
          (.assign "sum" (.binary .add (.name "sum")
            (.binary .mul entry (.call (.name "scale") "weight" [.name "i"] (some .int)))))
          (.block []),
        .assign "i" (.binary .add (.name "i") (.int 1))]),
      .assignElement "entries" (.int 0) (.name "sum")]
  result := some (.name "sum")

def weighingScope : Scope :=
  ⟨"weigh", .int, [⟨"n", .int⟩], [⟨"scale", .named "Scale"⟩, ⟨"i", .int⟩, ⟨"sum", .int⟩]⟩

def weighingTable : SymbolTable :=
  SymbolTable.addMethod ⟨"C", none, ["Scale"], [⟨"entries", .array .int⟩], ∅⟩ weighingScope

def weighingWorld : World Source.Request Unit
  | .newObject _, _ => some (.ref 7, ())
  | .getField .., _ => some (.ref 5, ())
  | .getElement _ (.int index), _ => some (.int (index + 2), ())
  | _, _ => some (.int 10, ())

def weighingStore : NamedStore
  | .parameter _ => .int 2
  | _ => .ref 9

/-- Of the two entries only the first is small, so there is one call, and the sum is 20. -/
theorem weighing_returns :
    weighingTable.method? weighing.signature = some weighingScope ∧
    Source.OwnClass (weighing.assignedObjects weighingTable weighingScope) ∧
    ∃ code, lowerMethod weighingTable weighing = .ok code ∧
      ∃ steps final, (namedMachine weighingWorld.ask).run code.body steps
          (.running 0 weighingStore ⟨(), []⟩) =
        .returned (some (.int 20)) final
          ⟨(), [(.newObject "Scale", some (.ref 7)),
            (.invoke (.constructor (.object "Scale")) [.ref 7], some (.int 10)),
            (.getField "entries" (.ref 9), some (.ref 5)),
            (.getElement (.ref 5) (.int 0), some (.int 2)),
            (.getField "entries" (.ref 9), some (.ref 5)),
            (.getElement (.ref 5) (.int 0), some (.int 2)),
            (.invoke (.virtual "weight") [.ref 7, .int 0], some (.int 10)),
            (.getField "entries" (.ref 9), some (.ref 5)),
            (.getElement (.ref 5) (.int 1), some (.int 3)),
            (.getField "entries" (.ref 9), some (.ref 5)),
            (.putElement (.ref 5) (.int 0) (.int 20), some (.int 10))]⟩ ∧
        final (.local "sum") = .int 20 ∧ final (.local "i") = .int 2 := by
  have hscope : weighingTable.method? weighing.signature = some weighingScope := by decide +kernel
  have haccepted : (lowerMethod weighingTable weighing).isOk := by decide +kernel
  have own : Source.OwnClass (weighing.assignedObjects weighingTable weighingScope) := by
    unfold Source.OwnClass
    decide +kernel
  obtain ⟨code, h⟩ := Outcome.exists_of_isOk haccepted
  refine ⟨hscope, own, code, h, ?_⟩
  have hsource := terminates_iff_returns weighingWorld hscope h (by decide) own
    (fun _ _ => rfl : Agree weighingScope weighingStore weighingStore) ⟨(), []⟩ _ _ _ |>.mp
    ⟨3, _, rfl, fun _ _ => rfl⟩
  obtain ⟨steps, final, hsteps, agree⟩ := hsource
  exact ⟨steps, final, hsteps, agree (.local "sum") rfl, agree (.local "i") rfl⟩

/-- A method that assigns an object to a variable of another class. -/
def recasting : Source.Method :=
  ⟨"make", false, [], .int, [.assign "b" (.newObject "Derived")], some (.int 0)⟩

def recastingScope : Scope := ⟨"make", .int, [], [⟨"b", .named "Base"⟩]⟩

def recastingTable : SymbolTable :=
  SymbolTable.addMethod ⟨"Main", none, ["Base", "Derived"], [], ∅⟩ recastingScope

def recastingWorld : World Source.Request Unit := fun _ _ => some (.ref 7, ())

/-- The method runs the constructor of the object, the code that of the variable's class. -/
theorem recasting_diverges :
    recastingTable.method? recasting.signature = some recastingScope ∧
    (∃ final, Source.runMethod recastingWorld.ask recastingTable recastingScope 1 recasting
        (fun _ => .int 0) ⟨(), []⟩ =
      .ok (some (.int 0), final) ⟨(), [(.newObject "Derived", some (.ref 7)),
        (.invoke (.constructor (.object "Derived")) [.ref 7], some (.ref 7))]⟩) ∧
    ∃ code, lowerMethod recastingTable recasting = .ok code ∧
      ∃ steps final, (namedMachine recastingWorld.ask).run code.body steps
          (.running 0 (fun _ => .int 0) ⟨(), []⟩) =
        .returned (some (.int 0)) final ⟨(), [(.newObject "Derived", some (.ref 7)),
          (.invoke (.constructor (.object "Base")) [.ref 7], some (.ref 7))]⟩ := by
  refine ⟨by decide +kernel, ⟨_, rfl⟩, _, rfl, 3, _, rfl⟩

end ClassCompiler.Lowering
