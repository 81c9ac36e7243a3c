import ClassCompiler.BinOp

/-!
# Values, worlds and effects

A method computes with integers and references. All else is asked of the world around it: calls,
objects, arrays and fields. A world answers a request in view of its own state, or does not answer.
A session keeps that state together with a log of what was asked and answered, so two computations
that end in the same session have had the same effects in the same order.
-/

namespace ClassCompiler.Machine

/-- A value. Booleans are the integers 0 and 1; references are given out by the world. -/
inductive Value where
  | int (value : Int32)
  | ref (address : Nat)
deriving DecidableEq

/-- Why a computation has no result: something it did has no meaning or no answer, or it took a
value for a boolean that is none, or its loops took more rounds than they were allowed. -/
inductive Stop where
  | trap
  | notBoolean
  | exhausted
deriving DecidableEq

/-- A computation that changes a state and may stop. -/
abbrev Effect (S : Type) := EStateM Stop S

namespace Effect

variable {S α β : Type}

def require : Option α → Effect S α
  | some a => pure a
  | none => throw .trap

def lift : Except Stop α → Effect S α
  | .ok a => pure a
  | .error stop => throw stop

theorem bind_apply (x : Effect S α) (f : α → Effect S β) (s : S) :
    (x >>= f) s = match x s with
      | .ok a s' => f a s'
      | .error stop s' => .error stop s' := by
  cases h : x s <;> simp [bind, EStateM.bind, h]

theorem pure_apply (a : α) (s : S) : (pure a : Effect S α) s = .ok a s := rfl

theorem throw_apply (stop : Stop) (s : S) : (throw stop : Effect S α) s = .error stop s := rfl

theorem bind_ok {x : Effect S α} {s s' : S} {a : α} (h : x s = .ok a s') (f : α → Effect S β) :
    (x >>= f) s = f a s' := by
  rw [bind_apply, h]

theorem bind_error {x : Effect S α} {s s' : S} {stop : Stop} (h : x s = .error stop s')
    (f : α → Effect S β) : (x >>= f) s = .error stop s' := by
  rw [bind_apply, h]

theorem bind_eq_ok {x : Effect S α} {f : α → Effect S β} {s s'' : S} {b : β} :
    (x >>= f) s = .ok b s'' ↔ ∃ a s', x s = .ok a s' ∧ f a s' = .ok b s'' := by
  rw [bind_apply]
  cases h : x s with
  | ok a s' => simp [and_assoc]
  | error stop s' => simp

/-- Two results that differ at most in values which correspond. -/
inductive Matched (R : α → β → Prop) :
    EStateM.Result Stop S α → EStateM.Result Stop S β → Prop where
  | ok {a : α} {b : β} (h : R a b) (state : S) : Matched R (.ok a state) (.ok b state)
  | error (stop : Stop) (state : S) : Matched R (.error stop state) (.error stop state)

theorem Matched.bind {α' β' : Type} {R : α → β → Prop} {Q : α' → β' → Prop} {x : Effect S α}
    {y : Effect S β} {f : α → Effect S α'} {g : β → Effect S β'} {s : S}
    (h : Matched R (x s) (y s)) (hnext : ∀ a b, R a b → ∀ s, Matched Q (f a s) (g b s)) :
    Matched Q ((x >>= f) s) ((y >>= g) s) := by
  rw [bind_apply, bind_apply]
  revert h
  generalize x s = left
  generalize y s = right
  rintro (⟨hab, state⟩ | ⟨stop, state⟩)
  · exact hnext _ _ hab state
  · exact .error stop state

theorem Matched.bind_same {α' β' : Type} {Q : α' → β' → Prop} {x : Effect S α}
    {f : α → Effect S α'} {g : α → Effect S β'} (h : ∀ a s, Matched Q (f a s) (g a s)) (s : S) :
    Matched Q ((x >>= f) s) ((x >>= g) s) := by
  rw [bind_apply, bind_apply]
  cases x s with
  | ok a state => exact h a state
  | error stop state => exact .error stop state

end Effect

/-- A world answers a request by a value and has a new state, or it does not answer. -/
abbrev World (ρ σ : Type) := ρ → σ → Option (Value × σ)

/-- The state of a world, and what was asked of it with the answers. -/
structure Session (ρ σ : Type) where
  state : σ
  events : List (ρ × Option Value)

/-- Asks the world; a request without an answer is a trap, and it is logged as well. -/
def World.ask {ρ σ : Type} (world : World ρ σ) (request : ρ) : Effect (Session ρ σ) Value :=
  fun session =>
    match world request session.state with
    | some (answer, state) => .ok answer ⟨state, session.events ++ [(request, some answer)]⟩
    | none => .error .trap ⟨session.state, session.events ++ [(request, none)]⟩

namespace Value

def ofBool (truth : Bool) : Value := .int (if truth then 1 else 0)

/-- Whether a branch on the value is taken; a reference is neither true nor false. -/
def truth? : Value → Option Bool
  | .int value => some (value ≠ 0)
  | .ref _ => none

def bool? : Value → Option Bool
  | .int value => if value = 0 then some false else if value = 1 then some true else none
  | .ref _ => none

def not (value : Value) : Except Stop Value :=
  match value.bool? with
  | some truth => .ok (ofBool !truth)
  | none => .error .notBoolean

/-- The result of an operator. Integers have 32 bits: sums, differences and products wrap around,
and there is no quotient by zero. -/
def binary : BinOp → Value → Value → Except Stop Value
  | .add, .int left, .int right => .ok (.int (left + right))
  | .sub, .int left, .int right => .ok (.int (left - right))
  | .mul, .int left, .int right => .ok (.int (left * right))
  | .div, .int left, .int right => if right = 0 then .error .trap else .ok (.int (left / right))
  | .lt, .int left, .int right => .ok (ofBool (left < right))
  | .and, left, right =>
    match left.bool?, right.bool? with
    | some left, some right => .ok (ofBool (left && right))
    | _, _ => .error .notBoolean
  | _, _, _ => .error .trap

@[simp] theorem truth?_ofBool (truth : Bool) : (ofBool truth).truth? = some truth := by
  cases truth <;> rfl

theorem eq_ofBool_of_bool? {value : Value} {truth : Bool} (h : value.bool? = some truth) :
    value = ofBool truth := by
  cases value with
  | ref => cases h
  | int value =>
    rw [bool?] at h
    split at h
    · next hzero => cases h; rw [hzero]; rfl
    · split at h
      · next hone => cases h; rw [hone]; rfl
      · cases h

end Value

end ClassCompiler.Machine
