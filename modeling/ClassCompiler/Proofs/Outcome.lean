import Mathlib.Data.List.Forall2

/-!
# Computations that succeed

A sequence of steps succeeds when each of them does, and fails as the first of them that fails. Two
sequences whose steps match have matching outcomes.
-/

namespace ClassCompiler.Outcome

variable {ε ε' α β γ : Type}

/-- A sequence has a result exactly if both of its parts have one. -/
theorem bind_eq_ok {x : Except ε α} {f : α → Except ε β} {b : β} :
    (x >>= f) = .ok b ↔ ∃ a, x = .ok a ∧ f a = .ok b := by
  cases x with
  | error fault =>
    constructor
    · intro h; cases h
    · rintro ⟨a, h, _⟩; cases h
  | ok a =>
    constructor
    · intro h; exact ⟨a, rfl, h⟩
    · rintro ⟨a', h, hf⟩
      cases h
      exact hf

theorem ok_bind (a : α) (f : α → Except ε β) : (Except.ok a >>= f) = f a := rfl

theorem pure_eq_ok {a b : α} : (pure a : Except ε α) = .ok b ↔ a = b := by
  constructor
  · intro h; cases h; rfl
  · intro h; rw [h]; rfl

theorem exists_of_isOk {x : Except ε α} (h : x.isOk) : ∃ a, x = .ok a := by
  cases x with
  | error fault => cases h
  | ok a => exact ⟨a, rfl⟩

theorem exists_of_toOption {x : Except ε α} {f : α → β} {b : β}
    (h : x.toOption.map f = some b) : ∃ a, x = .ok a ∧ f a = b := by
  cases x with
  | error fault => cases h
  | ok a => exact ⟨a, rfl, Option.some.inj h⟩

theorem eq_ok_of_mapError {x : Except ε α} {f : ε → ε'} {a : α} (h : x.mapError f = .ok a) :
    x = .ok a := by
  cases x with
  | error fault => cases h
  | ok a' => cases h; rfl

/-- What is made of each element and of a result for it, the results being computed first. -/
theorem exists_mapM_of_mapM_bind {f : α → Except ε β} {g : α → β → γ} {as : List α} {cs : List γ}
    (h : as.mapM (fun a => do return g a (← f a)) = .ok cs) :
    ∃ bs, as.mapM f = .ok bs ∧ cs = List.zipWith g as bs := by
  induction as generalizing cs with
  | nil =>
    obtain rfl := pure_eq_ok.mp h
    exact ⟨[], rfl, rfl⟩
  | cons a as ih =>
    rw [List.mapM_cons] at h
    obtain ⟨c, hc, h⟩ := bind_eq_ok.mp h
    obtain ⟨rest, hrest, h⟩ := bind_eq_ok.mp h
    obtain rfl := pure_eq_ok.mp h
    obtain ⟨b, hb, hc⟩ := bind_eq_ok.mp hc
    obtain rfl := pure_eq_ok.mp hc
    obtain ⟨bs, hbs, rfl⟩ := ih hrest
    refine ⟨b :: bs, ?_, rfl⟩
    rw [List.mapM_cons, hb, ok_bind, hbs]
    rfl

/-- The results of a list that is worked through are those of its members, in order. -/
theorem forall₂_of_mapM {f : α → Except ε β} {as : List α} {bs : List β}
    (h : as.mapM f = .ok bs) : List.Forall₂ (fun a b => f a = .ok b) as bs := by
  induction as generalizing bs with
  | nil =>
    obtain rfl := pure_eq_ok.mp h
    exact .nil
  | cons a as ih =>
    rw [List.mapM_cons] at h
    obtain ⟨first, hfirst, h⟩ := bind_eq_ok.mp h
    obtain ⟨rest, hrest, h⟩ := bind_eq_ok.mp h
    obtain rfl := pure_eq_ok.mp h
    exact .cons hfirst (ih hrest)

theorem exists_of_mem_mapM {f : α → Except ε β} {as : List α} {bs : List β}
    (h : as.mapM f = .ok bs) {b : β} (hb : b ∈ bs) : ∃ a ∈ as, f a = .ok b := by
  induction as generalizing bs with
  | nil =>
    obtain rfl := pure_eq_ok.mp h
    cases hb
  | cons a as ih =>
    rw [List.mapM_cons] at h
    obtain ⟨first, hfirst, h⟩ := bind_eq_ok.mp h
    obtain ⟨rest, hrest, h⟩ := bind_eq_ok.mp h
    obtain rfl := pure_eq_ok.mp h
    rcases List.mem_cons.mp hb with rfl | hmem
    · exact ⟨a, List.mem_cons_self, hfirst⟩
    · obtain ⟨a', ha', hf⟩ := ih hrest hmem
      exact ⟨a', List.mem_cons_of_mem a ha', hf⟩

theorem exists_mapM {f : α → Except ε β} {as : List α} (h : ∀ a ∈ as, ∃ b, f a = .ok b) :
    ∃ bs, as.mapM f = .ok bs := by
  induction as with
  | nil => exact ⟨[], rfl⟩
  | cons a as ih =>
    obtain ⟨b, hb⟩ := h a List.mem_cons_self
    obtain ⟨bs, hbs⟩ := ih fun a' ha' => h a' (List.mem_cons_of_mem a ha')
    refine ⟨b :: bs, ?_⟩
    rw [List.mapM_cons, hb, ok_bind, hbs]
    rfl

theorem exists_of_mapM {f : α → Except ε β} {as : List α} {bs : List β} (h : as.mapM f = .ok bs)
    {a : α} (ha : a ∈ as) : ∃ b, f a = .ok b := by
  induction as generalizing bs with
  | nil => cases ha
  | cons first as ih =>
    rw [List.mapM_cons] at h
    obtain ⟨b, hb, h⟩ := bind_eq_ok.mp h
    obtain ⟨rest, hrest, _⟩ := bind_eq_ok.mp h
    rcases List.mem_cons.mp ha with rfl | hmem
    · exact ⟨b, hb⟩
    · exact ih hrest hmem

/-- All faults of a computation have a property. -/
def FailsOnly (P : ε → Prop) (x : Except ε α) : Prop := ∀ fault, x = .error fault → P fault

namespace FailsOnly

variable {P : ε → Prop}

theorem ok (a : α) : FailsOnly P (.ok a) := nofun

theorem of_eq_ok {x : Except ε α} {a : α} (h : x = .ok a) : FailsOnly P x := by
  rw [h]
  exact ok a

theorem error {fault : ε} (h : P fault) : FailsOnly P (.error fault : Except ε α) := by
  intro fault' heq
  cases heq
  exact h

/-- A sequence fails as one of its steps does. -/
theorem bind {x : Except ε α} {f : α → Except ε β} (h : FailsOnly P x)
    (hnext : ∀ a, x = .ok a → FailsOnly P (f a)) : FailsOnly P (x >>= f) := by
  cases x with
  | ok a => exact hnext a rfl
  | error fault => exact .error (h fault rfl)

theorem ends {x : Except ε α} (h : FailsOnly P x) :
    (∃ a, x = .ok a) ∨ ∃ fault, P fault ∧ x = .error fault := by
  cases x with
  | ok a => exact .inl ⟨a, rfl⟩
  | error fault => exact .inr ⟨fault, h fault rfl, rfl⟩

end FailsOnly

/-- Two outcomes that are both results, which correspond, or both faults. -/
inductive Matched (R : α → β → Prop) : Except ε α → Except ε β → Prop where
  | ok {a : α} {b : β} (h : R a b) : Matched R (.ok a) (.ok b)
  | error (fault fault' : ε) : Matched R (.error fault) (.error fault')

theorem Matched.bind {α' β' : Type} {R : α → β → Prop} {Q : α' → β' → Prop} {x : Except ε α}
    {y : Except ε β} {f : α → Except ε α'} {g : β → Except ε β'} (h : Matched R x y)
    (hnext : ∀ a b, R a b → Matched Q (f a) (g b)) : Matched Q (x >>= f) (y >>= g) := by
  cases h with
  | ok h => exact hnext _ _ h
  | error fault fault' => exact .error fault fault'

end ClassCompiler.Outcome
