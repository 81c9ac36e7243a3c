/-!
# Runs

A machine goes from one configuration to the next; a run takes a number of such steps.
-/

namespace ClassCompiler.Machine

variable {C : Type} {step : C → C} {least least' : Nat} {config config' config'' : C}

def run (step : C → C) : Nat → C → C
  | 0, config => config
  | steps + 1, config => run step steps (step config)

theorem run_add (step : C → C) (first second : Nat) (config : C) :
    run step (first + second) config = run step second (run step first config) := by
  induction first generalizing config with
  | zero => simp [run]
  | succ first ih =>
    rw [Nat.succ_add, run, run]
    exact ih (step config)

theorem run_of_fixed (h : step config = config) (steps : Nat) : run step steps config = config := by
  induction steps with
  | zero => rfl
  | succ steps ih => rw [run, h, ih]

/-- A run gets from one configuration to another in a number of steps that is not below a bound. -/
def Reaches (step : C → C) (least : Nat) (config config' : C) : Prop :=
  ∃ steps, least ≤ steps ∧ run step steps config = config'

namespace Reaches

theorem refl (config : C) : Reaches step 0 config config := ⟨0, Nat.le_refl 0, rfl⟩

theorem of_step (h : step config = config') : Reaches step 1 config config' :=
  ⟨1, Nat.le_refl 1, h⟩

theorem trans_add (h : Reaches step least config config')
    (h' : Reaches step least' config' config'') :
    Reaches step (least + least') config config'' := by
  obtain ⟨first, hfirst, rfl⟩ := h
  obtain ⟨second, hsecond, rfl⟩ := h'
  exact ⟨first + second, Nat.add_le_add hfirst hsecond, run_add step first second config⟩

theorem weaken (h : Reaches step least config config') (hle : least' ≤ least) :
    Reaches step least' config config' := by
  obtain ⟨steps, hsteps, heq⟩ := h
  exact ⟨steps, Nat.le_trans hle hsteps, heq⟩

theorem trans (h : Reaches step least config config') (h' : Reaches step least' config' config'') :
    Reaches step least' config config'' :=
  (h.trans_add h').weaken (Nat.le_add_left least' least)

/-- Where nothing changes any more, any number of steps has been taken. -/
theorem of_fixed (h : Reaches step least config config') (hfixed : step config' = config')
    (least' : Nat) : Reaches step least' config config' := by
  obtain ⟨steps, _, heq⟩ := h
  refine ⟨steps + least', Nat.le_add_left least' steps, ?_⟩
  rw [run_add, heq, run_of_fixed hfixed]

/-- A run that has come to an end is there after any number of steps that is large enough. -/
theorem eq_of_fixed {steps : Nat} (h : run step steps config = config')
    (hfixed : step config' = config') (h' : Reaches step steps config config'') :
    config'' = config' := by
  obtain ⟨more, hmore, rfl⟩ := h'
  obtain ⟨rest, rfl⟩ := Nat.exists_eq_add_of_le hmore
  rw [run_add, h, run_of_fixed hfixed]

end Reaches

section

variable {D O : Type} {step' : D → D} {see : C → O} {see' : D → O}

/-- A run gets from one configuration to another in one step or more, and before the last of them
nothing is seen to change. -/
def Glides (step : C → C) (see : C → O) (config config' : C) : Prop :=
  ∃ steps, 0 < steps ∧ run step steps config = config' ∧
    ∀ n < steps, see (run step n config) = see config

namespace Glides

theorem of_step (h : step config = config') : Glides step see config config' := by
  refine ⟨1, Nat.zero_lt_one, h, fun n hn => ?_⟩
  obtain rfl : n = 0 := by omega
  rfl

theorem cons (h : step config = config') (hsee : see config' = see config)
    (h' : Glides step see config' config'') : Glides step see config config'' := by
  subst h
  obtain ⟨steps, _, hrun, hsteps⟩ := h'
  refine ⟨steps + 1, Nat.succ_pos steps, hrun, fun n hn => ?_⟩
  cases n with
  | zero => rfl
  | succ n => exact (hsteps n (by omega)).trans hsee

end Glides

/-- Two machines show the same, if each step of the second one is a glide of the first. -/
theorem exists_see_iff {R : C → D → Prop} (same : ∀ c d, R c d → see c = see' d)
    (glide : ∀ c d, R c d → ∃ c', Glides step see c c' ∧ R c' (step' d)) {c : C} {d : D}
    (start : R c d) (sight : O) :
    (∃ steps, see (run step steps c) = sight) ↔ ∃ steps, see' (run step' steps d) = sight := by
  constructor
  · rintro ⟨steps, hsight⟩
    induction steps using Nat.strongRecOn generalizing c d with
    | ind steps ih =>
      obtain ⟨c', ⟨count, hpos, hrun, hquiet⟩, hnext⟩ := glide c d start
      by_cases hlt : steps < count
      · exact ⟨0, (same c d start).symm.trans ((hquiet steps hlt).symm.trans hsight)⟩
      · -- the rest of the run begins where the glide ends
        obtain ⟨rest, rfl⟩ := Nat.exists_eq_add_of_le (Nat.not_lt.mp hlt)
        rw [run_add, hrun] at hsight
        obtain ⟨steps', hsight'⟩ := ih rest (by omega) hnext hsight
        exact ⟨steps' + 1, hsight'⟩
  · rintro ⟨steps, hsight⟩
    induction steps generalizing c d with
    | zero => exact ⟨0, (same c d start).trans hsight⟩
    | succ steps ih =>
      obtain ⟨c', ⟨count, _, hrun, _⟩, hnext⟩ := glide c d start
      obtain ⟨rest, hrest⟩ := ih hnext hsight
      refine ⟨count + rest, ?_⟩
      rw [run_add, hrun]
      exact hrest

end

end ClassCompiler.Machine
