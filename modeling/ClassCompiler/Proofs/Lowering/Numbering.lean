import Mathlib.Order.Bounds.Basic
import ClassCompiler.Proofs.Lowering.Values

/-!
# Numbers of temporaries

The name of a temporary is searched for: from the last number on, one number is tried after the
other, until one makes a name that is not declared. The search has no bound of its own. It ends
because a declaration can only take one of the names. Numbers never go back, so whatever else is
written in between, no two temporaries have the same name.
-/

namespace ClassCompiler.Lowering

open Code (Instr Variable)

variable {context : Context} {draft : Draft}

/-- The search from a count: it ends at some number, the first that makes a name which is not
declared. -/
inductive Search (context : Context) : Nat → Nat → Prop where
  | stop {count : Nat} (h : context.isDeclared (temporaryName (count + 1)) = false) :
      Search context count (count + 1)
  | next {count number : Nat} (h : context.isDeclared (temporaryName (count + 1)) = true)
      (hrest : Search context (count + 1) number) : Search context count number

theorem Search.unique {count number number' : Nat} (h : Search context count number)
    (h' : Search context count number') : number = number' := by
  induction h with
  | stop hfree =>
    cases h' with
    | stop => rfl
    | next htaken => exact absurd (hfree.symm.trans htaken) Bool.false_ne_true
  | next htaken _ ih =>
    cases h' with
    | stop hfree => exact absurd (hfree.symm.trans htaken) Bool.false_ne_true
    | next _ hrest => exact ih hrest

/-- A search passes over names that are declared. -/
theorem search_of_taken {count number : Nat} (hlt : count < number)
    (free : context.isDeclared (temporaryName number) = false)
    (taken : ∀ other, count < other → other < number →
      context.isDeclared (temporaryName other) = true) : Search context count number := by
  obtain ⟨gap, rfl⟩ := Nat.exists_eq_add_of_le hlt
  induction gap generalizing count with
  | zero => exact .stop free
  | succ gap ih =>
    have hnext : count + 1 + 1 + gap = count + 1 + (gap + 1) := by omega
    refine .next (taken (count + 1) (by omega) (by omega)) ?_
    rw [← hnext] at free taken ⊢
    refine ih (by omega) free ?_
    intro other hcount hother
    exact taken other (by omega) hother

/-- No number is left out without reason: those in between name declared variables. -/
theorem isDeclared_of_lt_nextTemporary {last number : Nat} (hlast : last < number)
    (hlt : number < nextTemporary context last) :
    context.isDeclared (temporaryName number) = true := by
  simp only [nextTemporary] at hlt
  cases hfind : (List.range' (last + 1) (context.declaredCount + 1)).find? fun number =>
      !context.isDeclared (temporaryName number) with
  | some found =>
    rw [hfind, Option.getD_some] at hlt
    obtain ⟨_, _, hbefore⟩ := List.find?_range'_eq_some.mp hfind
    simpa using hbefore number hlast hlt
  | none =>
    rw [hfind, Option.getD_none] at hlt
    have hrange : number ∈ List.range' (last + 1) (context.declaredCount + 1) :=
      List.mem_range'_1.mpr ⟨hlast, by omega⟩
    simpa using List.find?_eq_none.mp hfind number hrange

/-- There is at most one try more than there are declarations. -/
theorem nextTemporary_le (context : Context) (last : Nat) :
    nextTemporary context last ≤ last + (context.declaredCount + 1) := by
  have hrange := List.mem_range'_1.mp (nextTemporary_mem context last)
  omega

/-- The search ends where the next number is. -/
theorem search_iff {last number : Nat} :
    Search context last number ↔ number = nextTemporary context last := by
  have hends : Search context last (nextTemporary context last) :=
    search_of_taken (lt_nextTemporary context last) (isDeclared_nextTemporary context last)
      fun _ => isDeclared_of_lt_nextTemporary
  constructor
  · intro h
    exact h.unique hends
  · rintro rfl
    exact hends

theorem isDeclared_iff {name : String} :
    context.isDeclared name = true ↔ name ∈ declaredNames context :=
  ⟨mem_declaredNames, isDeclared_of_mem⟩

theorem isLeast_nextTemporary (context : Context) (last : Nat) :
    IsLeast {number | last < number ∧ temporaryName number ∉ declaredNames context}
      (nextTemporary context last) := by
  constructor
  · refine ⟨lt_nextTemporary context last, ?_⟩
    rw [← isDeclared_iff, isDeclared_nextTemporary]
    exact Bool.false_ne_true
  · rintro number ⟨hlast, hfree⟩
    refine Nat.le_of_not_lt fun hlt => hfree ?_
    exact isDeclared_iff.mp (isDeclared_of_lt_nextTemporary hlast hlt)

inductive Action where
  | temporary (ty : Code.Ty)
  | conditional
  | loop
  | mark (label : String)
  | write (instr : Instr)

def Action.perform : Action → Lower (Option Variable)
  | .temporary ty => do return some (← newTemporary ty)
  | .conditional => do let _ ← newConditional; return none
  | .loop => do let _ ← newLoop; return none
  | .mark label => do placeLabel label; return none
  | .write instr => do emit instr; return none

/-- An action takes the next number or leaves the last one as it is. -/
theorem perform_eq_ok (action : Action) (context : Context) (draft : Draft) :
    ∃ taken draft', action.perform context draft = .ok taken draft' ∧
      (taken = none ∧ draft'.lastTemporary = draft.lastTemporary ∨
        ∃ ty, taken = some (draft.fresh context ty) ∧
          draft'.lastTemporary = nextTemporary context draft.lastTemporary) := by
  cases action with
  | temporary ty => exact ⟨_, draft.withFresh context ty, rfl, .inr ⟨ty, rfl, rfl⟩⟩
  | conditional | loop | mark | write => exact ⟨_, _, rfl, .inl ⟨rfl, rfl⟩⟩

/-- The temporaries that actions take are numbered upwards from the last number. -/
theorem numbers_of_actions (context : Context) (draft : Draft) (actions : List Action) :
    ∃ taken draft', ∃ numbers : List Nat,
      actions.mapM Action.perform context draft = .ok taken draft' ∧
      (taken.filterMap id).map (·.name) = numbers.map temporaryName ∧
      numbers.Pairwise (· < ·) ∧ ∀ number ∈ numbers, draft.lastTemporary < number := by
  induction actions generalizing draft with
  | nil => exact ⟨[], draft, [], rfl, rfl, .nil, by simp⟩
  | cons action rest ih =>
    obtain ⟨first, middle, hfirst, htaken⟩ := perform_eq_ok action context draft
    obtain ⟨later, draft', numbers, hrest, hnames, hpairwise, hlater⟩ := ih middle
    have hall : (action :: rest).mapM Action.perform context draft =
        .ok (first :: later) draft' := by
      rw [List.mapM_cons]
      refine bind_eq_ok.mpr ⟨first, middle, hfirst, ?_⟩
      exact bind_eq_ok.mpr ⟨later, draft', hrest, rfl⟩
    rcases htaken with ⟨rfl, hlast⟩ | ⟨ty, rfl, hlast⟩
    · rw [hlast] at hlater
      exact ⟨_, _, numbers, hall, hnames, hpairwise, hlater⟩
    · rw [hlast] at hlater
      have hlt := lt_nextTemporary context draft.lastTemporary
      refine ⟨_, _, nextTemporary context draft.lastTemporary :: numbers, hall, ?_,
        .cons hlater hpairwise, ?_⟩
      · simpa [Draft.fresh, Variable.temporary] using hnames
      · rintro number (_ | ⟨_, hmem⟩)
        · exact hlt
        · exact Nat.lt_trans hlt (hlater number hmem)

/-- A temporary gets the first name that is free. For every symbol table, scope and draft, the
search for its number ends, and at one number only: the least above the last one that makes a name
which no local, no parameter and no field has. At most one name more is tried than are declared. The
temporary has that name, and the number is the last one from then on. However many temporaries are
taken, with labels and instructions in between, their names are distinct. -/
theorem temporaries_take_free_names (context : Context) (draft : Draft) :
    (∀ number, Search context draft.lastTemporary number ↔
      IsLeast {n | draft.lastTemporary < n ∧ temporaryName n ∉ declaredNames context} number) ∧
    (∃ number, Search context draft.lastTemporary number ∧
      number ≤ draft.lastTemporary + (context.declaredCount + 1) ∧
      ∀ ty, newTemporary ty context draft = .ok (.temporary (temporaryName number) ty)
        { draft with
          temporaries := draft.temporaries.push (.temporary (temporaryName number) ty)
          lastTemporary := number }) ∧
    ∀ actions : List Action, ∃ taken draft',
      actions.mapM Action.perform context draft = .ok taken draft' ∧
      ((taken.filterMap id).map (·.name)).Nodup := by
  have hleast := isLeast_nextTemporary context draft.lastTemporary
  refine ⟨?_, ?_, ?_⟩
  · intro number
    rw [search_iff]
    constructor
    · rintro rfl
      exact hleast
    · intro h
      exact h.unique hleast
  · exact ⟨_, search_iff.mpr rfl, nextTemporary_le context draft.lastTemporary, fun ty => rfl⟩
  · intro actions
    obtain ⟨taken, draft', numbers, hall, hnames, hpairwise, _⟩ :=
      numbers_of_actions context draft actions
    refine ⟨taken, draft', hall, ?_⟩
    rw [hnames]
    exact List.Nodup.map (fun _ _ => temporaryName_inj) (hpairwise.imp Nat.ne_of_lt)

end ClassCompiler.Lowering
